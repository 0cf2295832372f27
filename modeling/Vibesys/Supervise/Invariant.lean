import Vibesys.Supervise.Host

/-!
# What a supervisor that lives keeps in place

Its run's record is there and of this boot, and it has the file open that the run's directory shows, so that a
lock which can be taken and a record of another boot both prove that none lives. The start mark is in the record
before a start is sent. What supervisors and the machine do on their own keeps all of this.
-/
namespace Vibesys.Supervise

open Library
open Lifecycle (DeathProof Start RunPhase)

variable {L : Type*} {w w' : World L}

/-- No supervisor of the job runs a command or can be told to. -/
def World.Quiet (w : World L) : Prop := ∀ (pid : ℕ) (ph : Phase), w.procs[pid]? = some ph → ph.over_ = true

def World.Recorded (w : World L) : Prop := ∃ r, w.record = some r ∧ r.boot = w.boot

/-- A supervisor that is not over has the file open that the directory shows. -/
def World.Locked (w : World L) : Prop :=
  ∀ (pid : ℕ) (ph : Phase) (i : ℕ) (d : Dir L), w.procs[pid]? = some ph → ph.over_ = false → ph.opened = some i →
    w.dir = some d → d.alive = some i

/-- A run of which no supervisor was started yet. -/
def World.Fresh (w : World L) : Prop := w.Quiet ∧ w.Recorded ∧ w.proved = false ∧ w.released = false

def Task.Fits (w : World L) : Task L → Prop
  | .recorded _ => w.Fresh ∧ w.dir = none
  | .made _ => w.Fresh
  | .written => w.Fresh
  | .started pid => pid+1 = w.procs.length ∧ w.Recorded ∧ w.proved = false ∧ w.released = false
  | .cleaning => w.Quiet ∧ w.released = false
  | .cleaned => w.Quiet ∧ w.released = false ∧ w.dir = none
  | .sending _ => ∀ r, w.record = some r → r.sent = true
  | .forgetting _ => w.Quiet
  | .forgotten _ => w.Quiet ∧ w.dir = none
  | _ => True

/-- What holds while jobs are spawned only when nothing is left of a run. `only` says that no supervisor but the
last one started lives. -/
structure World.Base (w : World L) : Prop where
  live : ¬ w.Quiet → w.Recorded
  only : ∀ (pid : ℕ) (ph : Phase), w.procs[pid]? = some ph → pid+1 ≠ w.procs.length → ph.over_ = true
  dir : w.record = none → w.dir = none
  lock : w.Locked
  told : w.told = true → ∀ r, w.record = some r → r.sent = true
  proved : w.proved = true → w.Quiet
  released : w.released = true → w.Quiet ∧ w.record.isSome

structure World.Inv (w : World L) : Prop extends w.Base where
  task : w.task.Fits w

/-- A step of a supervisor or of the machine: it leaves the record and the daemon alone, brings no supervisor back
and makes no directory. -/
structure Calm (w w' : World L) : Prop where
  boot : w'.boot = w.boot
  record : w'.record = w.record
  procs : ∀ (pid : ℕ) (ph' : Phase), w'.procs[pid]? = some ph' →
    ∃ ph, w.procs[pid]? = some ph ∧ (ph.over_ = true → ph'.over_ = true)
  length : w'.procs.length = w.procs.length
  dir : w.dir = none → w'.dir = none
  task : w'.task = w.task
  released : w'.released = w.released
  told : w'.told = w.told
  proved : w'.proved = w.proved

theorem procs_setPhase {pid : ℕ} {f : Phase → Phase} {j : ℕ} {ph' : Phase}
    (h : (w.setPhase pid f).procs[j]? = some ph') :
    j = pid ∧ (∃ ph, w.procs[pid]? = some ph ∧ f ph = ph') ∨ j ≠ pid ∧ w.procs[j]? = some ph' := by
  simp only [World.setPhase,List.getElem?_modify] at h
  obtain ⟨ph,hph,heq⟩ := Option.map_eq_some_iff.mp h
  split at heq
  · next hj =>
    subst hj
    exact Or.inl ⟨rfl,ph,hph,heq⟩
  · next hj => exact Or.inr ⟨Ne.symm hj,heq ▸ hph⟩

namespace Calm

theorem quiet (h : Calm w w') (hq : w.Quiet) : w'.Quiet := by
  intro pid ph' hph'
  obtain ⟨ph,hph,hover⟩ := h.procs pid ph' hph'
  exact hover (hq pid ph hph)

theorem recorded (h : Calm w w') (hr : w.Recorded) : w'.Recorded := by
  obtain ⟨r,hr,hboot⟩ := hr
  exact ⟨r,h.record.trans hr,hboot.trans h.boot.symm⟩

theorem fresh (h : Calm w w') (hf : w.Fresh) : w'.Fresh :=
  ⟨h.quiet hf.1,h.recorded hf.2.1,h.proved.trans hf.2.2.1,h.released.trans hf.2.2.2⟩

theorem fits (h : Calm w w') {t : Task L} (ht : t.Fits w) : t.Fits w' := by
  cases t with
  | recorded l => exact ⟨h.fresh ht.1,h.dir ht.2⟩
  | made l => exact h.fresh ht
  | written => exact h.fresh ht
  | started pid =>
    obtain ⟨hpid,hr,hproved,hreleased⟩ := ht
    exact ⟨hpid.trans h.length.symm,h.recorded hr,h.proved.trans hproved,h.released.trans hreleased⟩
  | cleaning => exact ⟨h.quiet ht.1,h.released.trans ht.2⟩
  | cleaned => exact ⟨h.quiet ht.1,h.released.trans ht.2.1,h.dir ht.2.2⟩
  | sending pid => exact fun r hr => ht r (h.record.symm.trans hr)
  | forgetting lock => exact h.quiet ht
  | forgotten lock => exact ⟨h.quiet ht.1,h.dir ht.2⟩
  | _ => trivial

theorem base (h : Calm w w') (hi : w.Base) (hlock : w'.Locked) : w'.Base where
  live := fun hq => h.recorded (hi.live fun hquiet => hq (h.quiet hquiet))
  only := by
    intro pid ph' hph' hpid
    obtain ⟨ph,hph,hover⟩ := h.procs pid ph' hph'
    exact hover (hi.only pid ph hph (h.length ▸ hpid))
  dir := fun hr => h.dir (hi.dir (h.record.symm.trans hr))
  lock := hlock
  told := fun ht r hr => hi.told (h.told.symm.trans ht) r (h.record.symm.trans hr)
  proved := fun hp => h.quiet (hi.proved (h.proved.symm.trans hp))
  released := fun hr => by
    obtain ⟨hq,hrec⟩ := hi.released (h.released.symm.trans hr)
    exact ⟨h.quiet hq,by rwa [h.record]⟩

theorem inv (h : Calm w w') (hi : w.Inv) (hlock : w'.Locked) : w'.Inv :=
  ⟨h.base hi.toBase hlock,by rw [h.task]; exact h.fits hi.task⟩

theorem refl (w : World L) : Calm w w := ⟨rfl,rfl,fun _ ph h => ⟨ph,h,id⟩,rfl,id,rfl,rfl,rfl,rfl⟩

theorem trans {w'' : World L} (h : Calm w w') (h' : Calm w' w'') : Calm w w'' where
  boot := h'.boot.trans h.boot
  record := h'.record.trans h.record
  procs := by
    intro pid ph'' hph''
    obtain ⟨ph',hph',hover'⟩ := h'.procs pid ph'' hph''
    obtain ⟨ph,hph,hover⟩ := h.procs pid ph' hph'
    exact ⟨ph,hph,fun ho => hover' (hover ho)⟩
  length := h'.length.trans h.length
  dir := fun hd => h'.dir (h.dir hd)
  task := h'.task.trans h.task
  released := h'.released.trans h.released
  told := h'.told.trans h.told
  proved := h'.proved.trans h.proved

theorem setPhase (w : World L) (pid : ℕ) {f : Phase → Phase}
    (hf : ∀ ph : Phase, w.procs[pid]? = some ph → ph.over_ = true → (f ph).over_ = true) : Calm w (w.setPhase pid f) where
  boot := rfl
  record := rfl
  procs := by
    intro j ph' hph'
    rcases procs_setPhase hph' with ⟨rfl,ph,hph,rfl⟩ | ⟨-,hph'⟩
    · exact ⟨ph,hph,hf ph hph⟩
    · exact ⟨ph',hph',id⟩
  length := List.length_modify ..
  dir := id
  task := rfl
  released := rfl
  told := rfl
  proved := rfl

theorem setDir (w : World L) {d : Dir L} (hd : w.dir = some d) (d' : Dir L) (inodes : ℕ) :
    Calm w { w with dir := some d', inodes := inodes } :=
  ⟨rfl,rfl,fun _ ph h => ⟨ph,h,id⟩,rfl,fun hnone => absurd (hnone.symm.trans hd) (by simp),rfl,rfl,rfl,rfl⟩

end Calm

theorem World.Locked.setPhase (h : w.Locked) {pid : ℕ} {f : Phase → Phase}
    (hf : ∀ (ph : Phase) (i : ℕ) (d : Dir L), w.procs[pid]? = some ph → (f ph).over_ = false → (f ph).opened = some i → w.dir = some d →
      d.alive = some i) : (w.setPhase pid f).Locked := by
  intro j ph' i d hph' hover hopened hd
  rcases procs_setPhase hph' with ⟨rfl,ph,hph,rfl⟩ | ⟨-,hph'⟩
  · exact hf ph i d hph hover hopened hd
  · exact h j ph' i d hph' hover hopened hd

theorem procs_openAlive (w : World L) (d : Dir L) : (w.openAlive d).1.procs = w.procs := by
  rw [World.openAlive]
  split <;> rfl

theorem Calm.openAlive {d : Dir L} (hd : w.dir = some d) : Calm w (w.openAlive d).1 := by
  rw [World.openAlive]
  split
  · exact Calm.refl w
  · exact Calm.setDir w hd _ _

theorem openAlive_spec (h : w.Locked) {d : Dir L} (hd : w.dir = some d) :
    (w.openAlive d).1.Locked ∧ ∃ d', (w.openAlive d).1.dir = some d' ∧ d'.alive = some (w.openAlive d).2 := by
  rw [World.openAlive]
  split
  · next i halive => exact ⟨h,d,hd,halive⟩
  · next halive =>
    refine ⟨?_,_,rfl,rfl⟩
    intro pid ph i d' hph hover hopened _
    -- a supervisor with a file open would have it shown by the directory
    have := h pid ph i d hph hover hopened hd
    rw [halive] at this
    cases this

namespace Calm

theorem dies (w : World L) (pid : ℕ) : Calm w (w.dies pid) := setPhase w pid fun _ _ _ => rfl

theorem setLive (w : World L) {pid : ℕ} {ph : Phase} (hph : w.procs[pid]? = some ph) (hover : ph.over_ = false)
    (ph' : Phase) : Calm w (w.setPhase pid fun _ => ph') := by
  refine setPhase w pid fun ph₀ hph₀ hover₀ => ?_
  rw [hph] at hph₀
  cases hph₀
  rw [hover] at hover₀
  cases hover₀

theorem opens (w : World L) (pid : ℕ) : Calm w (w.opens pid) := by
  unfold World.opens
  split
  · next d hcoming hd =>
    exact (Calm.openAlive hd).trans (setLive _ (by rw [procs_openAlive]; exact hcoming) rfl _)
  · exact dies w pid
  · exact refl w

theorem locks (w : World L) (pid : ℕ) : Calm w (w.locks pid) := by
  unfold World.locks
  split
  · next i hwaiting =>
    split
    · exact refl w
    · exact setLive w hwaiting rfl _
  · exact refl w

theorem serves (w : World L) (pid : ℕ) (ok : Bool) : Calm w (w.serves pid ok) := by
  unfold World.serves
  split
  · next i d hup hd =>
    split
    · have hcalm := setDir w hd { d with socket := some pid } w.inodes
      exact hcalm.trans (setLive { w with dir := some { d with socket := some pid } } hup rfl _)
    · exact dies w pid
  · exact dies w pid
  · exact refl w

theorem finishes (w : World L) (pid : ℕ) : Calm w (w.finishes pid) := by
  refine setPhase w pid fun ph _ hover => ?_
  split
  · cases hover
  · exact hover

theorem empty (w : World L) : Calm w { w with dir := none } :=
  ⟨rfl,rfl,fun _ ph h => ⟨ph,h,id⟩,rfl,fun _ => rfl,rfl,rfl,rfl,rfl⟩

end Calm

namespace World.Locked

theorem dies (h : w.Locked) (pid : ℕ) : (w.dies pid).Locked := h.setPhase fun _ _ _ _ hover => by cases hover

theorem opens (h : w.Locked) (pid : ℕ) : (w.opens pid).Locked := by
  unfold World.opens
  split
  · next d hcoming hd =>
    obtain ⟨hlocked,d',hd',halive⟩ := openAlive_spec h hd
    refine hlocked.setPhase fun ph i d'' _ _ hopened hd'' => ?_
    cases hopened
    rw [hd'] at hd''
    cases hd''
    exact halive
  · exact h.dies pid
  · exact h

theorem locks (h : w.Locked) (pid : ℕ) : (w.locks pid).Locked := by
  unfold World.locks
  split
  · next i hwaiting =>
    split
    · exact h
    · refine h.setPhase fun ph j d hph _ hopened hd => ?_
      cases hopened
      exact h pid _ i d hwaiting rfl rfl hd
  · exact h

theorem serves (h : w.Locked) (pid : ℕ) (ok : Bool) : (w.serves pid ok).Locked := by
  unfold World.serves
  split
  · next i d hup hd =>
    split
    · have hlocked : ({ w with dir := some { d with socket := some pid } } : World L).Locked := by
        intro j ph k d' hph hover hopened hd'
        cases hd'
        exact h j ph k d hph hover hopened hd
      refine hlocked.setPhase fun ph j d' hph _ hopened hd' => ?_
      cases hopened
      exact hlocked pid _ i d' hup rfl rfl hd'
    · exact h.dies pid
  · exact h.dies pid
  · exact h

theorem finishes (h : w.Locked) (pid : ℕ) : (w.finishes pid).Locked := by
  refine h.setPhase fun ph i d hph hover hopened hd => ?_
  split at hopened
  · exact h pid _ i d hph rfl hopened hd
  · refine h pid ph i d hph ?_ hopened hd
    split at hover
    · cases hopened
      rfl
    · exact hover

end World.Locked

theorem World.Inv.reboot (h : w.Inv) : (w.act .reboot).Inv := by
  have hover : ∀ (pid : ℕ) (ph : Phase), (w.act .reboot).procs[pid]? = some ph → ph.over_ = true := by
    intro pid ph hph
    obtain ⟨ph₀,-,rfl⟩ := Option.map_eq_some_iff.mp ((List.getElem?_map ..).symm.trans hph)
    rfl
  exact ⟨⟨fun hlive => absurd hover hlive,fun pid ph hph _ => hover pid ph hph,h.dir,
    fun pid ph i d hph hnot => absurd (hover pid ph hph) (by simp [hnot]),h.told,fun _ => hover,
    fun hreleased => (by cases hreleased)⟩,trivial⟩

/-- No supervisor is still on its way to its lock. -/
def World.Settled (w : World L) : Prop := ∀ ph ∈ w.procs, ph.early = false

theorem Calm.tryLock (w : World L) (ok : Bool) : Calm w (w.tryLock ok).1 := by
  unfold World.tryLock
  split
  · exact Calm.refl w
  · next d hd =>
    split
    · exact Calm.openAlive hd
    · exact Calm.refl w

/-- A lock that could be taken proves that no supervisor lives. -/
theorem tryLock_spec (h : w.Base) (ok : Bool) :
    (w.tryLock ok).1.Base ∧ ∀ i, (w.tryLock ok).2 = some (true,i) → w.Settled → w.Quiet ∧ w.record.isSome := by
  unfold World.tryLock
  split
  · exact ⟨h,fun i hi => by cases hi⟩
  · next d hd =>
    split
    · obtain ⟨hlocked,d',hd',halive⟩ := openAlive_spec h.lock hd
      refine ⟨(Calm.openAlive hd).base h hlocked,fun i hi hsettled => ⟨fun pid ph hph => ?_,?_⟩⟩
      · by_contra hover
        have hsame := procs_openAlive w d
        obtain ⟨hfree,-⟩ := Prod.mk.inj (Option.some.inj hi)
        simp only [Bool.not_eq_true',World.held,Bool.or_eq_false_iff,List.any_eq_false] at hfree
        have hmem : ph ∈ (w.openAlive d).1.procs := by
          rw [hsame]
          exact List.mem_of_getElem? hph
        have hnot := hfree.1 ph hmem
        have hearly := hsettled ph (List.mem_of_getElem? hph)
        have hown := fun j hj => hlocked pid ph j d' (by rw [hsame]; exact hph) (Bool.not_eq_true _ ▸ hover) hj hd'
        cases ph with
        | coming => cases hearly
        | waiting j => cases hearly
        | up j =>
          have := halive.symm.trans (hown j rfl)
          simp [Phase.holds,Option.some.inj this] at hnot
        | serving j run =>
          have := halive.symm.trans (hown j rfl)
          simp [Phase.holds,Option.some.inj this] at hnot
        | ended => exact hover rfl
      · rw [Option.isSome_iff_ne_none]
        intro hnone
        rw [h.dir hnone] at hd
        cases hd
    · exact ⟨h,fun i hi => by cases hi⟩

theorem told_of_startOf (h : w.Base) {ok : Bool} (hstart : w.startOf ok = .neverStarted) : w.told = false := by
  unfold World.startOf at hstart
  split at hstart
  · next r hr =>
    by_contra htold
    have := h.told (by simpa using htold) r hr
    simp [this] at hstart
  · cases hstart

end Vibesys.Supervise
