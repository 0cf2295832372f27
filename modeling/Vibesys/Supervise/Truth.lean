import Vibesys.Supervise.Invariant

/-!
# What is said of a run is true

Every call of the daemon keeps what a live supervisor keeps in place, and what it answers is true, as long as a
job is spawned only when nothing is left of a run of it. `Spawn` writes the record before it finds out that the
job has a run: it takes the mark of a start away that way, and the run is then said to have never started.
-/
namespace Vibesys.Supervise

open Library
open Lifecycle (DeathProof Start RunPhase)

variable {L : Type*} {w w' : World L}

/-- What an answer says is so in the world it is given in. -/
def Truthful (w : World L) : Answer L → Prop
  | .run (.dead _ start _) => w.Quiet ∧ (start = .neverStarted → w.told = false)
  | .gone _ start => w.Quiet ∧ (start = some .neverStarted → w.told = false)
  | .spawnFailed => w.record = none ∧ w.dir = none
  | .forgot => w.Quiet ∧ w.record = none ∧ w.dir = none
  | _ => True

/-- A step of a call leaves the world in order, and what it answers is true. -/
def Sound (x : World L × Option (Answer L)) : Prop := x.1.Inv ∧ ∀ a, x.2 = some a → Truthful x.1 a

/-- A job is spawned only when nothing is left of a run of it. The directory of a spawn can be made, and what a
failed spawn leaves can be removed. A lock is not looked at while a supervisor is on its way to it. A supervisor
is let go only in a run that is still recorded, by its own handle. A run is forgotten only when it was said to
be gone. -/
def Meets (w : World L) : Move L → Prop
  | .spawn _ _ => w.record = none ∧ w.dir = none
  | .mkdir ok => ok = true
  | .removeAll ok => w.task = .cleaning → ok = true
  | .removeRecord ok => w.task = .cleaned → ok = true
  | .test _ _ => w.Settled
  | .look _ _ _ => w.Settled
  | .prove _ _ => w.Settled
  | .release pid _ _ => pid+1 = w.procs.length ∧ w.record.isSome
  | .forget _ _ _ => w.proved = true
  | _ => True

namespace World.Base

theorem setTask (h : w.Base) (t : Task L) : ({ w with task := t } : World L).Base :=
  ⟨h.live,h.only,h.dir,h.lock,h.told,h.proved,h.released⟩

theorem returns (h : w.Base) {a : Answer L} (ha : Truthful { w with task := .idle } a) : Sound (w.return_ a) :=
  ⟨⟨h.setTask _,trivial⟩,fun a' ha' => by cases ha'; exact ha⟩

theorem goesOn (h : w.Base) {t : Task L} (ht : t.Fits w) : Sound (w.goOn t) :=
  ⟨⟨h.setTask t,by cases t <;> exact ht⟩,fun a' ha' => by cases ha'⟩

theorem quiet_of_none (h : w.Base) (hr : w.record = none) : w.Quiet := by
  by_contra hq
  obtain ⟨r,hsome,-⟩ := h.live hq
  rw [hr] at hsome
  cases hsome

theorem setDir (h : w.Base) (hq : w.Quiet) {d : Option (Dir L)} (hd : w.record = none → d = none) :
    ({ w with dir := d } : World L).Base :=
  ⟨h.live,h.only,hd,fun pid ph i d hph hover => absurd (hq pid ph hph) (by simp [hover]),h.told,h.proved,h.released⟩

theorem spawn (h : w.Base) (hr : w.record = none) (hd : w.dir = none) (l : L) (ok : Bool) : Sound (w.spawn l ok) := by
  have hq := h.quiet_of_none hr
  have hrun : w.hasRun = false := by simp [World.hasRun,hr,hd]
  have hreleased : w.released = false := by
    by_contra hrel
    have := (h.released (by simpa using hrel)).2
    rw [hr] at this
    cases this
  unfold World.spawn
  rw [hrun]
  split
  · have hfresh : ({ w with record := some ⟨w.boot,l,false⟩, told := false, proved := false } : World L).Fresh :=
      ⟨hq,⟨_,rfl,rfl⟩,rfl,hreleased⟩
    have hbase : ({ w with record := some ⟨w.boot,l,false⟩, told := false, proved := false } : World L).Base :=
      ⟨fun _ => hfresh.2.1,h.only,fun hnone => (by cases hnone),h.lock,fun htold => (by cases htold),
        fun hproved => (by cases hproved),fun hrel => absurd (hreleased.symm.trans hrel) (by simp)⟩
    exact hbase.goesOn ⟨hfresh,hd⟩
  · exact h.returns ⟨hr,hd⟩

theorem mkdir (h : w.Base) {l : L} (hf : w.Fresh) (hd : w.dir = none) : Sound (w.mkdir l true) := by
  obtain ⟨hq,⟨r,hr,hboot⟩,-,hreleased⟩ := hf
  have hbase : ({ w with dir := some {}, told := false, proved := false } : World L).Base :=
    ⟨fun _ => ⟨r,hr,hboot⟩,h.only,fun hnone => absurd (hr.symm.trans hnone) (by simp),
      fun pid ph i d hph hover => absurd (hq pid ph hph) (by simp [hover]),fun htold => (by cases htold),
      fun hproved => (by cases hproved),h.released⟩
  unfold World.mkdir
  rw [hd]
  exact hbase.goesOn ⟨hq,⟨r,hr,hboot⟩,rfl,hreleased⟩

theorem writeLaunch (h : w.Base) (hf : w.Fresh) (l : L) (ok : Bool) : Sound (w.writeLaunch l ok) := by
  have hclean : (Task.cleaning : Task L).Fits w := ⟨hf.1,hf.2.2.2⟩
  obtain ⟨r,hr,-⟩ := hf.2.1
  unfold World.writeLaunch
  split
  · split
    · exact (h.setDir hf.1 fun hnone => absurd (hr.symm.trans hnone) (by simp)).goesOn hf
    · exact h.goesOn hclean
  · exact h.goesOn hclean

theorem startProcess (h : w.Base) (hf : w.Fresh) (ok : Bool) : Sound (w.startProcess ok) := by
  obtain ⟨hq,hrecorded,hproved,hreleased⟩ := hf
  unfold World.startProcess
  split
  · have hold : ∀ (pid : ℕ) (ph : Phase), (w.procs ++ [Phase.coming])[pid]? = some ph →
        ph.over_ = true ∨ pid = w.procs.length ∧ ph = .coming := by
      intro pid ph hph
      rcases Nat.lt_trichotomy pid w.procs.length with hlt | rfl | hgt
      · rw [List.getElem?_append_left hlt] at hph
        exact Or.inl (hq pid ph hph)
      · rw [List.getElem?_append_right (Nat.le_refl _),Nat.sub_self] at hph
        cases hph
        exact Or.inr ⟨rfl,rfl⟩
      · rw [List.getElem?_eq_none (by rw [List.length_append,List.length_singleton]; omega)] at hph
        cases hph
    have hlength : w.procs.length+1 = (w.procs ++ [Phase.coming]).length := by
      rw [List.length_append,List.length_singleton]
    have hbase : ({ w with procs := w.procs ++ [Phase.coming] } : World L).Base := by
      refine ⟨fun _ => hrecorded,fun pid ph hph hpid => ?_,h.dir,fun pid ph i d hph hover hopened hd => ?_,h.told,
        fun hp => absurd (hproved.symm.trans hp) (by simp),fun hr => absurd (hreleased.symm.trans hr) (by simp)⟩
      · rcases hold pid ph hph with hover | ⟨rfl,-⟩
        · exact hover
        · exact absurd hlength hpid
      · rcases hold pid ph hph with hover' | ⟨-,rfl⟩
        · simp [hover] at hover'
        · cases hopened
    exact hbase.goesOn ⟨hlength,hrecorded,hproved,hreleased⟩
  · exact h.goesOn ⟨hq,hreleased⟩

theorem dies (h : w.Base) (pid : ℕ) : (w.dies pid).Base := (Calm.dies w pid).base h (h.lock.dies pid)

theorem connect (h : w.Base) {pid : ℕ} (hpid : pid+1 = w.procs.length) (hreleased : w.released = false) (ok : Bool) :
    Sound (w.connect pid ok) := by
  unfold World.connect
  split
  · exact h.returns trivial
  · refine (h.dies pid).goesOn ⟨fun j ph hph => ?_,hreleased⟩
    rcases procs_setPhase hph with ⟨-,_,_,rfl⟩ | ⟨hj,hph⟩
    · rfl
    · exact h.only j ph hph (by omega)

theorem removeSome (h : w.Base) (hq : w.Quiet) (launch alive socket : Bool) : (w.removeSome launch alive socket).Base :=
  h.setDir hq fun hnone => by rw [h.dir hnone]; rfl

theorem cleaned (h : w.Base) (hq : w.Quiet) (hreleased : w.released = false) (hd : w.dir = none) :
    Sound (({ w with record := none } : World L).return_ .spawnFailed) := by
  have hbase : ({ w with record := none } : World L).Base :=
    ⟨fun hlive => absurd hq hlive,h.only,fun _ => hd,h.lock,fun _ r hr => (by cases hr),h.proved,
      fun hr => absurd (hreleased.symm.trans hr) (by simp)⟩
  exact hbase.returns ⟨rfl,hd⟩

theorem forgotten (h : w.Base) (hq : w.Quiet) (hd : w.dir = none) :
    Sound (({ w with record := none, released := false } : World L).return_ .forgot) := by
  have hbase : ({ w with record := none, released := false } : World L).Base :=
    ⟨fun hlive => absurd hq hlive,h.only,fun _ => hd,h.lock,fun _ r hr => (by cases hr),h.proved,fun hr => (by cases hr)⟩
  exact hbase.returns ⟨hq,rfl,hd⟩

theorem setProved (h : w.Base) (hq : w.Quiet) : ({ w with proved := true } : World L).Base :=
  ⟨h.live,h.only,h.dir,h.lock,h.told,fun _ => hq,h.released⟩

theorem noDirectory (h : w.Base) (record boot : Bool) : Sound (w.noDirectory record boot) := by
  unfold World.noDirectory
  split
  · split
    · exact h.returns trivial
    · next r hr =>
      split
      · exact h.returns trivial
      · split
        · next hboot =>
          have hq : w.Quiet := by
            by_contra hlive
            obtain ⟨r',hr',hsame⟩ := h.live hlive
            rw [hr] at hr'
            cases hr'
            exact hboot hsame
          exact (h.setProved hq).returns ⟨hq,told_of_startOf h⟩
        · exact h.returns trivial
  · exact h.returns trivial

theorem probe (h : w.Base) (stat connects launch record boot : Bool) :
    Sound (w.probe stat connects launch record boot) := by
  unfold World.probe
  split
  · split
    · exact h.noDirectory record boot
    · exact h.returns trivial
  · dsimp only
    split
    · exact h.returns trivial
    · exact h.returns trivial
    · exact h.goesOn trivial

theorem test (h : w.Base) (hsettled : w.Settled) (launch : Option L) (lock record : Bool) :
    Sound (w.test launch lock record) := by
  have hcalm := Calm.tryLock w lock
  obtain ⟨hbase,hfree⟩ := tryLock_spec h lock
  unfold World.test
  split
  · next w' heq =>
    rw [heq] at hbase
    exact hbase.returns trivial
  · next w' i heq =>
    rw [heq] at hbase
    exact hbase.returns trivial
  · next w' i heq =>
    have hq := hcalm.quiet (hfree i (by rw [heq]) hsettled).1
    rw [heq] at hbase hq
    exact (hbase.setProved hq).returns ⟨hq,told_of_startOf hbase⟩

theorem look (h : w.Base) (hsettled : w.Settled) (pid : ℕ) (lock record : Bool) : Sound (w.look pid lock record) := by
  have hcalm := Calm.tryLock w lock
  obtain ⟨hbase,hfree⟩ := tryLock_spec h lock
  unfold World.look
  split
  · next w' i heq =>
    have hq := hcalm.quiet (hfree i (by rw [heq]) hsettled).1
    rw [heq] at hbase hq
    have htold : w'.startOf record = .neverStarted → w'.told = false := told_of_startOf hbase
    exact (hbase.setProved hq).returns ⟨hq,fun hstart => htold (Option.some.inj hstart)⟩
  · next w' x hx heq =>
    rw [heq] at hbase
    exact hbase.goesOn trivial

theorem mark (h : w.Base) (pid : ℕ) (ok : Bool) : Sound (w.mark pid ok) := by
  unfold World.mark
  split
  · next r hr =>
    split
    · have hbase : ({ w with record := some { r with sent := true } } : World L).Base := by
        refine ⟨fun hlive => ?_,h.only,fun hnone => (by cases hnone),h.lock,fun _ r' hr' => (by cases hr'; rfl),h.proved,
          fun hrel => ⟨(h.released hrel).1,rfl⟩⟩
        obtain ⟨r',hr',hboot⟩ := h.live hlive
        rw [hr] at hr'
        cases hr'
        exact ⟨_,rfl,hboot⟩
      exact hbase.goesOn fun r' hr' => (by cases hr'; rfl)
    · exact h.returns trivial
  · exact h.returns trivial

theorem replied (h : w.Base) (release : Bool) (reply : Reply) : Sound (w.replied release reply) := by
  cases reply with
  | ok => exact h.returns trivial
  | gone => exact h.goesOn trivial
  | failed => exact h.returns trivial

theorem asked (h : w.Base) {pid : ℕ} {f : Phase → Phase} (hover : ∀ ph, ph.over_ = true → f ph = ph)
    (hopened : ∀ ph, (f ph).opened = ph.opened) : (w.setPhase pid f).Base := by
  refine (Calm.setPhase w pid fun ph _ ho => by rw [hover ph ho]; exact ho).base h
    (h.lock.setPhase fun ph i d hph hlive hi hd => ?_)
  refine h.lock pid ph i d hph ?_ (by rw [← hopened]; exact hi) hd
  by_contra ho
  rw [hover ph (by simpa using ho)] at hlive
  exact ho hlive

theorem send (h : w.Base) (hsent : ∀ r, w.record = some r → r.sent = true) (pid : ℕ) (delivered : Bool) (reply : Reply) :
    Sound (w.send pid delivered reply) := by
  have htold : ({ w with told := true } : World L).Base :=
    ⟨h.live,h.only,h.dir,h.lock,fun _ => hsent,h.proved,h.released⟩
  unfold World.send
  extract_lets w₁ w₂
  have h₂ : w₂.Base := by
    simp only [w₂]
    split
    · refine htold.asked (fun ph ho => ?_) fun ph => ?_
      · split
        · cases ho
        · rfl
      · split <;> rfl
    · exact htold
  exact h₂.replied false reply

theorem release (h : w.Base) {pid : ℕ} (hpid : pid+1 = w.procs.length) (hrecord : w.record.isSome) (delivered : Bool)
    (reply : Reply) : Sound (w.release pid delivered reply) := by
  unfold World.release
  extract_lets w₁
  have h₁ : w₁.Base ∧ w₁.procs.length = w.procs.length ∧ w₁.record = w.record := by
    simp only [w₁]
    split
    · refine ⟨h.asked (fun ph ho => ?_) fun ph => ?_,List.length_modify ..,rfl⟩
      · unfold World.letGo
        split
        · cases ho
        · cases ho
        · rfl
      · unfold World.letGo
        split <;> rfl
    · exact ⟨h,rfl,rfl⟩
  clear_value w₁
  obtain ⟨hbase,hlength,hsame⟩ := h₁
  split
  · next i hphase =>
    have hq : w₁.Quiet := fun j ph hph => by
      by_cases hj : j = pid
      · subst hj
        rw [hphase] at hph
        cases hph
        rfl
      · exact hbase.only j ph hph (by omega)
    have hnext : ({ w₁ with released := true, proved := true } : World L).Base :=
      ⟨hbase.live,hbase.only,hbase.dir,hbase.lock,hbase.told,fun _ => hq,fun _ => ⟨hq,by rw [hsame]; exact hrecord⟩⟩
    exact hnext.returns trivial
  · exact hbase.returns trivial
  · exact hbase.replied true _

theorem prove (h : w.Base) (hsettled : w.Settled) (release lock record : Bool) : Sound (w.prove release lock record) := by
  unfold World.prove
  split
  · next hrel => exact h.returns ⟨(h.released hrel).1,fun hstart => (by cases hstart)⟩
  · have hcalm := Calm.tryLock w lock
    obtain ⟨hbase,hfree⟩ := tryLock_spec h lock
    split
    · next w' i heq =>
      obtain ⟨hquiet,hrecord⟩ := hfree i (by rw [heq]) hsettled
      have hq := hcalm.quiet hquiet
      have hr : w'.record.isSome := by
        have := hcalm.record
        rw [heq] at this
        rw [this]
        exact hrecord
      rw [heq] at hbase hq
      have hnext : ({ w' with released := release, proved := true } : World L).Base :=
        ⟨hbase.live,hbase.only,hbase.dir,hbase.lock,hbase.told,fun _ => hq,fun _ => ⟨hq,hr⟩⟩
      have htold : w'.startOf record = .neverStarted → w'.told = false := told_of_startOf hbase
      exact hnext.returns ⟨hq,fun hstart => htold (Option.some.inj hstart)⟩
    · next w' x hx heq =>
      rw [heq] at hbase
      exact hbase.returns trivial

theorem forget (h : w.Base) (hproved : w.proved = true) (proof : DeathProof) (stat lock : Bool) :
    Sound (w.forget proof stat lock) := by
  have hq := h.proved hproved
  unfold World.forget
  split
  · exact h.returns trivial
  · split
    · have hcalm := Calm.tryLock w lock
      have hbase := (tryLock_spec h lock).1
      have hquiet := hcalm.quiet hq
      split
      · next w' i heq =>
        rw [heq] at hbase hquiet
        exact hbase.goesOn hquiet
      · next w' x hx heq =>
        rw [heq] at hbase
        exact hbase.returns trivial
    · exact h.goesOn hq

end World.Base

namespace World.Inv

theorem call (h : w.Inv) {m : Move L} (hm : Meets w m) : Sound (w.call w.task m) := by
  have ht := h.task
  have hb := h.toBase
  generalize htask : w.task = t at ht ⊢
  unfold World.call
  split
  · exact hb.spawn hm.1 hm.2 _ _
  · cases (show _ = true from hm)
    exact hb.mkdir ht.1 ht.2
  · exact hb.writeLaunch ht _ _
  · exact hb.startProcess ht _
  · exact hb.connect ht.1 ht.2.2.2 _
  · exact ⟨⟨hb.removeSome ht.1 _ _ _,htask ▸ ht⟩,fun a ha => by cases ha⟩
  · rw [if_pos (hm htask)]
    exact (hb.setDir ht.1 fun _ => rfl).goesOn ⟨ht.1,ht.2,rfl⟩
  · rw [if_pos (hm htask)]
    exact hb.cleaned ht.1 ht.2.1 ht.2.2
  · exact hb.probe _ _ _ _ _
  · exact hb.test hm _ _ _
  · exact hb.look hm _ _ _
  · exact hb.mark _ _
  · exact hb.send ht _ _ _
  · exact hb.replied false _
  · exact hb.release hm.1 hm.2 _ _
  · exact hb.prove hm _ _ _
  · exact hb.forget hm _ _ _
  · exact ⟨⟨hb.removeSome ht _ _ _,htask ▸ ht⟩,fun a ha => by cases ha⟩
  · split
    · exact (hb.setDir ht fun _ => rfl).goesOn ⟨ht,rfl⟩
    · exact hb.returns trivial
  · split
    · exact hb.forgotten ht.1 ht.2
    · exact hb.returns trivial
  · exact ⟨h,fun a ha => by cases ha⟩

theorem unanswered (h : w.Inv) : Sound (w,none) := ⟨h,fun a ha => by cases ha⟩

theorem step (h : w.Inv) {m : Move L} (hm : Meets w m) : Sound (w.step m) := by
  unfold World.step
  split
  · next pid => exact unanswered ((Calm.opens w pid).inv h (h.lock.opens pid))
  · next pid => exact unanswered ((Calm.locks w pid).inv h (h.lock.locks pid))
  · next pid ok => exact unanswered ((Calm.serves w pid ok).inv h (h.lock.serves pid ok))
  · next pid => exact unanswered ((Calm.finishes w pid).inv h (h.lock.finishes pid))
  · next pid => exact unanswered ((Calm.dies w pid).inv h (h.lock.dies pid))
  · exact unanswered ((Calm.empty w).inv h fun _ _ _ _ _ _ _ hd => by cases hd)
  · exact unanswered h.reboot
  · exact unanswered ⟨⟨h.live,h.only,h.dir,h.lock,h.told,h.proved,fun hr => (by cases hr)⟩,trivial⟩
  · split
    · exact unanswered ⟨h.toBase.setTask _,trivial⟩
    · exact unanswered h
  · exact h.call hm

theorem start : ({} : World L).Inv :=
  ⟨⟨fun hlive => absurd (fun _ _ hph => by cases hph) hlive,fun _ _ hph => (by cases hph),fun _ => rfl,
    fun _ _ _ _ hph => (by cases hph),fun htold => (by cases htold),fun hproved => (by cases hproved),
    fun hreleased => (by cases hreleased)⟩,trivial⟩

end World.Inv

end Vibesys.Supervise
