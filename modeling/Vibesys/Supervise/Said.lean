import Vibesys.Supervise.Truth

/-!
# What was said stays true

A supervisor that is over never comes back. Where nothing is left of a run, nothing is till the next `Spawn`, and
the job is then found as one that was never spawned. So a spawn that failed, and a run that was forgotten, leave
no trace in what is said later.
-/
namespace Vibesys.Supervise

open Library
open Lifecycle (DeathProof Start RunPhase)

variable {L : Type*} {w w' : World L}

/-- A supervisor that is over stays so. -/
def Stays (w w' : World L) : Prop :=
  ∀ (pid : ℕ) (ph : Phase), w.procs[pid]? = some ph → ph.over_ = true →
    ∃ ph', w'.procs[pid]? = some ph' ∧ ph'.over_ = true

namespace Stays

theorem of_procs (h : w'.procs = w.procs) : Stays w w' := fun _ ph hph hover => ⟨ph,h.symm ▸ hph,hover⟩

theorem of_calm (h : Calm w w') : Stays w w' := by
  intro pid ph hph hover
  have hpid : pid < w'.procs.length := by
    rw [h.length]
    exact (List.getElem?_eq_some_iff.mp hph).1
  obtain ⟨ph₀,hph₀,hkeeps⟩ := h.procs pid _ (List.getElem?_eq_getElem hpid)
  rw [hph] at hph₀
  cases hph₀
  exact ⟨_,List.getElem?_eq_getElem hpid,hkeeps hover⟩

theorem of_tryLock {ok : Bool} {x : World L × Option (Bool × ℕ)} (heq : w.tryLock ok = x) : Stays w x.1 := by
  rw [← heq]
  exact of_calm (Calm.tryLock w ok)

theorem startProcess (w : World L) (ok : Bool) : Stays w (w.startProcess ok).1 := by
  unfold World.startProcess
  split
  · intro pid ph hph hover
    have hpid := (List.getElem?_eq_some_iff.mp hph).1
    exact ⟨ph,(List.getElem?_append_left hpid).trans hph,hover⟩
  · exact of_procs rfl

theorem noDirectory (w : World L) (record boot : Bool) : Stays w (w.noDirectory record boot).1 := by
  unfold World.noDirectory
  split
  · split
    · exact of_procs rfl
    · split
      · exact of_procs rfl
      · split <;> exact of_procs rfl
  · exact of_procs rfl

theorem probe (w : World L) (stat connects launch record boot : Bool) :
    Stays w (w.probe stat connects launch record boot).1 := by
  unfold World.probe
  split
  · split
    · exact noDirectory w record boot
    · exact of_procs rfl
  · dsimp only
    split <;> exact of_procs rfl

theorem replied (h : Stays w w') (release : Bool) (reply : Reply) : Stays w (w'.replied release reply).1 := by
  cases reply <;> exact h

theorem asked (w : World L) (pid : ℕ) {f : Phase → Phase} (hf : ∀ ph, ph.over_ = true → f ph = ph) :
    Stays w (w.setPhase pid f) :=
  of_calm (Calm.setPhase w pid fun ph _ hover => by rw [hf ph hover]; exact hover)

theorem send (w : World L) (pid : ℕ) (delivered : Bool) (reply : Reply) : Stays w (w.send pid delivered reply).1 := by
  unfold World.send
  extract_lets w₁ w₂
  have h₂ : Stays w w₂ := by
    simp only [w₂]
    split
    · refine asked w₁ pid fun ph hover => ?_
      split
      · cases hover
      · rfl
    · exact of_procs rfl
  exact h₂.replied false reply

theorem release (w : World L) (pid : ℕ) (delivered : Bool) (reply : Reply) :
    Stays w (w.release pid delivered reply).1 := by
  unfold World.release
  extract_lets w₁
  have h₁ : Stays w w₁ := by
    simp only [w₁]
    split
    · refine asked w pid fun ph hover => ?_
      unfold World.letGo
      split
      · cases hover
      · cases hover
      · rfl
    · exact of_procs rfl
  split
  · exact h₁
  · exact h₁
  · exact h₁.replied true _

theorem call (w : World L) (t : Task L) (m : Move L) : Stays w (w.call t m).1 := by
  unfold World.call
  split
  · refine of_procs ?_
    unfold World.spawn
    split <;> rfl
  · refine of_procs ?_
    unfold World.mkdir
    split
    · rfl
    · split <;> rfl
  · refine of_procs ?_
    unfold World.writeLaunch
    split
    · split <;> rfl
    · rfl
  · exact startProcess w _
  · unfold World.connect
    split
    · exact of_procs rfl
    · change Stays w (w.dies _)
      exact of_calm (Calm.dies w _)
  · exact of_procs rfl
  · split <;> exact of_procs rfl
  · split <;> exact of_procs rfl
  · exact probe w _ _ _ _ _
  · unfold World.test
    split <;> next heq => exact of_tryLock heq
  · unfold World.look
    split <;> next heq => exact of_tryLock heq
  · refine of_procs ?_
    unfold World.mark
    split
    · split <;> rfl
    · rfl
  · exact send w _ _ _
  · exact (of_procs rfl : Stays w w).replied false _
  · exact release w _ _ _
  · unfold World.prove
    split
    · exact of_procs rfl
    · split <;> next heq => exact of_tryLock heq
  · unfold World.forget
    split
    · exact of_procs rfl
    · split
      · split <;> next heq => exact of_tryLock heq
      · exact of_procs rfl
  · exact of_procs rfl
  · split <;> exact of_procs rfl
  · split <;> exact of_procs rfl
  · exact of_procs rfl

theorem step (w : World L) (m : Move L) : Stays w (w.step m).1 := by
  unfold World.step
  split
  · exact of_calm (Calm.opens w _)
  · exact of_calm (Calm.locks w _)
  · exact of_calm (Calm.serves w _ _)
  · exact of_calm (Calm.finishes w _)
  · exact of_calm (Calm.dies w _)
  · exact of_procs rfl
  · intro pid ph hph _
    refine ⟨.ended,?_,rfl⟩
    rw [List.getElem?_map,hph]
    rfl
  · exact of_procs rfl
  · split <;> exact of_procs rfl
  · exact call w _ _

end Stays

/-- No supervisor of a quiet run comes up any more, whatever happens. -/
theorem over_forever (hq : w.Quiet) {pid : ℕ} (hpid : pid < w.procs.length) (moves : List (Move L)) :
    ∃ ph, (run World.act w moves).procs[pid]? = some ph ∧ ph.over_ = true := by
  have hph := List.getElem?_eq_getElem hpid
  refine run_invariant (I := fun w : World L => ∃ ph : Phase, w.procs[pid]? = some ph ∧ ph.over_ = true) ?_ ⟨_,hph,hq pid _ hph⟩ moves
  rintro w m ⟨ph,hph,hover⟩
  exact Stays.step w m pid ph hph hover

def World.Bare (w : World L) : Prop := w.record = none ∧ w.dir = none

namespace World.Bare

theorem of_calm (h : w.Bare) (hcalm : Calm w w') : w'.Bare := ⟨hcalm.record.trans h.1,hcalm.dir h.2⟩

theorem tryLock (h : w.Bare) (ok : Bool) : w.tryLock ok = (w,none) := by
  unfold World.tryLock
  rw [h.2]

theorem replied (h : w.Bare) (release : Bool) (reply : Reply) : (w.replied release reply).1.Bare := by
  cases reply <;> exact h

theorem probe (h : w.Bare) (stat connects launch record boot : Bool) :
    (w.probe stat connects launch record boot).2 = (({} : World L).probe stat connects launch record boot).2 ∧
      (w.probe stat connects launch record boot).1.Bare := by
  unfold World.probe World.noDirectory
  rw [h.1,h.2]
  cases stat <;> cases record <;> exact ⟨rfl,h⟩

example : (({} : World Unit).probe true true true true true).2 = some (.run .none_) := rfl

theorem release (h : w.Bare) (pid : ℕ) (delivered : Bool) (reply : Reply) : (w.release pid delivered reply).1.Bare := by
  unfold World.release
  extract_lets w₁
  have h₁ : w₁.Bare := by
    simp only [w₁]
    split <;> exact h
  split
  · exact h₁
  · exact h₁
  · exact h₁.replied true _

theorem send (h : w.Bare) (pid : ℕ) (delivered : Bool) (reply : Reply) : (w.send pid delivered reply).1.Bare := by
  unfold World.send
  extract_lets w₁ w₂
  have h₂ : w₂.Bare := by
    simp only [w₂]
    split <;> exact h
  exact h₂.replied false reply

/-- Only a `Spawn` leaves something of a run, and its directory is made only after its record was. -/
theorem call (h : w.Bare) (ht : w.task.Fits w) {m : Move L} (hm : ∀ l ok, m ≠ .spawn l ok) :
    (w.call w.task m).1.Bare := by
  generalize htask : w.task = t at ht ⊢
  unfold World.call
  split
  · exact absurd rfl (hm _ _)
  · obtain ⟨⟨-,⟨r,hr,-⟩,-⟩,-⟩ := ht
    rw [h.1] at hr
    cases hr
  · unfold World.writeLaunch
    rw [h.2]
    exact h
  · unfold World.startProcess
    split <;> exact h
  · unfold World.connect
    split <;> exact h
  · exact ⟨h.1,by rw [World.removeSome,h.2]; rfl⟩
  · split <;> exact ⟨h.1,by simp [World.goOn,h.2]⟩
  · split <;> exact ⟨by simp [World.return_,h.1],h.2⟩
  · exact (h.probe _ _ _ _ _).2
  · unfold World.test
    rw [h.tryLock]
    exact h
  · unfold World.look
    rw [h.tryLock]
    exact h
  · unfold World.mark
    rw [h.1]
    exact h
  · exact h.send _ _ _
  · exact h.replied false _
  · exact h.release _ _ _
  · unfold World.prove
    rw [h.tryLock]
    split <;> exact h
  · unfold World.forget
    rw [h.tryLock]
    split
    · exact h
    · split <;> exact h
  · exact ⟨h.1,by rw [World.removeSome,h.2]; rfl⟩
  · split
    · exact ⟨h.1,rfl⟩
    · exact h
  · split
    · exact ⟨rfl,h.2⟩
    · exact h
  · exact h

theorem act (h : w.Bare) (hi : w.Inv) {m : Move L} (hm : ∀ l ok, m ≠ .spawn l ok) : (w.act m).Bare := by
  unfold World.act World.step
  split
  · exact h.of_calm (Calm.opens w _)
  · exact h.of_calm (Calm.locks w _)
  · exact h.of_calm (Calm.serves w _ _)
  · exact h.of_calm (Calm.finishes w _)
  · exact h.of_calm (Calm.dies w _)
  · exact ⟨h.1,rfl⟩
  · exact h
  · exact h
  · split <;> exact h
  · exact h.call hi.task hm

end World.Bare

theorem Along.inv {moves : List (Move L)} (hw : w.Inv) (h : Along World.act Meets w moves) : (run World.act w moves).Inv :=
  Along.invariant (fun _ _ hi hm => (hi.step hm).1) hw h

theorem bare_until_spawn (hb : w.Bare) (hi : w.Inv) {moves : List (Move L)} (h : Along World.act Meets w moves)
    (hspawn : ∀ l ok, .spawn l ok ∉ moves) : (run World.act w moves).Bare := by
  have hmoves : Along World.act (fun _ m => ∀ l ok, m ≠ .spawn l ok) w moves := by
    refine along_of_mem (fun m hm l ok heq => ?_) w
    subst heq
    exact hspawn l ok hm
  refine (Along.invariant (I := fun w => w.Inv ∧ w.Bare) ?_ ⟨hi,hb⟩ (h.and hmoves)).2
  rintro w m ⟨hi,hb⟩ ⟨hm,hnot⟩
  exact ⟨(hi.step hm).1,hb.act hi hnot⟩

/-- In every run that meets the condition, each answer is true where it is given. After a spawn that failed and
after a run was forgotten, the job is found as one that was never spawned, till it is spawned again. No supervisor
of a forgotten run comes up any more. -/
theorem said_is_true {moves : List (Move L)} (h : Along World.act Meets {} moves) :
    Along World.act (fun w m => ∀ a, (w.step m).2 = some a → Truthful (w.act m) a) {} moves ∧
      ∀ before m after, moves = before ++ m :: after →
        (∀ a, ((run World.act {} before).step m).2 = some a → a = .spawnFailed ∨ a = .forgot →
          (∀ l ok, .spawn l ok ∉ after) → ∀ stat connects launch record boot,
            ((run World.act {} moves).probe stat connects launch record boot).2 =
              (({} : World L).probe stat connects launch record boot).2) ∧
        (((run World.act {} before).step m).2 = some .forgot → ∀ pid < ((run World.act {} before).act m).procs.length,
          ∃ ph, (run World.act {} moves).procs[pid]? = some ph ∧ ph.over_ = true) := by
  refine ⟨Along.ensures (fun w m hi hm => hi.step hm) World.Inv.start h,?_⟩
  rintro before m after rfl
  obtain ⟨hm,hafter⟩ := h.right
  have hi := Along.inv World.Inv.start h.of_append
  obtain ⟨hnext,htrue⟩ := hi.step hm
  rw [run_append,run_cons]
  refine ⟨fun a ha hkind hspawn => ?_,fun hforgot pid hpid => ?_⟩
  · have hbare : ((run World.act {} before).act m).Bare := by
      rcases hkind with rfl | rfl
      · exact htrue _ ha
      · exact (htrue _ ha).2
    exact fun stat connects launch record boot =>
      ((bare_until_spawn hbare hnext hafter hspawn).probe stat connects launch record boot).1
  · exact over_forever (htrue _ hforgot).1 hpid after

instance (w : World L) : Decidable w.Settled := inferInstanceAs (Decidable (∀ ph ∈ w.procs, _))

instance [DecidableEq L] (w : World L) : (m : Move L) → Decidable (Meets w m)
  | .spawn _ _ => inferInstanceAs (Decidable (_ ∧ _))
  | .mkdir _ => inferInstanceAs (Decidable (_ = _))
  | .removeAll _ => inferInstanceAs (Decidable (_ → _))
  | .removeRecord _ => inferInstanceAs (Decidable (_ → _))
  | .test _ _ => inferInstanceAs (Decidable w.Settled)
  | .look _ _ _ => inferInstanceAs (Decidable w.Settled)
  | .prove _ _ => inferInstanceAs (Decidable w.Settled)
  | .release _ _ _ => inferInstanceAs (Decidable (_ ∧ _))
  | .forget _ _ _ => inferInstanceAs (Decidable (_ = _))
  | .opens _ => inferInstanceAs (Decidable True)
  | .locks _ => inferInstanceAs (Decidable True)
  | .serves _ _ => inferInstanceAs (Decidable True)
  | .finishes _ => inferInstanceAs (Decidable True)
  | .dies _ => inferInstanceAs (Decidable True)
  | .empty => inferInstanceAs (Decidable True)
  | .reboot => inferInstanceAs (Decidable True)
  | .crash => inferInstanceAs (Decidable True)
  | .daemon => inferInstanceAs (Decidable True)
  | .writeLaunch _ => inferInstanceAs (Decidable True)
  | .startProcess _ => inferInstanceAs (Decidable True)
  | .connect _ => inferInstanceAs (Decidable True)
  | .removeSome _ _ _ => inferInstanceAs (Decidable True)
  | .probe _ _ _ _ _ => inferInstanceAs (Decidable True)
  | .mark _ => inferInstanceAs (Decidable True)
  | .send _ _ => inferInstanceAs (Decidable True)
  | .ask _ => inferInstanceAs (Decidable True)

/-- A daemon comes up, spawns a supervisor and reaches it. -/
def spawned : List (Move Unit) :=
  [.daemon,.spawn () true,.mkdir true,.writeLaunch true,.startProcess true,.opens 0,.locks 0,.serves 0 true,.connect true]

/-- The run is started, its supervisor dies, and the run is probed and forgotten. -/
def forgotten : List (Move Unit) :=
  spawned ++ [.look 0 true true,.mark true,.send true .ok,.dies 0,.probe true true true true true,.test true true,
    .forget .lockFree true true,.removeAll true,.removeRecord true]

theorem said_is_true_forgotten :
    Along World.act Meets {} forgotten ∧
      ∃ ph, (run World.act {} forgotten).procs[0]? = some ph ∧ ph.over_ = true := by
  have hmeets : Along World.act Meets {} forgotten := by decide +kernel
  have hforgot := ((said_is_true hmeets).2 (spawned ++ [.look 0 true true,.mark true,.send true .ok,.dies 0,
    .probe true true true true true,.test true true,.forget .lockFree true true,.removeAll true]) (.removeRecord true)
    [] rfl).2
  exact ⟨hmeets,hforgot (by decide +kernel) 0 (by decide +kernel)⟩

/-- A job is spawned again while its run goes on. The spawn is refused for the run's directory, but its record is
the new one by then. The supervisor was sent a start, and once it has died the run is said to have never started. -/
theorem refused_spawn_loses_start :
    let running := spawned ++ [.look 0 true true,.mark true,.send true .ok,.spawn () true]
    let w := run World.act ({} : World Unit) (running ++ [.mkdir true,.dies 0,.probe true true true true true])
    ((run World.act {} running).step (.mkdir true)).2 = some .spawnFailed ∧
      (w.step (.test true true)).2 = some (.run (.dead .lockFree .neverStarted (some ()))) ∧
      (w.act (.test true true)).told = true := by
  decide +kernel

end Vibesys.Supervise
