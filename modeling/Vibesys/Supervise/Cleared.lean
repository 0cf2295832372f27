import Vibesys.Supervise.Said

/-!
# A run proved gone can be cleared

`Forget`, and the cleaning up of a spawn that failed, remove the directory of a run and then its record. A daemon
that is cut off before the directory is gone, or after the record is, leaves a run that the next one can judge and
forget. One that is cut off between the two leaves a record of this boot without a directory, which looks like a
directory that was taken away from a supervisor that may live: nothing clears it before the machine is rebooted.
-/
namespace Vibesys.Supervise

open Library
open Lifecycle (DeathProof Start RunPhase)

variable {L : Type*} {w : World L}

/-- The daemon is in a `Forget`, or is cleaning up after a spawn that failed. -/
def Task.clearing : Task L → Bool
  | .cleaning => true
  | .cleaned => true
  | .forgetting _ => true
  | .forgotten _ => true
  | _ => false

def Move.own : Move L → Bool
  | .opens _ => true
  | .locks _ => true
  | .serves _ _ => true
  | .finishes _ => true
  | .dies _ => true
  | _ => false

/-- A record is removed only after its directory. -/
def World.Judged (w : World L) : Prop := w.record = none ∨ w.dir.isSome

def World.Ended (w : World L) : Prop := ∀ ph ∈ w.procs, ph = .ended

theorem Task.Fits.quiet {t : Task L} (h : t.Fits w) (ht : t.clearing = true) : w.Quiet := by
  cases t with
  | cleaning => exact h.1
  | cleaned => exact h.1
  | forgetting lock => exact h
  | forgotten lock => exact h.1
  | _ => cases ht

theorem World.Quiet.own (hq : w.Quiet) {m : Move L} (hm : m.own = true) :
    (w.act m).Quiet ∧ (w.act m).record = w.record ∧ (w.act m).dir = w.dir ∧ (w.act m).task = w.task := by
  have hnot : ∀ (pid : ℕ) (ph : Phase), ph.over_ = false → w.procs[pid]? ≠ some ph := fun pid ph hover hph => by
    rw [hq pid ph hph] at hover
    cases hover
  cases m with
  | opens pid =>
    refine ⟨(Calm.opens w pid).quiet hq,(Calm.opens w pid).record,?_,(Calm.opens w pid).task⟩
    unfold World.act World.step World.opens
    dsimp only
    split
    · next hph _ => exact absurd hph (hnot pid _ rfl)
    · rfl
    · rfl
  | locks pid =>
    refine ⟨(Calm.locks w pid).quiet hq,(Calm.locks w pid).record,?_,(Calm.locks w pid).task⟩
    unfold World.act World.step World.locks
    dsimp only
    split
    · split <;> rfl
    · rfl
  | serves pid ok =>
    refine ⟨(Calm.serves w pid ok).quiet hq,(Calm.serves w pid ok).record,?_,(Calm.serves w pid ok).task⟩
    unfold World.act World.step World.serves
    dsimp only
    split
    · next hph _ => exact absurd hph (hnot pid _ rfl)
    · rfl
    · rfl
  | finishes pid => exact ⟨(Calm.finishes w pid).quiet hq,rfl,rfl,rfl⟩
  | dies pid => exact ⟨(Calm.dies w pid).quiet hq,rfl,rfl,rfl⟩
  | _ => cases hm

theorem World.Quiet.run_own (hq : w.Quiet) {moves : List (Move L)} (hown : ∀ m ∈ moves, m.own = true) :
    (run World.act w moves).Quiet ∧ (run World.act w moves).record = w.record ∧
      (run World.act w moves).dir = w.dir ∧ (run World.act w moves).task = w.task := by
  induction moves generalizing w with
  | nil => exact ⟨hq,rfl,rfl,rfl⟩
  | cons m moves ih =>
    obtain ⟨hnext,hrecord,hdir,htask⟩ := hq.own (hown m List.mem_cons_self)
    obtain ⟨hend,hrecord',hdir',htask'⟩ := ih hnext fun m' hm' => hown m' (List.mem_cons_of_mem m hm')
    exact ⟨hend,hrecord'.trans hrecord,hdir'.trans hdir,htask'.trans htask⟩

namespace World.Ended

theorem of_quiet (hq : w.Quiet) (hexited : ∀ ph ∈ w.procs, ∀ i, ph ≠ .serving i .released) : w.Ended := by
  intro ph hmem
  obtain ⟨pid,hph⟩ := List.mem_iff_getElem?.mp hmem
  have hover := hq pid ph hph
  cases ph with
  | ended => rfl
  | serving i run =>
    cases run with
    | released => exact absurd rfl (hexited _ hmem i)
    | _ => cases hover
  | _ => cases hover

theorem listening (h : w.Ended) : w.listening = none := by
  unfold World.listening
  split
  · rw [Option.filter_eq_none_iff]
    intro pid _ hany
    cases hph : w.procs[pid]? with
    | none =>
      rw [hph] at hany
      cases hany
    | some ph =>
      rw [hph,h ph (List.mem_of_getElem? hph)] at hany
      cases hany
  · rfl

theorem holds (h : w.Ended) (i : ℕ) : w.procs.any (Phase.holds i) = false := by
  rw [List.any_eq_false]
  intro ph hmem
  rw [h ph hmem]
  exact Bool.false_ne_true

theorem tryLock (h : w.Ended) (hdir : w.dir.isSome) (htask : w.task.clearing = false) :
    ∃ w' i, w.tryLock true = (w',some (true,i)) ∧ w'.Ended ∧ w'.dir.isSome := by
  obtain ⟨d,hd⟩ := Option.isSome_iff_exists.mp hdir
  have hfree : ∀ (w' : World L) i, w'.procs = w.procs → w'.task = w.task → w'.held i = false := by
    intro w' i hprocs hsame
    rw [World.held,hprocs,h.holds,hsame,Bool.false_or]
    split
    · next ht => rw [ht] at htask; cases htask
    · next ht => rw [ht] at htask; cases htask
    · rfl
  unfold World.tryLock
  rw [hd]
  dsimp only
  rw [if_pos rfl,hfree _ _ (procs_openAlive w d) (Calm.openAlive hd).task]
  refine ⟨_,_,rfl,?_,?_⟩
  · unfold World.Ended
    rw [procs_openAlive]
    exact h
  · unfold World.openAlive
    split
    · exact hdir
    · rfl

end World.Ended

def World.probed (w : World L) (connects launch : Bool) : World L × Option (Answer L) :=
  match w.step (.probe true connects launch true true) with
  | (w,some a) => (w,some a)
  | (w,none) => w.step (.test true true)

def World.cleared (w : World L) (proof : DeathProof) : World L × Option (Answer L) :=
  (run World.act w [.forget proof true true,.removeAll true]).step (.removeRecord true)

namespace World.Ended

/-- A daemon finds a run whose supervisors have ended dead, or finds none. -/
theorem probed (h : w.Ended) (hjudged : w.Judged) (hidle : w.task = .idle) (connects launch : Bool) :
    ((w.probed connects launch).2 = some (.run .none_) ∨
        ∃ start l, (w.probed connects launch).2 = some (.run (.dead .lockFree start l))) ∧
      (w.probed connects launch).1.Ended ∧ (w.probed connects launch).1.task = .idle := by
  have hstep : w.step (.probe true connects launch true true) = w.probe true connects launch true true := by
    simp only [World.step,hidle,World.call]
  unfold World.probed
  rw [hstep,World.probe]
  cases hd : w.dir with
  | none =>
    have hrecord : w.record = none := hjudged.resolve_right (by simp [hd])
    dsimp only
    rw [if_pos rfl,World.noDirectory,if_pos rfl,hrecord]
    exact ⟨Or.inl rfl,h,rfl⟩
  | some d =>
    dsimp only
    rw [h.listening]
    generalize (if launch = true then d.launch else none) = l
    have hprobing : ({ w with task := .probing l } : World L).Ended := h
    obtain ⟨w',i,heq,hended,-⟩ := hprobing.tryLock (by rw [hd]; rfl) rfl
    have htest : ({ w with task := .probing l } : World L).step (.test true true) =
        ({ w' with proved := true } : World L).return_ (.run (.dead .lockFree (w'.startOf true) l)) := by
      change World.test _ l true true = _
      rw [World.test,heq]
    simp only [World.goOn,htest]
    exact ⟨Or.inr ⟨_,_,rfl⟩,hended,rfl⟩

theorem cleared (h : w.Ended) (hidle : w.task = .idle) {proof : DeathProof} (hproof : proof.Valid = true) :
    (w.cleared proof).2 = some .forgot ∧ (w.cleared proof).1.Bare := by
  have hstep : w.act (.forget proof true true) = (w.forget proof true true).1 := by
    simp only [World.act,World.step,hidle,World.call]
  have hforget : ∃ lock, (w.forget proof true true).1.task = .forgetting lock := by
    unfold World.forget
    rw [hproof]
    split
    · next hno => cases hno
    · split
      · next hsome =>
        simp only [Bool.true_and,Bool.and_eq_true] at hsome
        obtain ⟨w',i,heq,-,-⟩ := h.tryLock hsome.1 (by rw [hidle]; rfl)
        rw [heq]
        exact ⟨_,rfl⟩
      · exact ⟨_,rfl⟩
  obtain ⟨lock,htask⟩ := hforget
  unfold World.cleared
  rw [run_cons,hstep,run_cons,run_nil]
  simp only [World.act,World.step,World.call,htask,World.goOn,World.return_,if_true]
  exact ⟨trivial,rfl,rfl⟩

end World.Ended

/-- A daemon crashes in a `Forget` or in the cleaning up of a failed spawn. When it did not crash between the removal
of the directory and that of the record, and no released supervisor is still on its way out, then the next
daemon finds the run dead or finds none, and its own `Forget` leaves nothing of it. -/
theorem cleared_after_crash {before between : List (Move L)} (h : Along World.act Meets {} before)
    (hclearing : (run World.act {} before).task.clearing = true) (hjudged : (run World.act {} before).Judged)
    (hown : ∀ m ∈ between, m.own = true)
    (hexited : ∀ ph ∈ (run World.act {} (before ++ .crash :: between)).procs, ∀ i, ph ≠ .serving i .released)
    (connects launch : Bool) :
    let found := (run World.act {} (before ++ .crash :: between ++ [.daemon])).probed connects launch
    (found.2 = some (.run .none_) ∨ ∃ start l, found.2 = some (.run (.dead .lockFree start l))) ∧
      ∀ proof : DeathProof, proof.Valid = true →
        (found.1.cleared proof).2 = some .forgot ∧ (found.1.cleared proof).1.Bare := by
  have hquiet := (Along.inv World.Inv.start h).task.quiet hclearing
  rw [run_append _ _ (before ++ _),run_append _ _ before,run_cons World.act _ .crash between]
  rw [run_append,run_cons] at hexited
  generalize run World.act {} before = w at hquiet hjudged hexited ⊢
  have hcrashed : (w.act .crash).Quiet := hquiet
  obtain ⟨hq,hrecord,hdir,htask⟩ := hcrashed.run_own hown
  have hended := World.Ended.of_quiet hq hexited
  generalize run World.act (w.act .crash) between = w₁ at hrecord hdir htask hended ⊢
  have hdaemon : run World.act w₁ [.daemon] = { w₁ with task := .idle } := by
    have hdown : w₁.task = .down := htask
    simp only [run_cons,run_nil,World.act,World.step,hdown]
  rw [hdaemon]
  have hfits : ({ w₁ with task := .idle } : World L).Judged := by
    unfold World.Judged
    rw [hrecord,hdir]
    exact hjudged
  have hidle : ({ w₁ with task := .idle } : World L).Ended := hended
  obtain ⟨hfound,hended',hidle'⟩ := hidle.probed hfits rfl connects launch
  exact ⟨hfound,fun proof hproof => hended'.cleared hidle' hproof⟩

/-- The run is proved dead and the daemon crashes in its `Forget` with some files of the directory removed. -/
theorem cleared_after_crash_halfway :
    let before := spawned ++ [.dies 0,.probe true true true true true,.test true true,.forget .lockFree true true,
      .removeSome true true false]
    let found := (run World.act {} (before ++ .crash :: [] ++ [.daemon])).probed true true
    (found.2 = some (.run .none_) ∨ ∃ start l, found.2 = some (.run (.dead .lockFree start l))) ∧
      (found.1.cleared .lockFree).2 = some .forgot := by
  intro before found
  have hmeets : Along World.act Meets {} before := by decide +kernel
  have hclearing : (run World.act {} before).task.clearing = true := by decide +kernel
  have hjudged : (run World.act {} before).Judged := Or.inr (by decide +kernel)
  have hprocs : (run World.act {} (before ++ .crash :: [])).procs = [.ended] := by decide +kernel
  have hexited : ∀ ph ∈ (run World.act {} (before ++ .crash :: [])).procs, ∀ i, ph ≠ .serving i .released := by
    rw [hprocs]
    intro ph hph i heq
    rw [List.mem_singleton.mp hph] at heq
    cases heq
  obtain ⟨hfound,hforget⟩ := cleared_after_crash hmeets hclearing hjudged (by simp) hexited true true
  exact ⟨hfound,(hforget .lockFree rfl).1⟩

/-- With the directory removed and the record not yet, the next daemon cannot tell. -/
theorem crash_between_removals :
    ((run World.act {} (spawned ++ [.dies 0,.probe true true true true true,.test true true,.forget .lockFree true true,
      .removeAll true,.crash,.daemon])).probed true true).2 = some (.run (.unknown (some ()))) := by
  decide +kernel

end Vibesys.Supervise
