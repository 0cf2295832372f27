import Vibesys.Attached.Output

/-!
# The outcome carries the first cancel

What holds of the supervisor and of every `Attach` in every run, and what a run says about its cancels: which
`Cancel` came first is read off the list of acts, not off the mark.
-/
namespace Vibesys.Attached

open Library Lifecycle

variable {B : Type*} {l : Launch} {w : World B}

namespace World

structure Ok (l : Launch) (w : World B) : Prop where
  sup : w.sup.Ok
  attaches : ∀ a ∈ w.attaches, a.Ok l w.sup

theorem Ok.init : Ok l ({} : World B) := ⟨.init,fun _ h => by cases h⟩

theorem Ok.moves (h : w.Ok l) (act : Act B) : w.sup.Moves (w.step l act).sup := by
  cases act with
  | call c => exact .step h.sup c
  | attach offset => exact .refl _
  | turn i t =>
    unfold step
    dsimp only
    split
    · exact .refl _
    · next a _ => exact Attach.moves_after w.sup a t

theorem Ok.step (h : w.Ok l) (act : Act B) : (w.step l act).Ok l := by
  have hmoves := h.moves act
  cases act with
  | call c => exact ⟨h.sup.step c,fun a ha => (h.attaches a ha).moves hmoves⟩
  | attach offset =>
    refine ⟨h.sup,fun a ha => ?_⟩
    rcases List.mem_append.mp ha with hold | hnew
    · exact h.attaches a hold
    · rw [List.mem_singleton.mp hnew]
      exact .start l w.sup offset
  | turn i t =>
    cases hget : w.attaches[i]? with
    | none =>
      have hstep : w.step l (.turn i t) = w := by simp only [World.step,hget]
      rw [hstep]
      exact h
    | some a =>
      have hstep : w.step l (.turn i t) = ⟨Attach.after w.sup a t,w.attaches.set i (a.turn l w.sup t)⟩ := by
        simp only [World.step,hget,Attach.after]
      rw [hstep] at hmoves ⊢
      constructor
      · dsimp only [Attach.after]
        split
        · exact h.sup.wait _
        · exact h.sup
      · intro b hb
        rcases List.mem_or_eq_of_mem_set hb with hold | rfl
        · exact (h.attaches b hold).moves hmoves
        · exact (h.attaches a (List.mem_of_getElem? hget)).turn h.sup t

theorem Ok.run (l : Launch) (acts : List (Act B)) : (Library.run (World.step l) {} acts).Ok l :=
  run_invariant (fun _ act h => h.step act) .init acts

theorem Ok.run_final (h : w.Ok l) (hset : w.sup.Set) (acts : List (Act B)) :
    (Library.run (World.step l) w acts).sup.outcome = w.sup.outcome := by
  induction acts generalizing w with
  | nil => rfl
  | cons act acts ih =>
    have hmoves := h.moves act
    exact (ih (h.step act) (hmoves.set hset)).trans (hmoves.final hset).2

theorem Ok.run_barred (h : w.Ok l) (hzero : w.sup.started = 0)
    (hwhy : w.sup.cancelAsked = true ∨ w.sup.phase = .released) (acts : List (Act B)) :
    (Library.run (World.step l) w acts).sup.started = 0 := by
  induction acts generalizing w with
  | nil => exact hzero
  | cons act acts ih =>
    obtain ⟨hzero',hwhy'⟩ := (h.moves act).barred hzero hwhy
    exact ih (h.step act) hzero' hwhy'

end World

def Act.Stops : Act B → Prop
  | .call (.Cancel _) => True
  | .call .Release => True
  | _ => False

theorem World.Ok.stops (h : w.Ok l) {act : Act B} (hstops : act.Stops) (hparked : w.sup.phase = .parked) :
    (w.step l act).sup.started = 0 ∧ ((w.step l act).sup.cancelAsked = true ∨ (w.step l act).sup.phase = .released) := by
  have hzero : w.sup.started = 0 := by
    have hle := h.sup.started
    rw [h.sup.idle_of_parked hparked] at hle
    exact Nat.le_zero.mp hle
  cases act with
  | call c =>
    cases c with
    | Cancel reason =>
      simp only [World.step,Supervisor.step,Supervisor.Cancel,hparked]
      split
      · next hwhy =>
        rcases hwhy with hphase | hphase | hasked
        · cases hphase
        · cases hphase
        · exact ⟨hzero,Or.inl hasked⟩
      · exact ⟨hzero,Or.inl rfl⟩
    | Release =>
      simp only [World.step,Supervisor.step,Supervisor.Release,hparked]
      exact ⟨hzero,Or.inr trivial⟩
    | _ => exact absurd hstops id
  | _ => exact absurd hstops id

def Act.cancels : Act B → Option String
  | .call (.Cancel reason) => some reason
  | _ => none

def firstCancel (acts : List (Act B)) : Option String := acts.findSome? Act.cancels

theorem firstCancel_concat (acts : List (Act B)) (act : Act B) :
    firstCancel (acts ++ [act]) = (firstCancel acts).or act.cancels := by
  unfold firstCancel
  rw [List.findSome?_append]
  simp only [List.findSome?_cons,List.findSome?_nil]
  cases act.cancels with
  | none => rfl
  | some reason => rfl

/-- The cancel mark says what the first cancel said. -/
def Marked (s : Supervisor B) (first : Option String) : Prop :=
  s.cancelAsked = first.isSome ∧ s.cancelReason = first.getD ""

theorem Supervisor.step_mark (s : Supervisor B) {c : Call B} (hc : (Act.call c).cancels = none) :
    (s.step l c).cancelAsked = s.cancelAsked ∧ (s.step l c).cancelReason = s.cancelReason := by
  cases c with
  | Cancel reason => cases hc
  | Start =>
    unfold step Start
    dsimp only
    split <;> exact ⟨rfl,rfl⟩
  | Release =>
    unfold step Release
    dsimp only
    split <;> exact ⟨rfl,rfl⟩
  | Close => exact ⟨rfl,rfl⟩
  | execute =>
    unfold step Supervisor.execute
    dsimp only
    split
    · split <;> exact ⟨rfl,rfl⟩
    · exact ⟨rfl,rfl⟩
  | write data ok =>
    unfold step Supervisor.write
    dsimp only
    split
    · split <;> exact ⟨rfl,rfl⟩
    · exact ⟨rfl,rfl⟩
  | record =>
    unfold step
    dsimp only
    split <;> exact ⟨rfl,rfl⟩
  | _ =>
    unfold step
    dsimp only
    split <;> exact ⟨rfl,rfl⟩

/-- While the command has not ended, the mark is that of the first cancel. -/
theorem marked_run (l : Launch) (acts : List (Act B)) :
    (run (World.step l) {} acts).sup.Over ∨ Marked (run (World.step l) {} acts).sup (firstCancel acts) := by
  induction acts using List.reverseRecOn with
  | nil => exact Or.inr ⟨rfl,rfl⟩
  | append_singleton acts act ih =>
    have hok := World.Ok.run l acts
    rw [run_append,run_cons,run_nil,firstCancel_concat]
    generalize run (World.step l) {} acts = w at ih hok ⊢
    rcases ih with hover | hmarked
    · left
      have hgoes := (hok.moves act).phase
      rcases hover with hphase | hphase
      · rw [hphase] at hgoes
        exact hgoes.finished
      · rw [hphase] at hgoes
        exact Or.inr hgoes.released
    · cases act with
      | attach offset =>
        rw [show (Act.attach offset : Act B).cancels = none from rfl,Option.or_none]
        exact Or.inr hmarked
      | turn i t =>
        right
        have hsame : (w.step l (.turn i t)).sup.cancelAsked = w.sup.cancelAsked ∧
            (w.step l (.turn i t)).sup.cancelReason = w.sup.cancelReason := by
          unfold World.step
          dsimp only
          split
          · exact ⟨rfl,rfl⟩
          · dsimp only
            split <;> exact ⟨rfl,rfl⟩
        rw [show (Act.turn i t : Act B).cancels = none from rfl,Option.or_none]
        exact ⟨hsame.1.trans hmarked.1,hsame.2.trans hmarked.2⟩
      | call c =>
        cases hc : (Act.call c).cancels with
        | none =>
          obtain ⟨hasked,hreason⟩ := w.sup.step_mark (l := l) hc
          rw [Option.or_none]
          exact Or.inr ⟨hasked.trans hmarked.1,hreason.trans hmarked.2⟩
        | some reason =>
          cases c with
          | Cancel r =>
            cases hc
            simp only [World.step,Supervisor.step,Supervisor.Cancel]
            split
            · next hwhy =>
              rcases hwhy with hphase | hphase | hasked
              · exact Or.inl (Or.inl hphase)
              · exact Or.inl (Or.inr hphase)
              · right
                cases hfirst : firstCancel acts with
                | none =>
                  rw [hmarked.1,hfirst] at hasked
                  cases hasked
                | some r' =>
                  rw [hfirst] at hmarked
                  exact hmarked
            · next hwhy =>
              right
              cases hfirst : firstCancel acts with
              | none => exact ⟨rfl,rfl⟩
              | some r' =>
                have hasked := hmarked.1
                rw [hfirst] at hasked
                exact absurd (Or.inr (Or.inr hasked)) hwhy
          | _ => cases hc

theorem Supervisor.step_outcome (s : Supervisor B) {c : Call B} (hc : c ≠ .record) :
    (s.step l c).outcome = s.outcome := by
  cases c with
  | record => exact absurd rfl hc
  | Start =>
    unfold step Start
    dsimp only
    split <;> rfl
  | Cancel reason =>
    unfold step Cancel
    dsimp only
    split <;> rfl
  | Release =>
    unfold step Release
    dsimp only
    split <;> rfl
  | Close => rfl
  | execute =>
    unfold step Supervisor.execute
    dsimp only
    split
    · split <;> rfl
    · rfl
  | write data ok =>
    unfold step Supervisor.write
    dsimp only
    split
    · split <;> rfl
    · rfl
  | _ =>
    unfold step
    dsimp only
    split <;> rfl

theorem World.step_outcome (w : World B) {act : Act B} (hact : act ≠ .call .record) :
    (w.step l act).sup.outcome = w.sup.outcome := by
  cases act with
  | attach offset => rfl
  | turn i t =>
    unfold step
    dsimp only
    split
    · rfl
    · dsimp only
      split <;> rfl
  | call c => exact w.sup.step_outcome fun hc => hact (congrArg Act.call hc)

theorem World.Ok.set_by_record (hok : w.Ok l) {act : Act B} (hbefore : ¬w.sup.Set) (hset : (w.step l act).sup.Set) :
    act = .call .record ∧ ¬w.sup.Over ∧ (w.step l act).sup.outcome.cancelAsked = w.sup.cancelAsked ∧
      (w.step l act).sup.outcome.cancelReason = w.sup.cancelReason := by
  by_cases hact : act = .call .record
  · subst hact
    cases hr : w.sup.runner with
    | ended outcome =>
      have hphase := hok.sup.running (by rw [hr]; rfl)
      have hstep : w.step l (.call .record) = { w with sup := w.sup.record outcome } := by
        simp only [World.step,Supervisor.step,hr]
      rw [hstep]
      refine ⟨rfl,?_,rfl,rfl⟩
      unfold Supervisor.Over
      simp [hphase]
    | _ =>
      have hstep : w.step l (.call .record) = w := by simp only [World.step,Supervisor.step,hr]
      rw [hstep] at hset
      exact absurd hset hbefore
  · unfold Supervisor.Set at hset
    rw [w.step_outcome hact] at hset
    exact absurd hset hbefore

/-- The outcome was set at one act of the run, and carries the mark of the cancels before it. -/
theorem set_run (l : Launch) (acts : List (Act B)) (hset : (run (World.step l) {} acts).sup.Set) :
    ∃ before after, acts = before ++ .call .record :: after ∧ ¬(run (World.step l) {} before).sup.Set ∧
      (run (World.step l) {} (before ++ [.call .record])).sup.Set ∧
      (run (World.step l) {} acts).sup.outcome.cancelAsked = (firstCancel before).isSome ∧
      (run (World.step l) {} acts).sup.outcome.cancelReason = (firstCancel before).getD "" := by
  induction acts using List.reverseRecOn with
  | nil => cases hset
  | append_singleton acts act ih =>
    have hok := World.Ok.run l acts
    have hmarked := marked_run l acts
    rw [run_append,run_cons,run_nil] at hset ⊢
    by_cases hbefore : (run (World.step l) {} acts).sup.Set
    · obtain ⟨before,after,rfl,hnot,hthen,hasked,hreason⟩ := ih hbefore
      have hsame := ((hok.moves act).final hbefore).2
      refine ⟨before,after ++ [act],by simp,hnot,hthen,?_,?_⟩
      · rw [hsame]
        exact hasked
      · rw [hsame]
        exact hreason
    · obtain ⟨rfl,hover,hasked,hreason⟩ := hok.set_by_record hbefore hset
      obtain ⟨hfirst,htext⟩ := hmarked.resolve_left hover
      refine ⟨acts,[],rfl,hbefore,?_,hasked.trans hfirst,hreason.trans htext⟩
      rw [run_append]
      exact hset

end Vibesys.Attached
