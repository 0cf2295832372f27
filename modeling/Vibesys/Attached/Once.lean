import Vibesys.Attached.Supervisor

/-!
# The command runs once

The phase, the thread of `run` and the outcome go together: the thread is there from the moment the phase leaves
parked for running, and the outcome is set when the phase becomes finished. The cancel mark is set under the mutex
by the first `Cancel` that finds the command not ended, so the outcome carries what the first `Cancel` said.
-/
namespace Vibesys.Attached

open Library Lifecycle

variable {B : Type*} {l : Launch} {s : Supervisor B}

/-- The phases the supervisor can be in while the thread of `run` is where it is. -/
def Runner.phases : Runner → List RunPhase
  | .idle => [.parked,.released]
  | .begun => [.running]
  | .executing => [.running]
  | .ended _ => [.running]
  | .recorded => [.finished,.released]
  | .told => [.finished,.released]
  | .done => [.finished,.released]

def Supervisor.Set (s : Supervisor B) : Prop := s.outcome.end_.isSome

def Runner.past : Runner → Bool
  | .recorded => true
  | .told => true
  | .done => true
  | _ => false

def Runner.starts : Runner → ℕ
  | .idle => 0
  | .begun => 0
  | _ => 1

/-- The steps of a phase. -/
inductive Goes : RunPhase → RunPhase → Prop
  | stays (p : RunPhase) : Goes p p
  | start : Goes .parked .running
  | finish : Goes .running .finished
  | release : Goes .finished .released
  | abort : Goes .parked .released

namespace Supervisor

/-- What holds of a supervisor in every state. -/
structure Ok (s : Supervisor B) : Prop where
  phase : s.phase ∈ s.runner.phases
  started : s.started ≤ s.runner.starts
  set_iff : s.Set ↔ s.runner.past = true
  ending : ∀ o, s.runner = .ended o → o.end_.isSome
  announced : s.announced ≤ s.spool.length

theorem Ok.init : Ok ({} : Supervisor B) where
  phase := List.mem_cons_self
  started := Nat.le_refl 0
  set_iff := by simp [Set,Runner.past]
  ending := fun _ h => by cases h
  announced := Nat.le_refl 0

theorem Ok.idle_of_parked (h : s.Ok) (hphase : s.phase = .parked) : s.runner = .idle := by
  have hmem := h.phase
  rw [hphase] at hmem
  cases hr : s.runner with
  | idle => rfl
  | _ => simp [hr,Runner.phases] at hmem

theorem Ok.past_of_finished (h : s.Ok) (hphase : s.phase = .finished) : s.runner.past = true := by
  have hmem := h.phase
  rw [hphase] at hmem
  cases hr : s.runner with
  | recorded => rfl
  | told => rfl
  | done => rfl
  | _ => simp [hr,Runner.phases] at hmem

theorem Ok.set_of_finished (h : s.Ok) (hphase : s.phase = .finished) : s.Set :=
  h.set_iff.mpr (h.past_of_finished hphase)

theorem Ok.running (h : s.Ok) (hr : s.runner.phases = [.running]) : s.phase = .running := by
  have hmem := h.phase
  rw [hr] at hmem
  exact List.mem_singleton.mp hmem

theorem Ok.not_set (h : s.Ok) (hr : s.runner.past = false) : ¬s.Set := fun hset => by
  rw [h.set_iff.mp hset] at hr
  cases hr

theorem Ok.Start (h : s.Ok) : s.Start.1.Ok := by
  unfold Supervisor.Start
  split
  · exact h
  · exact h
  · exact h
  · next hphase =>
    have hidle := h.idle_of_parked hphase
    have hstarted := h.started
    have hset := h.not_set (by rw [hidle]; rfl)
    rw [hidle] at hstarted
    exact ⟨List.mem_cons_self,hstarted,⟨fun hs => absurd hs hset,fun hp => by cases hp⟩,(fun _ ho => by cases ho),
      h.announced⟩

theorem Ok.Cancel (h : s.Ok) (reason : String) : (s.Cancel reason).Ok := by
  unfold Supervisor.Cancel
  split
  · exact h
  · exact ⟨h.phase,h.started,h.set_iff,h.ending,h.announced⟩

theorem Ok.Release (h : s.Ok) : s.Release.1.Ok := by
  have hreleased : s.phase = .parked ∨ s.phase = .finished → RunPhase.released ∈ s.runner.phases := by
    rintro (hphase | hphase)
    · rw [h.idle_of_parked hphase]
      simp [Runner.phases]
    · have hpast := h.past_of_finished hphase
      cases hr : s.runner with
      | recorded => simp [Runner.phases]
      | told => simp [Runner.phases]
      | done => simp [Runner.phases]
      | _ => simp [hr,Runner.past] at hpast
  unfold Supervisor.Release
  cases hphase : s.phase with
  | released => exact h
  | running => exact h
  | parked => exact ⟨hreleased (Or.inl hphase),h.started,h.set_iff,h.ending,h.announced⟩
  | finished => exact ⟨hreleased (Or.inr hphase),h.started,h.set_iff,h.ending,h.announced⟩

theorem Ok.execute (h : s.Ok) (hr : s.runner = .begun) : (s.execute l).Ok := by
  have hphase := h.running (by rw [hr]; rfl)
  have hset := h.not_set (by rw [hr]; rfl)
  have hstarted : s.started = 0 := by
    have hle := h.started
    rw [hr] at hle
    exact Nat.le_zero.mp hle
  unfold Supervisor.execute
  split
  · exact ⟨by simp [Runner.phases,hphase],by simp [hstarted],⟨fun hs => absurd hs hset,fun hp => by cases hp⟩,
      (fun o ho => by cases ho; rfl),h.announced⟩
  · exact ⟨by simp [Runner.phases,hphase],by simp [hstarted,Runner.starts],
      ⟨fun hs => absurd hs hset,fun hp => by cases hp⟩,(fun o ho => by cases ho),h.announced⟩

theorem Ok.write (h : s.Ok) (data : List B) (ok : Bool) : (s.write data ok).Ok := by
  unfold Supervisor.write
  split
  · exact ⟨h.phase,h.started,h.set_iff,h.ending,Nat.le_refl _⟩
  · have hle := h.announced
    exact ⟨h.phase,h.started,h.set_iff,h.ending,by simp only [List.length_append]; omega⟩

theorem Ok.commandEnds (h : s.Ok) (hr : s.runner = .executing) (end_ : End) :
    Ok { s with runner := .ended ⟨some end_,false,""⟩ } := by
  have hphase := h.running (by rw [hr]; rfl)
  have hset := h.not_set (by rw [hr]; rfl)
  have hstarted := h.started
  rw [hr] at hstarted
  exact ⟨by simp [Runner.phases,hphase],hstarted,⟨fun hs => absurd hs hset,fun hp => by cases hp⟩,
    (fun o ho => by cases ho; rfl),h.announced⟩

theorem Ok.record (h : s.Ok) {outcome : Outcome} (hr : s.runner = .ended outcome) : (s.record outcome).Ok := by
  have hphase := h.running (by rw [hr]; rfl)
  have hstarted := h.started
  rw [hr] at hstarted
  refine ⟨?_,hstarted,⟨fun _ => rfl,fun _ => h.ending outcome hr⟩,(fun o ho => by cases ho),h.announced⟩
  simp [Supervisor.record,hphase,Runner.phases]

theorem Ok.past (h : s.Ok) (hr : s.runner.past = true) {r : Runner} (hr' : r.past = true) (sig : Signal) :
    Ok { s with runner := r, changed := sig } := by
  have hphases : ∀ r : Runner, r.past = true → r.phases = [.finished,.released] ∧ r.starts = 1 := by
    intro r hr
    cases r with
    | recorded => exact ⟨rfl,rfl⟩
    | told => exact ⟨rfl,rfl⟩
    | done => exact ⟨rfl,rfl⟩
    | _ => cases hr
  refine ⟨?_,?_,⟨fun _ => hr',fun _ => h.set_iff.mpr hr⟩,?_,h.announced⟩
  · rw [(hphases r hr').1,← (hphases _ hr).1]
    exact h.phase
  · rw [(hphases r hr').2,← (hphases _ hr).2]
    exact h.started
  · intro o ho
    dsimp only at ho
    rw [ho] at hr'
    cases hr'

theorem Ok.step (h : s.Ok) (c : Call B) : (s.step l c).Ok := by
  cases c with
  | Start => exact h.Start
  | Cancel reason => exact h.Cancel reason
  | Release => exact h.Release
  | Close => exact ⟨h.phase,h.started,h.set_iff,h.ending,h.announced⟩
  | execute =>
    unfold Supervisor.step
    dsimp only
    split
    · next hr => exact h.execute hr
    · exact h
  | write data ok =>
    unfold Supervisor.step
    dsimp only
    split
    · exact h.write data ok
    · exact h
  | commandEnds end_ =>
    unfold Supervisor.step
    dsimp only
    split
    · next hr => exact h.commandEnds hr end_
    · exact h
  | record =>
    unfold Supervisor.step
    dsimp only
    split
    · next outcome hr => exact h.record hr
    · exact h
  | notifyEnd =>
    unfold Supervisor.step
    dsimp only
    split
    · next hr => exact h.past (by rw [hr]; rfl) rfl _
    · exact h
  | closeDone =>
    unfold Supervisor.step
    dsimp only
    split
    · next hr => exact h.past (by rw [hr]; rfl) rfl _
    · exact h
  | notify =>
    unfold Supervisor.step
    dsimp only
    split
    · exact ⟨h.phase,h.started,h.set_iff,h.ending,h.announced⟩
    · exact h

theorem Ok.wait (h : s.Ok) (sig : Signal) : Ok { s with changed := sig } :=
  ⟨h.phase,h.started,h.set_iff,h.ending,h.announced⟩

def Pending (s : Supervisor B) : Prop := 0 < s.owed ∨ s.runner = .recorded

def Over (s : Supervisor B) : Prop := s.phase = .finished ∨ s.phase = .released

/-- What one step does, as far as an `Attach` can tell. -/
structure Moves (s s' : Supervisor B) : Prop where
  phase : Goes s.phase s'.phase
  spool : s.spool <+: s'.spool
  final : s.Set → s'.spool = s.spool ∧ s'.outcome = s.outcome
  announces : s'.changed = s.changed.Notify ∨
    (s'.changed.closed = s.changed.closed ∧ (s.changed.ch → s'.changed.ch) ∧ (s.Pending → s'.Pending) ∧
      (s'.Pending ∨ (s'.announced = s.announced ∧ (s'.Over → s.Over))))
  barred : s.started = 0 → s.cancelAsked = true ∨ s.phase = .released →
    s'.started = 0 ∧ (s'.cancelAsked = true ∨ s'.phase = .released)

theorem Moves.still {s' : Supervisor B} (hphase : s'.phase = s.phase) (hspool : s'.spool = s.spool)
    (houtcome : s'.outcome = s.outcome) (hclosed : s'.changed.closed = s.changed.closed)
    (hch : s.changed.ch → s'.changed.ch) (hpending : s.Pending → s'.Pending)
    (hannounced : s'.announced = s.announced) (hstarted : s'.started = s.started)
    (hasked : s.cancelAsked = true → s'.cancelAsked = true) : s.Moves s' where
  phase := by rw [hphase]; exact .stays _
  spool := by rw [hspool]
  final := fun _ => ⟨hspool,houtcome⟩
  announces := by
    refine Or.inr ⟨hclosed,hch,hpending,Or.inr ⟨hannounced,?_⟩⟩
    unfold Over
    rw [hphase]
    exact id
  barred := by
    intro hzero hwhy
    rw [hstarted,hphase]
    exact ⟨hzero,hwhy.imp_left hasked⟩

theorem Moves.refl (s : Supervisor B) : s.Moves s :=
  .still rfl rfl rfl rfl id id rfl rfl id

theorem Moves.Start (h : s.Ok) : s.Moves s.Start.1 := by
  unfold Supervisor.Start
  split
  · exact .refl s
  · exact .refl s
  · exact .refl s
  · next hphase =>
    have hidle := h.idle_of_parked hphase
    refine ⟨by rw [hphase]; exact .start,List.prefix_rfl,fun _ => ⟨rfl,rfl⟩,Or.inr ⟨rfl,id,?_,Or.inr ⟨rfl,?_⟩⟩,?_⟩
    · rintro (howed | hrec)
      · exact Or.inl howed
      · rw [hidle] at hrec
        cases hrec
    · rintro (hover | hover)
      · cases hover
      · cases hover
    · intro hzero hwhy
      refine ⟨hzero,hwhy.imp_right fun hreleased => ?_⟩
      rw [hphase] at hreleased
      cases hreleased

theorem Moves.Release (s : Supervisor B) : s.Moves s.Release.1 := by
  have hgo : Goes s.phase .released → s.Moves { s with phase := .released, ctxDone := true, released := true, owed := s.owed + 1 } :=
    fun hgoes => ⟨hgoes,List.prefix_rfl,fun _ => ⟨rfl,rfl⟩,
      Or.inr ⟨rfl,id,fun _ => Or.inl (Nat.succ_pos _),Or.inl (Or.inl (Nat.succ_pos _))⟩,
      fun hzero _ => ⟨hzero,Or.inr rfl⟩⟩
  unfold Supervisor.Release
  cases hphase : s.phase with
  | released => exact .refl s
  | running => exact .refl s
  | parked => exact hgo (by rw [hphase]; exact .abort)
  | finished => exact hgo (by rw [hphase]; exact .release)

theorem Moves.execute (h : s.Ok) (hr : s.runner = .begun) : s.Moves (s.execute l) := by
  have hphase := h.running (by rw [hr]; rfl)
  have hpending : ∀ s' : Supervisor B, s'.owed = s.owed → s.Pending → s'.Pending := by
    rintro s' heq (howed | hrec)
    · exact Or.inl (heq ▸ howed)
    · rw [hr] at hrec
      cases hrec
  unfold Supervisor.execute
  split
  · exact .still rfl rfl rfl rfl id (hpending _ rfl) rfl rfl id
  · next hasked =>
    refine ⟨.stays _,List.prefix_rfl,fun _ => ⟨rfl,rfl⟩,Or.inr ⟨rfl,id,hpending _ rfl,Or.inr ⟨rfl,id⟩⟩,?_⟩
    rintro - (hwhy | hwhy)
    · exact absurd hwhy hasked
    · rw [hphase] at hwhy
      cases hwhy

theorem Moves.write (h : s.Ok) (hr : s.runner = .executing) (data : List B) (ok : Bool) :
    s.Moves (s.write data ok) := by
  have hset := h.not_set (by rw [hr]; rfl)
  unfold Supervisor.write
  split
  · exact ⟨.stays _,List.prefix_append _ _,fun hs => absurd hs hset,
      Or.inr ⟨rfl,id,fun _ => Or.inl (Nat.succ_pos _),Or.inl (Or.inl (Nat.succ_pos _))⟩,fun hzero hwhy => ⟨hzero,hwhy⟩⟩
  · exact ⟨.stays _,List.prefix_append _ _,fun hs => absurd hs hset,
      Or.inr ⟨rfl,id,id,Or.inr ⟨rfl,id⟩⟩,fun hzero hwhy => ⟨hzero,hwhy⟩⟩

theorem Moves.record (h : s.Ok) {outcome : Outcome} (hr : s.runner = .ended outcome) : s.Moves (s.record outcome) := by
  have hphase := h.running (by rw [hr]; rfl)
  have hset := h.not_set (by rw [hr]; rfl)
  refine ⟨?_,List.prefix_rfl,fun hs => absurd hs hset,Or.inr ⟨rfl,id,fun _ => Or.inr rfl,Or.inl (Or.inr rfl)⟩,?_⟩
  · simp only [Supervisor.record,hphase,if_true]
    exact .finish
  · rintro hzero (hwhy | hwhy)
    · exact ⟨hzero,Or.inl hwhy⟩
    · rw [hphase] at hwhy
      cases hwhy

theorem Moves.step (h : s.Ok) (c : Call B) : s.Moves (s.step l c) := by
  cases c with
  | Start => exact .Start h
  | Cancel reason =>
    unfold Supervisor.step Supervisor.Cancel
    dsimp only
    split
    · exact .refl s
    · exact .still rfl rfl rfl rfl id id rfl rfl (fun _ => rfl)
  | Release => exact .Release s
  | Close => exact .still rfl rfl rfl rfl id id rfl rfl id
  | execute =>
    unfold Supervisor.step
    dsimp only
    split
    · next hr => exact .execute h hr
    · exact .refl s
  | write data ok =>
    unfold Supervisor.step
    dsimp only
    split
    · next hr => exact .write h hr data ok
    · exact .refl s
  | commandEnds end_ =>
    unfold Supervisor.step
    dsimp only
    split
    · next hr =>
      refine .still rfl rfl rfl rfl id ?_ rfl rfl id
      rintro (howed | hrec)
      · exact Or.inl howed
      · rw [hr] at hrec
        cases hrec
    · exact .refl s
  | record =>
    unfold Supervisor.step
    dsimp only
    split
    · next outcome hr => exact .record h hr
    · exact .refl s
  | notifyEnd =>
    unfold Supervisor.step
    dsimp only
    split
    · exact ⟨.stays _,List.prefix_rfl,fun _ => ⟨rfl,rfl⟩,Or.inl rfl,fun hzero hwhy => ⟨hzero,hwhy⟩⟩
    · exact .refl s
  | closeDone =>
    unfold Supervisor.step
    dsimp only
    split
    · next hr =>
      refine .still rfl rfl rfl rfl id ?_ rfl rfl id
      rintro (howed | hrec)
      · exact Or.inl howed
      · rw [hr] at hrec
        cases hrec
    · exact .refl s
  | notify =>
    unfold Supervisor.step
    dsimp only
    split
    · exact ⟨.stays _,List.prefix_rfl,fun _ => ⟨rfl,rfl⟩,Or.inl rfl,fun hzero hwhy => ⟨hzero,hwhy⟩⟩
    · exact .refl s

end Supervisor

end Vibesys.Attached
