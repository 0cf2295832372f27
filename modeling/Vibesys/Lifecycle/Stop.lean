import Vibesys.Lifecycle.Runs

/-!
# Stopped jobs and jobs with an outcome

A job the daemon decided to stop, or whose outcome is known, is not queued again and not launched
again while the machine holds it, unless the stop is undone: a stop that failed, or a supervisor
said to be gone with no proof, puts the job in doubt with nothing left of the decision.
-/
namespace Vibesys.Lifecycle
open Vibesys.Core Vibesys.Schedule Vibesys.Library

/-- The request neither queues its job again nor launches it. -/
def Request.RunsNoMore : Request → Prop
  | .launch _ _ _ => False
  | .move _ settlement _ => settlement.Requeues = false
  | _ => True

namespace Entry

/-- The job is not run again: it is being stopped, its end is decided, its cancel was asked for
before it came in doubt, or its store was given up. -/
def Decided (cur : Entry) : Prop :=
  match cur.phase with
  | .stopping | .left => cur.parked = false
  | .settling | .cancelling | .unrecorded => cur.parked = false ∧ cur.settlement.Requeues = false
  | .inDoubt | .running | .discarding => cur.cancelAsked = true
  | .queued | .launching => False

/-- The event undoes the decision to stop the job. -/
def UndoesStop (cur : Entry) : Event → Prop
  | .stopFailed _ _ => cur.phase = .stopping ∧ cur.cancelAsked = false
  | .supervisorLost e => cur.phase = .stopping ∧ cur.cancelAsked = false ∧ e.proof.Valid = false
  | _ => False

attribute [grind =] Request.RunsNoMore Decided UndoesStop

/-- A change that leaves the job decided and asks for no other run of it. -/
abbrev KeepsDecision : Option Entry × List Request → Prop := Ensures Decided Request.RunsNoMore

lemma Look.keepsDecision {resources : List Resource} {fresh : ℕ} {e : Recovered} {kept : Entry}
    {x : Option Entry × List Request} (hx : Look resources fresh e kept x) (hseq : kept.seq ≠ 0)
    (hcancel : kept.cancelAsked = true) : KeepsDecision x := by
  have hplace : ∀ phase, (kept.place e fresh phase).cancelAsked = true := by grind
  have hparked : ∀ phase, (kept.place e fresh phase).parked = false := fun _ => rfl
  have hdoubted : (kept.doubted e fresh).cancelAsked = true := hplace .inDoubt
  have hphase : (kept.doubted e fresh).phase = .inDoubt := rfl
  cases hx with
  | unseen => simp [Ensures]
  | ended => grind
  | queued => grind [cancelQueued_requeues]
  | discarding => grind
  | parked => grind
  | running => grind
  | cut => grind [lostJob_requeues]
  | givenUp => grind [givenUpJob_requeues]
  | inDoubt => grind

/-- Every event that does not undo the decision keeps it. -/
theorem handle_keepsDecision {resources : List Resource} {fresh : ℕ} {cur : Entry} (e : Event)
    (hseq : cur.seq ≠ 0) (hparks : cur.parked = true → cur.phase = .inDoubt) (h : cur.Decided)
    (hundo : ¬cur.UndoesStop e) : KeepsDecision (handle resources fresh (some cur) e) := by
  cases e with
  | recovered e =>
    have hx := lookedAt_cases resources fresh e (some cur)
    rw [handle]
    generalize lookedAt resources fresh e (some cur) = x at hx ⊢
    cases hx with
    | again hphase hx =>
      refine hx.keepsDecision hseq ?_
      rcases hphase with hphase | hphase <;> simp [Decided,hphase] at h
      exact h
    | left hphase => grind
    | ignored => exact ⟨fun c hc => by cases hc; exact h,by simp⟩
  | cancelAsked e => grind [handle,cancelQueued_requeues]
  | discarded => grind [handle,cancelQueued_requeues]
  | finished => grind [handle,Settle_requeues,stoppedJob_requeues]
  | supervisorLost => grind [handle,lostJob_requeues]
  | _ => grind [handle]

end Entry

lemma State.Scheduled.keepsDecision {s : State} {cur cur' : Entry} {reqs : List Request}
    (hx : s.Scheduled cur cur' reqs) (h : cur.Decided) : Entry.KeepsDecision (some cur',reqs) := by
  cases hx <;> grind [State.takesUpCancelled]

lemma State.Left.decided {r : Ref} {cur : Entry} (h : State.Left r cur) : cur.Decided := by
  simp [Entry.Decided,h.phase,h.parked]

/-- The event decides that the daemon stops the job, or settles it by its outcome. -/
def Decides (cur : Entry) : Event → Prop
  | .followFailed e => cur.phase = .running ∧ e.cause ≠ .storeAway
  | .finished _ => cur.phase = .running ∨ cur.phase = .stopping
  | _ => False

/-- The event undoes the decision to stop the job. -/
def UndoesStop (r : Ref) (s : State) (e : Event) : Prop :=
  e.job = some r ∧ ∃ cur, s.find r = some cur ∧ cur.UndoesStop e

lemma Entry.decides_keepsDecision {resources : List Resource} {fresh : ℕ} {cur : Entry} {e : Event}
    (h : Decides cur e) (hparks : cur.parked = true → cur.phase = .inDoubt) :
    KeepsDecision (handle resources fresh (some cur) e) := by
  cases e <;> grind [Decides,handle,Settle_requeues,stoppedJob_requeues]

/-- In every run, once the daemon decided to stop a job or an outcome settled it, and while the
machine holds the job and no event undoes a stop, nothing queues the job again or launches it. -/
theorem decided_runs_no_more (sc : Scheduling) (before after : List Event) (e : Event) (r : Ref) (cur : Entry)
    (hheld : (run next (RecoveringWith sc) before).find r = some cur) (he : e.job = some r) (hdecides : Decides cur e)
    (hafter : Along next (fun s e => (s.find r).isSome = true ∧ ¬UndoesStop r s e)
      (next (run next (RecoveringWith sc) before) e) after) :
    Along next (Asks Request.RunsNoMore r) (run next (RecoveringWith sc) before) (e :: after) := by
  have hs := sound_run sc before
  generalize run next (RecoveringWith sc) before = s at hheld hafter hs ⊢
  have hhandle : Entry.KeepsDecision (Entry.handle s.resources (s.seq+1) (s.find r) e) := by
    rw [hheld]
    exact Entry.decides_keepsDecision hdecides (hs.parks r cur hheld)
  obtain ⟨hdecided,hasks⟩ := step_asks hs (fun hne => absurd he hne) (fun _ => hhandle) (fun _ hl => hl.decided)
    trivial fun _ _ _ _ hcur hstart => hstart.keepsDecision hcur
  refine ⟨hasks,along_asks (C := fun s e => ¬UndoesStop r s e) ?_ (fun _ hl => hl.decided) trivial
    (fun _ _ _ _ hcur hstart => hstart.keepsDecision hcur) (hs.next _) hdecided hafter⟩
  intro s e cur hs hcur hdecided hundo he
  exact Entry.handle_keepsDecision e (hs.numbered r cur hcur) (hs.parks r cur hcur) hdecided
    fun h => hundo ⟨he,cur,hcur,h⟩

/-- A look finds that the supervisor of the job died. -/
def foundDead : Event := .recovered
  ⟨jobNamed "j1",.jobIn ⟨.running,1,false,0,some .afterProvenDeath,{}⟩,.dead .lockFree (some .mayHaveStarted),8⟩

/-- The job is being stopped; a look in between is ignored, and its supervisor is proved gone. -/
theorem decided_runs_no_more_unfollowed :
    Along next (Asks Request.RunsNoMore (jobNamed "j1")) (run next Recovering (oneRunning .afterProvenDeath))
      [unfollowed,foundDead,.supervisorLost ⟨jobNamed "j1",.lockFree,some .mayHaveStarted,9⟩] := by
  have hphase : ((run next Recovering (oneRunning .afterProvenDeath)).find (jobNamed "j1")).map Entry.phase =
      some .running := by decide +kernel
  obtain ⟨cur,hcur,hphase⟩ := Option.map_eq_some_iff.mp hphase
  refine decided_runs_no_more OneAtATime (oneRunning .afterProvenDeath) _ unfollowed (jobNamed "j1") cur hcur rfl
    ⟨hphase,by decide⟩ ⟨⟨by decide +kernel,?_⟩,⟨by decide +kernel,?_⟩,trivial⟩
  · rintro ⟨_,_,_,h⟩
    exact h
  · rintro ⟨_,_,_,h⟩
    simp [Entry.UndoesStop,DeathProof.Valid] at h

/-- The stop fails, and a look finds the supervisor dead: the job the daemon was stopping is queued
again. The job is held all along. -/
theorem stop_undone :
    ((run next Recovering (oneRunning .afterProvenDeath ++ [unfollowed])).find (jobNamed "j1")).map Entry.phase =
      some .stopping ∧
    Along next (fun s _ => (s.find (jobNamed "j1")).isSome = true)
      (run next Recovering (oneRunning .afterProvenDeath ++ [unfollowed])) [unstopped,foundDead] ∧
    ∃ settlement, (Step (run next Recovering (oneRunning .afterProvenDeath ++ [unfollowed,unstopped])) foundDead).2 =
        [.move (jobNamed "j1") settlement false] ∧ settlement.Requeues = true ∧ settlement.transition.to_ = .queued :=
  ⟨by decide +kernel,by decide +kernel,
    CutOff "j1" (some .afterProvenDeath) 0 .lockFree (some .mayHaveStarted) 8,by decide +kernel,by decide,by decide⟩

end Vibesys.Lifecycle
