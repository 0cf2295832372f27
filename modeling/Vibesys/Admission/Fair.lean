import Vibesys.Admission.Steps
import Vibesys.Library.Line

/-!
# Admission never oversubscribes and never overtakes

The rows of the queue draw tickets, so that a request which is queued again after it left the queue is another
row. After any events, under contexts that may differ from one to the next, slots are apart from each other and
rows are admitted once at most, in the order in which they came.
-/
namespace Vibesys.Admission

open Library SchedulingState

structure Book where
  state : SchedulingState := {}
  line : Line AdmissionRequest := {}

abbrev Turn := SchedulingContext × SchedulingEvent

/-- The line after what an event takes out of it and adds. -/
def Book.joined (b : Book) (turn : Turn) : Line AdmissionRequest :=
  let line := b.line.leave (retires turn.2)
  match b.state.enters turn.1 turn.2 with
  | some request => line.enter request
  | none => line

/-- An event that is refused with an error leaves everything. -/
def Book.step (b : Book) (turn : Turn) : Book :=
  match b.state.schedule turn.1 turn.2 with
  | .error _ => b
  | .ok change => { state := change.state, line := (b.joined turn).serve change.admits.length }

namespace Book

variable {b : Book} {turn : Turn}

structure InLine (b : Book) : Prop where
  rows : b.line.waiting.map Prod.snd = b.state.queue
  ordered : b.line.Ordered

theorem joined_rows (h : b.InLine) (turn : Turn) :
    (b.joined turn).waiting.map Prod.snd = b.state.rows turn.1 turn.2 := by
  have hleft : (b.line.leave (retires turn.2)).waiting.map Prod.snd
      = b.state.queue.filter fun request => !retires turn.2 request := by
    rw [← h.rows,List.filter_map]
    rfl
  unfold joined rows
  cases b.state.enters turn.1 turn.2 with
  | none => simpa using hleft
  | some request => simp [Line.enter,hleft]

theorem joined_ordered (h : b.InLine) (turn : Turn) : (b.joined turn).Ordered := by
  unfold joined
  cases b.state.enters turn.1 turn.2 with
  | none => exact h.ordered.leave _
  | some request => exact (h.ordered.leave _).enter request

theorem InLine.step (h : b.InLine) (turn : Turn) : (b.step turn).InLine := by
  unfold Book.step
  cases hchange : b.state.schedule turn.1 turn.2 with
  | error e => exact h
  | ok change =>
    have hsteps := steps_schedule hchange
    refine ⟨?_,(joined_ordered h turn).serve _⟩
    dsimp only [Line.serve]
    rw [List.map_drop,joined_rows h,hsteps.front,List.drop_left]

/-- An event that is not refused comes under a context that gives every episode asked for the mode of its attempt, and
one that enters the queue by it is asked for. -/
def Meets (asked : AttemptRef → DecisionId → Prop) (mode : AttemptRef → WorkspaceMode) (b : Book) (turn : Turn) : Prop :=
  ∀ change, b.state.schedule turn.1 turn.2 = .ok change → turn.1.Keeps asked mode ∧
    ∀ request, b.state.enters turn.1 turn.2 = some request → asked request.target request.decisionId

/-- The slots are apart, and all slots and rows are of episodes that were asked for. -/
structure Held (asked : AttemptRef → DecisionId → Prop) (mode : AttemptRef → WorkspaceMode) (b : Book) : Prop where
  apart : b.state.slots.Pairwise (Slot.Apart mode)
  asked : AllAsked asked b.state.slots b.state.queue

theorem Held.step {asked : AttemptRef → DecisionId → Prop} {mode : AttemptRef → WorkspaceMode} (h : b.Held asked mode)
    (hmeets : b.Meets asked mode turn) : (b.step turn).Held asked mode := by
  unfold Book.step
  cases hchange : b.state.schedule turn.1 turn.2 with
  | error e => exact h
  | ok change =>
    have hsteps := steps_schedule hchange
    obtain ⟨hkeeps,hasked⟩ := hmeets change hchange
    obtain ⟨kept,hkept,hslots,_,hapart⟩ := hsteps.held
    have hrows : ∀ request ∈ b.state.rows turn.1 turn.2, asked request.target request.decisionId := by
      intro request hin
      rcases List.mem_append.mp hin with hin | hin
      · exact h.asked.2 request (List.mem_of_mem_filter hin)
      · exact hasked request (Option.mem_toList.mp hin)
    refine ⟨hapart asked mode hkeeps ⟨h.asked.1,hrows⟩ h.apart,?_,?_⟩
    · intro slot hslot
      rw [hslots] at hslot
      rcases List.mem_append.mp hslot with hslot | hslot
      · exact asked_of_holds h.asked.1 hkept slot hslot
      · obtain ⟨request,hin,rfl⟩ := List.mem_map.mp hslot
        exact hrows request (hsteps.front ▸ List.mem_append_left _ hin)
    · intro request hin
      exact hrows request (hsteps.front ▸ List.mem_append_right _ hin)

end Book

/-- After any events, if the contexts of those that are not refused give every attempt that is asked for one workspace
mode: no two slots are of
one attempt id, hold one pool, or both own the root; the rows admitted and then those waiting are in the order in
which they were queued, and none that was retired is among them. What the next event admits is the front of the
line, each while fewer slots are held than the limit it reads, in a run that accepts before its deadline. -/
theorem admission_in_order (asked : AttemptRef → DecisionId → Prop) (mode : AttemptRef → WorkspaceMode) (turns : List Turn)
    (hmode : Along Book.step (Book.Meets asked mode) {} turns) :
    let b := run Book.step {} turns
    b.state.slots.Pairwise (Slot.Apart mode) ∧ b.line.waiting.map Prod.snd = b.state.queue ∧
      ((b.line.served ++ b.line.waiting).map Prod.fst).Pairwise (· < ·) ∧
      (∀ e ∈ b.line.left, ∀ f ∈ b.line.served ++ b.line.waiting, e.1 ≠ f.1) ∧
      ∀ turn change, b.state.schedule turn.1 turn.2 = .ok change →
        (∃ new, (b.step turn).line.served = b.line.served ++ new ∧ new.map Prod.snd = change.admits) ∧
        ∃ kept, (kept.map Slot.hold).Sublist (b.state.slots.map Slot.hold) ∧
          change.state.slots = kept ++ change.admits.map turn.1.slotOf ∧
          (∀ i, i < change.admits.length → kept.length+i < parallelLimit turn.1.run) ∧
          (change.admits ≠ [] → turn.1.accepting = true ∧ turn.1.run.nowAt < turn.1.run.deadlineAt) := by
  intro b
  have hline : b.InLine :=
    run_invariant (I := Book.InLine) (fun _ turn h => h.step turn) ⟨rfl,Line.Ordered.start⟩ turns
  have hheld : b.Held asked mode := hmode.invariant (fun _ _ h hmeets => h.step hmeets) ⟨List.Pairwise.nil,by simp,by simp⟩
  refine ⟨hheld.apart,hline.rows,hline.ordered.sorted,hline.ordered.apart,fun turn change hchange => ⟨?_,?_⟩⟩
  · refine ⟨(b.joined turn).waiting.take change.admits.length,?_,?_⟩
    · simp only [Book.step,hchange,Line.serve]
      congr 1
      unfold Book.joined
      cases b.state.enters turn.1 turn.2 <;> rfl
    · rw [List.map_take,Book.joined_rows hline,(steps_schedule hchange).front,List.take_left]
  · have hsteps := steps_schedule hchange
    obtain ⟨kept,hkept,hslots,hroom,_⟩ := hsteps.held
    refine ⟨kept,hkept,hslots,hroom,fun hne => ?_⟩
    have haccepting := hsteps.accepting hne
    refine ⟨haccepting,?_⟩
    simp only [SchedulingContext.accepting,Bool.and_eq_true,decide_eq_true_eq] at haccepting
    exact haccepting.2

def rootStart (n : String) : AttemptRequest :=
  { decisionId := "d" ++ n, attemptId := "a" ++ n, itemId := "i", generation := 0, admissionCharge := 1 }

def rootReceipt (n : String) : DecisionReceipt where
  decisionId := "d" ++ n
  decision := some (.start {
    decisionId := "d" ++ n, scope := ⟨"r",0⟩, attemptId := "a" ++ n, itemId := "i", workspaceMode := .exclusiveRoot
    admissionCharge := 1 })
  feedback := .accepted ("d" ++ n)

def rootRun : SchedulingContext where
  run := { runId := "r", nowAt := 1, deadlineAt := 9, maxAttempts := 4, maxParallel := 4
           receipts := [rootReceipt "1",rootReceipt "2"] }

theorem rootRun_keeps (asked : AttemptRef → DecisionId → Prop) : rootRun.Keeps asked fun _ => .exclusiveRoot := by
  intro target id m _ hm
  have howner : rootRun.owner target = none := rfl
  rw [SchedulingContext.mode,howner] at hm
  dsimp only [rootRun,List.find?] at hm
  split at hm
  case h_1 decision hdecision =>
    cases hm
    split at hdecision
    · cases hdecision
      rfl
    · split at hdecision
      · cases hdecision
        rfl
      · cases hdecision
  case h_2 => cases hm

/-- The second of two attempts that both own the root waits for the first. -/
theorem admission_in_order_rootTaken :
    let turns := [(rootRun,.attemptRequested (rootStart "1")),(rootRun,.attemptRequested (rootStart "2"))]
    let b := run Book.step {} turns
    b.state.slots = [rootRun.slotOf (.start (rootStart "1"))] ∧ b.state.queue = [.start (rootStart "2")] ∧
      b.state.slots.Pairwise (Slot.Apart fun _ => .exclusiveRoot) := by
  have hmeets : ∀ b event, Book.Meets (fun _ _ => True) (fun _ => .exclusiveRoot) b (rootRun,event) :=
    fun _ _ _ _ => ⟨rootRun_keeps _,fun _ _ => trivial⟩
  refine ⟨by decide +kernel,by decide +kernel,(admission_in_order (fun _ _ => True) _ _ ?_).1⟩
  exact ⟨hmeets _ _,hmeets _ _,trivial⟩

end Vibesys.Admission
