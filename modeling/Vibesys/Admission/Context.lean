import Mathlib.Algebra.Order.Field.Rat

/-!
# What admission reads of a run

The run, its decisions and their receipts, its controls, and the attempts as other areas keep them. What no
admission reads of them is left out: a decision carries the rest of its text as `rest`, and whether a receipt's
decision is immutable and has the digest that was stored is the flag `intact`. Whether an adoption fences the
root, and which requests wait for a retry, are given.
-/
namespace Vibesys.Admission

abbrev DecisionId := String
abbrev RequestId := String
abbrev PoolId := String
abbrev Seconds := ℚ

structure AttemptRef where
  attemptId : String
  generation : ℕ
  deriving DecidableEq, Repr

structure Scope where
  owner : String
  generation : ℕ
  deriving DecidableEq, Repr

inductive RunStatus
  | running | paused | closing | terminal | blocked | draining | parked
  deriving DecidableEq, Repr

inductive StopMode
  | drain | cancel
  deriving DecidableEq, Repr

inductive WorkspaceMode
  | exclusiveRoot | isolatedChild | readOnlyRevision
  deriving DecidableEq, Repr

inductive AttemptPhase
  | queued | acquiring | active | closing | terminal | parked | blocked
  deriving DecidableEq, Repr

inductive Disposition
  | park | cancel | settle
  deriving DecidableEq, Repr

structure AttemptClosure where
  disposition : Disposition
  authority : RequestId
  admissionId : DecisionId
  deriving DecidableEq, Repr

inductive ChargeKind
  | admission | attempt | turn
  deriving DecidableEq, Repr

structure ChargeReceipt where
  kind : ChargeKind
  charged : ℕ
  refunded : ℕ := 0
  historicalProof : Option String := none
  deriving DecidableEq, Repr

structure AttemptView where
  attemptId : String
  itemId : String
  generation : ℕ
  phase : AttemptPhase
  workspaceMode : WorkspaceMode
  admissionId : Option DecisionId := none
  closure : Option AttemptClosure := none
  charges : List ChargeReceipt := []
  releaseDependencies : List String := []
  deriving DecidableEq, Repr

structure OperationSchemaRef where
  kind : String
  requestSchema : String
  outcomeSchema : String
  lifecycle : String
  onInterrupt : String := "rerun"
  deriving DecidableEq, Repr

inductive OperationNormalizationKind
  | none_ | scopeReopen
  deriving DecidableEq, Repr

structure OperationDescriptor extends OperationSchemaRef where
  normalization : OperationNormalizationKind := .none_
  deriving DecidableEq, Repr

structure ScopeReopenNormalization where
  attempt : AttemptRef
  continuationId : String
  parkAuthority : RequestId
  resolvedCancelledJobs : List String
  deriving DecidableEq, Repr

structure StartAttempt where
  decisionId : DecisionId
  scope : Scope
  attemptId : String
  itemId : String
  workspaceMode : WorkspaceMode
  admissionCharge : ℕ
  rest : String := ""
  deriving DecidableEq, Repr

structure Operation where
  decisionId : DecisionId
  scope : Scope
  registeredWire : Option OperationSchemaRef
  normalizedScopeReopen : Option ScopeReopenNormalization
  registeredScopeReopen : Option ScopeReopenNormalization
  rest : String := ""
  deriving DecidableEq, Repr

structure Finish where
  decisionId : DecisionId
  scope : Scope
  mode : StopMode
  result : String
  deriving DecidableEq, Repr

inductive Command
  | start (decision : StartAttempt)
  | operation (decision : Operation)
  | finish (decision : Finish)
  | other (decisionId : DecisionId) (scope : Scope)
  deriving DecidableEq, Repr

def Command.decisionId : Command → DecisionId
  | .start d => d.decisionId
  | .operation d => d.decisionId
  | .finish d => d.decisionId
  | .other id _ => id

inductive DecisionFeedback
  | accepted (decisionId : DecisionId)
  | rejected (decisionId : DecisionId)
  deriving DecidableEq, Repr

structure DecisionReceipt where
  decisionId : DecisionId
  decision : Option Command := none
  intact : Bool := true
  feedback : DecisionFeedback
  completed : Bool := false
  deriving DecidableEq, Repr

inductive ControlAction
  | stop | resume | setMaxParallel | other
  deriving DecidableEq, Repr

structure ControlInput where
  action : ControlAction
  mode : Option StopMode := none
  maxParallel : Option ℕ := none
  deriving DecidableEq, Repr

structure RunState where
  runId : String
  generation : ℕ := 0
  status : RunStatus := .running
  nowAt : Seconds
  deadlineAt : Seconds
  operations : List OperationDescriptor := []
  maxAttempts : ℕ
  maxParallel : ℕ
  controls : List ControlInput := []
  receipts : List DecisionReceipt := []
  result : Option String := none
  deriving Repr

/-- A request of the ledger that waits for its next try, and until when. -/
structure RetryWait where
  requestId : RequestId
  until_ : Seconds
  deriving DecidableEq, Repr

structure SchedulingContext where
  run : RunState
  attempts : List AttemptView := []
  fencesRootMutation : Bool := false
  retryWaits : List RetryWait := []
  deriving Repr

/-- How many attempts are admitted at once: the operator's latest limit, else the run's. -/
def parallelLimit (run : RunState) : ℕ :=
  run.controls.foldl
    (fun limit control =>
      if control.action = .setMaxParallel then control.maxParallel.getD limit else limit)
    run.maxParallel

/-- The one receipt of a decision, if it was accepted and its identities and payload agree. -/
def acceptedReceiptFor (receipts : List DecisionReceipt) (identity : DecisionId) : Option DecisionReceipt :=
  match receipts.filter fun receipt => receipt.decisionId = identity with
  | [receipt] =>
    match receipt.decision,receipt.feedback with
    | some decision,.accepted id =>
      if id = identity ∧ decision.decisionId = identity ∧ receipt.intact then some receipt else none
    | _,_ => none
  | _ => none

def admissionRemaining (attempts : List AttemptView) (maxAttempts : ℕ) (reserved : ℕ) : ℤ :=
  let consumed : ℤ := (attempts.map fun owner =>
    ((owner.charges.filter fun charge => charge.kind = .admission).map fun charge =>
      (charge.charged : ℤ)-charge.refunded).sum).sum
  max 0 (maxAttempts-consumed-reserved)

def escalateStop (held : Option StopMode) (asked : StopMode) : StopMode :=
  if held = some .cancel ∨ asked = .cancel then .cancel else .drain

def requestedStopMode (run : RunState) : Option StopMode :=
  run.controls.foldl
    (fun held control =>
      match control.action,control.mode with
      | .stop,some mode => some (escalateStop held mode)
      | .resume,_ => none
      | _,_ => held)
    none

/-- The first committed finish of the run, if its proof holds. -/
def committedStop (run : RunState) : Option Finish := do
  let receipt ← run.receipts.find? fun row =>
    match row.decision with
    | some (.finish _) => (match row.feedback with | .accepted _ => true | .rejected _ => row.completed)
    | _ => false
  match receipt.feedback with
  | .rejected _ => none
  | .accepted _ =>
    let _ ← acceptedReceiptFor run.receipts receipt.decisionId
    match receipt.decision with
    | some (.finish stop) =>
      let result ← run.result
      if stop.scope.owner = run.runId ∧ stop.scope.generation = run.generation ∧
          (run.status = .closing ∨ run.status = .terminal) ∧ stop.result = result then some stop
      else none
    | _ => none

def stopMode (run : RunState) : Option StopMode :=
  match committedStop run with
  | some stop => some (escalateStop (requestedStopMode run) stop.mode)
  | none => requestedStopMode run

def stopDraining (run : RunState) : Bool :=
  (committedStop run).isSome && run.status = .closing && stopMode run = some .drain

end Vibesys.Admission
