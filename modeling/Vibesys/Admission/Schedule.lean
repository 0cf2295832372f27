import Vibesys.Admission.Context

/-!
# Admission of attempts

Queue and capacity of a run. Registration, charging and retirement are asked for through signals and done
elsewhere. A check that the source raises on is an error, after which the state is as before.
-/
namespace Vibesys.Admission

structure AttemptRequest where
  decisionId : DecisionId
  attemptId : String
  itemId : String
  generation : ℕ
  admissionCharge : ℕ
  pools : List PoolId := []
  deriving DecidableEq, Repr

structure AttemptReopenRequest where
  decisionId : DecisionId
  requestId : RequestId
  attempt : AttemptRef
  pools : List PoolId := []
  deriving DecidableEq, Repr

inductive AdmissionRequest
  | start (request : AttemptRequest)
  | reopen (request : AttemptReopenRequest)
  deriving DecidableEq, Repr

namespace AdmissionRequest

def decisionId : AdmissionRequest → DecisionId
  | .start r => r.decisionId
  | .reopen r => r.decisionId

def pools : AdmissionRequest → List PoolId
  | .start r => r.pools
  | .reopen r => r.pools

def target : AdmissionRequest → AttemptRef
  | .start r => ⟨r.attemptId,r.generation⟩
  | .reopen r => r.attempt

end AdmissionRequest

structure Slot where
  attempt : AttemptRef
  admissionId : DecisionId
  pools : List PoolId := []
  admittedAt : Seconds
  chargeEndedAt : Option Seconds := none
  deriving DecidableEq, Repr

structure SchedulingState where
  queue : List AdmissionRequest := []
  slots : List Slot := []
  admissionClosed : Bool := false
  releasedSlotSeconds : Seconds := 0
  deriving DecidableEq, Repr

inductive ControlKind
  | pause | resume | drain | cancel
  deriving DecidableEq, Repr

inductive SchedulingEvent
  | attemptRequested (request : AttemptRequest)
  | attemptReopenRequested (request : AttemptReopenRequest)
  | attemptReady (attempt : AttemptRef) (admissionId : DecisionId)
  | slotReleased (attempt : AttemptRef) (admissionId : DecisionId)
  | slotChargeEnded (attempt : AttemptRef) (admissionId : DecisionId) (endedAt : Seconds)
  | queueEntryRetired (attempt : AttemptRef) (admissionId : DecisionId)
  | clockAdvanced (nowAt : Seconds)
  | admissionControl (action : ControlKind)
  | adoptionFenceLifted
  | parallelLimitChanged
  deriving DecidableEq, Repr

inductive RejectionCode
  | identityConflict | ownership | closedScope | budget
  deriving DecidableEq, Repr

inductive StrategyEvent
  | rejected (decisionId : DecisionId) (code : RejectionCode) (path : List String) (detail : String)
  | ready (attempt : AttemptRef) (admissionId : DecisionId)
  deriving DecidableEq, Repr

inductive Signal
  | admitAttempt (request : AdmissionRequest)
  | registerAttempt (request : AttemptRequest)
  | retireRequested (attempt : AttemptRef) (disposition : Disposition) (authority : RequestId)
      (admissionId : DecisionId) (requestedAt : Seconds)
  | runDrained
  | runSessionsDrainRequested (scope : Scope) (authority : DecisionId)
  | runJobsCancelRequested (scope : Scope) (authority : DecisionId)
  | observationsDue (nowAt : Seconds)
  | retryDue (requestId : RequestId) (nowAt : Seconds)
  deriving DecidableEq, Repr

structure AreaChange where
  state : SchedulingState
  signals : List Signal := []
  events : List StrategyEvent := []
  deriving DecidableEq, Repr

structure ContractValidationError where
  path : String
  detail : String
  deriving DecidableEq, Repr

abbrev Outcome := Except ContractValidationError

namespace SchedulingContext

def owner (context : SchedulingContext) (target : AttemptRef) : Option AttemptView :=
  context.attempts.find? fun attempt =>
    attempt.attemptId = target.attemptId ∧ attempt.generation = target.generation

def mode (context : SchedulingContext) (target : AttemptRef) (admissionId : DecisionId) : Outcome WorkspaceMode :=
  match context.owner target with
  | some owner => .ok owner.workspaceMode
  | none =>
    match (context.run.receipts.find? fun receipt => receipt.decisionId = admissionId).bind (·.decision) with
    | some (.start decision) => .ok decision.workspaceMode
    | _ => .error ⟨"decision_id","admission has no canonical workspace plan"⟩

def acceptedDecision (context : SchedulingContext) (id : DecisionId) : Option Command :=
  (acceptedReceiptFor context.run.receipts id).bind (·.decision)

/-- Rows of the queue that are not registered yet reserve budget. -/
def remaining (context : SchedulingContext) (queue : List AdmissionRequest) : ℤ :=
  let reserved := (queue.map fun
    | .start request => if (context.owner (AdmissionRequest.start request).target).isNone then request.admissionCharge else 0
    | .reopen _ => 0).sum
  admissionRemaining context.attempts context.run.maxAttempts reserved

def committedStops (context : SchedulingContext) : List Finish :=
  context.run.receipts.filterMap fun receipt =>
    match receipt.decision,receipt.feedback with
    | some (.finish decision),.accepted id =>
      if receipt.decisionId = decision.decisionId ∧ decision.decisionId = id ∧
          decision.scope.owner = context.run.runId ∧ decision.scope.generation = context.run.generation then
        some decision
      else none
    | _,_ => none

def accepting (context : SchedulingContext) : Bool :=
  let openRun := context.run.status = .running && context.run.result = none
  (openRun || stopDraining context.run) && context.run.nowAt < context.run.deadlineAt

def registration (context : SchedulingContext) (target : AttemptRef) : Option StartAttempt :=
  context.run.receipts.findSome? fun receipt =>
    match context.acceptedDecision receipt.decisionId with
    | some (.start decision) =>
      if decision.scope.owner = context.run.runId ∧ decision.attemptId = target.attemptId ∧
          decision.scope.generation = target.generation then some decision
      else none
    | _ => none

def validateStart (context : SchedulingContext) (request : AttemptRequest) : Option (RejectionCode × String) :=
  let target : AttemptRef := ⟨request.attemptId,request.generation⟩
  match context.acceptedDecision request.decisionId with
  | some (.start decision) =>
    if decision.scope.owner ≠ context.run.runId then some (.ownership,"start requires canonical accepted decision")
    else if (request.attemptId,request.itemId,request.generation,request.admissionCharge) ≠
        (decision.attemptId,decision.itemId,decision.scope.generation,decision.admissionCharge) then
      some (.identityConflict,"start differs from canonical decision")
    else
      match context.owner target with
      | none => none
      | some owner =>
        if context.registration target ≠ some decision then
          some (.ownership,"attempt has a different registration authority")
        else if owner.itemId ≠ request.itemId ∨ ¬owner.charges.any fun charge =>
            charge.kind = .admission && charge.charged = request.admissionCharge && charge.historicalProof.isNone then
          some (.ownership,"queued owner requires its live admission receipt")
        else none
  | _ => some (.ownership,"start requires canonical accepted decision")

def reopenReplayed (context : SchedulingContext) (request : AttemptReopenRequest) : Bool :=
  (match context.owner request.attempt with
    | some owner => owner.admissionId = some request.decisionId ||
        owner.closure.any fun closure => closure.admissionId = request.decisionId
    | none => false) ||
  context.run.receipts.any fun receipt => receipt.decisionId = request.decisionId && receipt.completed

def reopenDeclared (context : SchedulingContext) (decision : Operation) : Bool :=
  match decision.registeredWire with
  | none => false
  | some wire => context.run.operations.any fun descriptor =>
      descriptor.normalization = .scopeReopen &&
      ({ kind := descriptor.kind, requestSchema := descriptor.requestSchema
         outcomeSchema := descriptor.outcomeSchema, lifecycle := descriptor.lifecycle } : OperationSchemaRef) = wire

def reopenProved (context : SchedulingContext) (request : AttemptReopenRequest) : Bool :=
  match context.owner request.attempt with
  | none => false
  | some owner =>
    match owner.closure with
    | none => false
    | some closure =>
      if owner.phase ≠ .parked ∨ owner.releaseDependencies ≠ [] ∨ context.reopenReplayed request then false
      else
        match context.acceptedDecision request.decisionId with
        | some (.operation decision) =>
          context.reopenDeclared decision && decision.scope.owner = context.run.runId &&
          decision.scope.generation = context.run.generation &&
          request.requestId = s!"operation:{decision.decisionId}" &&
          (match decision.normalizedScopeReopen with
            | none => false
            | some normalization => decision.registeredScopeReopen = some normalization &&
                normalization.attempt = request.attempt && normalization.parkAuthority = closure.authority) &&
          closure.disposition = .park
        | _ => false

/-- A row of the queue has its proof. Only the step that registers an attempt may admit one not registered. -/
def admissionProved (context : SchedulingContext) (request : AdmissionRequest) (registering : Option AttemptRequest) : Bool :=
  match request with
  | .reopen request => context.reopenProved request
  | .start request =>
    match context.owner (AdmissionRequest.start request).target with
    | none => registering = some request
    | some owner => owner.phase = .queued && owner.closure.isNone && (context.validateStart request).isNone

def deadlineRetirements (context : SchedulingContext) (queue : List AdmissionRequest) : List Signal :=
  let liveRun := context.run.status = .running || context.run.status = .paused
  if context.run.nowAt < context.run.deadlineAt ∨
      ¬((liveRun && context.run.result = none) || stopDraining context.run) then []
  else (queue.filter fun request => context.admissionProved request none).map fun request =>
    .retireRequested request.target .cancel s!"deadline:{request.decisionId}" request.decisionId context.run.nowAt

def anyExclusive (context : SchedulingContext) : List Slot → Outcome Bool
  | [] => .ok false
  | slot :: slots => do
    let mode ← context.mode slot.attempt slot.admissionId
    if mode = .exclusiveRoot then .ok true else context.anyExclusive slots

/-- The one gate of admission: capacity, pools and the root. -/
def fits (context : SchedulingContext) (slots : List Slot) (request : AdmissionRequest) : Outcome Bool :=
  if slots.any fun slot => slot.attempt.attemptId = request.target.attemptId then .ok false
  else if parallelLimit context.run ≤ slots.length then .ok false
  else if slots.any fun slot => request.pools.any fun pool => slot.pools.contains pool then .ok false
  else do
    let mode ← context.mode request.target request.decisionId
    if mode ≠ .exclusiveRoot then .ok true
    else if context.fencesRootMutation then .ok false
    else do
      let taken ← context.anyExclusive slots
      .ok (!taken)

def slotOf (context : SchedulingContext) (request : AdmissionRequest) : Slot :=
  { attempt := request.target, admissionId := request.decisionId, pools := request.pools
    admittedAt := context.run.nowAt }

/-- The filling loop: slots and queue after it, and whom it admitted. -/
def fillLoop (context : SchedulingContext) (registering : Option AttemptRequest) :
    List Slot → List AdmissionRequest → Outcome (List Slot × List AdmissionRequest × List AdmissionRequest)
  | slots,[] => .ok (slots,[],[])
  | slots,head :: rest =>
    if ¬context.accepting then .ok (slots,head :: rest,[])
    else if ¬context.admissionProved head registering then .ok (slots,head :: rest,[])
    else do
      if ← context.fits slots head then
        let (slots,queue,admitted) ← context.fillLoop registering (slots ++ [context.slotOf head]) rest
        .ok (slots,queue,head :: admitted)
      else .ok (slots,head :: rest,[])

end SchedulingContext

namespace SchedulingState

variable (state : SchedulingState) (context : SchedulingContext)

def fill (registering : Option AttemptRequest) (retireExpired : Bool) : Outcome AreaChange := do
  let retirements := if retireExpired then context.deadlineRetirements state.queue else []
  let (slots,queue,admitted) ← context.fillLoop registering state.slots state.queue
  let drained : List Signal :=
    if state.admissionClosed ∧ queue = [] ∧ slots = [] ∧ context.run.status = .closing ∧
        (committedStop context.run).isSome then [.runDrained]
    else []
  .ok { state := { state with queue := queue, slots := slots }
        signals := retirements ++ admitted.map .admitAttempt ++ drained }

def reject (request : AdmissionRequest) (code : RejectionCode) (detail : String) : AreaChange :=
  { state := state, events := [.rejected request.decisionId code ["scheduling"] detail] }

def existingDuplicate (request : AdmissionRequest) : Option AreaChange :=
  match request with
  | .reopen reopen => if context.reopenReplayed reopen then some { state := state } else none
  | .start _ =>
    match context.owner request.target with
    | some owner =>
      if owner.phase ≠ .queued then some (state.reject request .ownership "attempt already registered") else none
    | none => none

/-- The queued row that answers a request sent again, or one of its attempt. -/
def queuedDuplicate (request : AdmissionRequest) : Option AreaChange :=
  state.queue.findSome? fun queued =>
    if queued.decisionId = request.decisionId then
      some (if queued = request then { state := state }
        else state.reject request .identityConflict "queued payload changed")
    else if queued.target = request.target then some (state.reject request .ownership "attempt already queued")
    else none

def slotDuplicate (request : AdmissionRequest) : Option AreaChange :=
  (state.slots.find? fun slot => slot.attempt = request.target).map fun slot =>
    if slot.admissionId = request.decisionId ∧ slot.pools = request.pools then { state := state }
    else state.reject request .ownership "attempt already occupies capacity"

def duplicate (request : AdmissionRequest) : Option AreaChange :=
  (state.queuedDuplicate request).or ((state.slotDuplicate request).or (state.existingDuplicate context request))

/-- The answer to a request that is not queued, or none for one that is. -/
def refusal (request : AdmissionRequest) : Outcome (Option AreaChange) :=
  let invalid : Option AreaChange := match request with
    | .start start => (context.validateStart start).map fun r => state.reject request r.1 r.2
    | .reopen _ => none
  match invalid.or (state.duplicate context request) with
  | some change => .ok (some change)
  | none =>
    if state.admissionClosed ∨ context.run.status = .closing ∨ context.run.status = .blocked ∨
        context.run.status = .terminal ∨ context.run.result ≠ none ∨ context.run.deadlineAt ≤ context.run.nowAt then
      .ok (some (state.reject request .closedScope "admission is closed"))
    else
      let refused : Option AreaChange := match request with
        | .start start =>
          if context.owner request.target = none ∧ context.remaining state.queue < start.admissionCharge then
            some (state.reject request .budget "admission budget exhausted")
          else none
        | .reopen reopen =>
          if context.reopenProved reopen then none
          else some (state.reject request .ownership
            "reentry requires declared canonical operation and exact park authority")
      match refused with
      | some change => .ok (some change)
      | none =>
        if request.pools.Nodup then .ok none else .error ⟨"pools","duplicate resource pool"⟩

def registers (request : AdmissionRequest) : Option AttemptRequest :=
  match request with
  | .start start => if context.owner request.target = none then some start else none
  | .reopen _ => none

def enqueue (request : AdmissionRequest) : Outcome AreaChange := do
  match ← state.refusal context request with
  | some change => .ok change
  | none =>
    let registering := registers context request
    let filled ← { state with queue := state.queue ++ [request] }.fill context registering true
    .ok { filled with signals := (registering.map Signal.registerAttempt).toList ++ filled.signals }

/-- The slots with the end of the charge of one episode noted. -/
def endedSlots (attempt : AttemptRef) (admissionId : DecisionId) (endedAt : Seconds) :
    List Slot → Outcome (List Slot)
  | [] => .ok []
  | slot :: slots =>
    if slot.attempt ≠ attempt ∨ slot.admissionId ≠ admissionId ∨ slot.chargeEndedAt ≠ none then do
      let rest ← endedSlots attempt admissionId endedAt slots
      .ok (slot :: rest)
    else if endedAt < slot.admittedAt then .error ⟨"ended_at","precedes occupancy admission"⟩
    else do
      let rest ← endedSlots attempt admissionId endedAt slots
      .ok ({ slot with chargeEndedAt := some endedAt } :: rest)

def endCharge (attempt : AttemptRef) (admissionId : DecisionId) (endedAt : Seconds) : Outcome AreaChange := do
  let slots ← endedSlots attempt admissionId endedAt state.slots
  .ok { state := { state with slots := slots } }

def release (attempt : AttemptRef) (admissionId : DecisionId) : Outcome AreaChange :=
  match state.slots.find? fun slot => slot.attempt = attempt ∧ slot.admissionId = admissionId with
  | none => .ok { state := state }
  | some slot =>
    let end_ := slot.chargeEndedAt.getD context.run.nowAt
    { state with
      slots := state.slots.filter fun held => held ≠ slot
      releasedSlotSeconds := state.releasedSlotSeconds+max 0 (end_-slot.admittedAt) }.fill context none true

/-- What a cancel asks for, or none where no cancel of the run stands. -/
def cancel : Option (List Signal) :=
  if context.run.status ≠ .closing then none
  else
    match committedStop context.run with
    | none => none
    | some decision =>
      if stopMode context.run ≠ some .cancel then none
      else
        let episodes := state.slots.map (fun slot => (slot.attempt,slot.admissionId)) ++
          state.queue.map fun request => (request.target,request.decisionId)
        some (.runJobsCancelRequested decision.scope decision.decisionId ::
          episodes.filterMap fun episode =>
            match context.owner episode.1 with
            | some owner =>
              if owner.closure.all fun closure => closure.admissionId ≠ episode.2 then
                some (.retireRequested episode.1 .cancel s!"stop:{decision.decisionId}:{episode.2}" episode.2
                  context.run.nowAt)
              else none
            | none => none)

def stopReplay : Option AreaChange :=
  let stops := context.committedStops
  if stops.length ≤ 1 then none
  else stops.getLast?.map fun stop =>
    { state := state
      events := [.rejected stop.decisionId .closedScope ["run","result"]
        "first committed stop retains its result and disposition"] }

def runSessionsDrain : List Signal :=
  match committedStop context.run with
  | none => []
  | some stop => [.runSessionsDrainRequested stop.scope stop.decisionId]

def control (action : ControlKind) : Outcome AreaChange :=
  if action = .pause ∧ context.run.status ≠ .paused then
    .error ⟨"admission_control.run.status","pause requires the run's committed PAUSED status"⟩
  else if action = .resume then
    if context.run.status ≠ .running ∨ context.run.result ≠ none then .ok { state := state }
    else { state with admissionClosed := false }.fill context none true
  else
    match state.stopReplay context with
    | some refusal => .ok refusal
    | none =>
      match (if action = .cancel then state.cancel context else some []) with
      | none => .ok { state := state }
      | some cancellations =>
        let closed := { state with admissionClosed := true }
        if action = .pause then .ok { state := closed }
        else do
          let drained ← closed.fill context none true
          .ok { drained with signals := cancellations ++ runSessionsDrain context ++ drained.signals }

def retiredEntry (attempt : AttemptRef) (admissionId : DecisionId) (request : AdmissionRequest) : Bool :=
  request.target = attempt && request.decisionId = admissionId

def ready (attempt : AttemptRef) (admissionId : DecisionId) : AreaChange :=
  let valid := (context.owner attempt).any (fun owner =>
      owner.phase = .active && owner.admissionId = some admissionId && owner.closure.isNone) &&
    state.slots.any fun slot =>
      slot.attempt = attempt && slot.admissionId = admissionId && slot.chargeEndedAt.isNone
  { state := state, events := if valid then [.ready attempt admissionId] else [] }

def dueRetries : List Signal :=
  (context.retryWaits.filter fun wait => wait.until_ ≤ context.run.nowAt).map fun wait =>
    .retryDue wait.requestId context.run.nowAt

def schedule : SchedulingEvent → Outcome AreaChange
  | .attemptRequested request => state.enqueue context (.start request)
  | .attemptReopenRequested request => state.enqueue context (.reopen request)
  | .slotChargeEnded attempt admissionId endedAt => state.endCharge attempt admissionId endedAt
  | .slotReleased attempt admissionId => state.release context attempt admissionId
  | .attemptReady attempt admissionId => .ok (state.ready context attempt admissionId)
  | .queueEntryRetired attempt admissionId =>
    { state with queue := state.queue.filter fun request => !retiredEntry attempt admissionId request }.fill
      context none false
  | .clockAdvanced nowAt =>
    if nowAt < context.run.nowAt then .error ⟨"now_at","clock moved backwards"⟩
    else do
      let filled ← state.fill context none true
      .ok { filled with signals := filled.signals ++ .observationsDue context.run.nowAt :: dueRetries context }
  | .admissionControl action => state.control context action
  | .adoptionFenceLifted => state.fill context none true
  | .parallelLimitChanged => state.fill context none true

end SchedulingState
end Vibesys.Admission
