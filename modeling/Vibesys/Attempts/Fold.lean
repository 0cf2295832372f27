import Mathlib.Algebra.Order.Field.Rat
import Mathlib.Data.List.Basic

/-!
# The attempts of open steps

What the fold of a run's log writes about the attempts of its steps, and what it reads to admit a start. An attempt
begins with a record, and a later record ends it: an interruption, or the first one of a later epoch, which proves its
process dead. What the rest of core decides about a step is a `Kernel`.
-/
namespace Vibesys.Attempts

inductive Interruption
  | pause | shutdown | raised | lost
  deriving DecidableEq

def Interruption.charged : Interruption → Bool
  | raised | lost => true
  | pause | shutdown => false

structure StepAttempts where
  tag : String
  started : ℕ
  ended : Bool := false
  uncharged : ℤ := 0
  unsettled : Bool := false
  deadlineAt : Option ℚ := none
  chargedAt : Option ℚ := none

def StepAttempts.charged (row : StepAttempts) : ℤ := row.started - row.uncharged

inductive RequestPhase
  | prepared | dispatched | reconciling | completed | blocked
  deriving DecidableEq

def phaseOpen : RequestPhase → Bool
  | .prepared | .dispatched | .reconciling => true
  | .completed | .blocked => false

inductive RunStatus
  | running | paused | closing | terminal | blocked | draining | parked
  deriving DecidableEq

inductive DependencyStatus
  | pending | succeeded | failed
  deriving DecidableEq

inductive CancelReason
  | runEnding | withdrawn | deadline | pauseNow | drainExpired | interrupted
  deriving DecidableEq

inductive Action
  | run (attempt : ℕ) (deadlineAt : ℚ) (clearFirst : Bool)
  | cancel (reason : CancelReason)
  | settleCancelled (reason : CancelReason)
  | settleExhausted

inductive RefusalReason
  | stepNotOpen | startNotDue | attemptMismatch | resultMismatch
  deriving DecidableEq

structure Refusal where
  reason : RefusalReason
  tag : String
  detail : String

structure RequestRecord (ρ : Type) where
  requestId : String
  request : ρ
  phase : RequestPhase := .prepared
  untilAt : ℚ
  dispatchedAt : Option ℚ := none
  dispatchedIn : Option ℕ := none

structure Core (ρ κ : Type) where
  records : List (RequestRecord ρ)
  status : RunStatus
  rest : κ

structure State (ρ κ : Type) where
  epoch : ℕ := 0
  attempts : List StepAttempts := []
  nowAt : ℚ
  core : Core ρ κ

/-- What core decides of a step from the rest of its state, and what it makes of its inputs. None of it writes the
attempts, but for the limits a quota pause moves. -/
structure Kernel (ρ κ ε : Type) where
  command : ρ → Bool
  ownedJob : ρ → Bool
  endPolicyCancels : ρ → Bool
  cancelsInterrupted : ρ → Bool
  retryLimit : ρ → ℕ
  delay : ℤ → ℚ
  reconciliationBound : ℚ
  immediatePark : State ρ κ → Option Bool
  pauseCancels : State ρ κ → ρ → Bool
  runIsEnding : State ρ κ → Bool
  withdrawnByClose : State ρ κ → RequestRecord ρ → Bool
  firedWatch : State ρ κ → RequestRecord ρ → Bool
  dependencyStatus : State ρ κ → ρ → DependencyStatus
  limitOf : State ρ κ → RequestRecord ρ → ℚ
  starts : State ρ κ → RequestRecord ρ → DependencyStatus → Bool
  startedUntil : State ρ κ → RequestRecord ρ → ℚ
  creditedRecords : State ρ κ → ℚ → List (RequestRecord ρ)
  creditedDeadline : State ρ κ → ℚ → StepAttempts → Option ℚ
  hostEpoch : Bool → ℕ → κ → κ
  settlePark : State ρ κ → Core ρ κ
  settleEnd : State ρ κ → Core ρ κ
  clockOf : ε → Option ℚ
  stepped : State ρ κ → ε → Core ρ κ
  concluded : State ρ κ → String → ε → Core ρ κ
  finished : State ρ κ → String → ε → Core ρ κ

variable {ρ κ ε : Type}

def State.of (s : State ρ κ) (tag : String) : Option StepAttempts := s.attempts.find? (fun row => row.tag == tag)

def State.find (s : State ρ κ) (tag : String) : List (RequestRecord ρ) :=
  s.core.records.filter (fun record => record.requestId == tag)

def State.withRow (s : State ρ κ) (tag : String) (row : StepAttempts) : State ρ κ :=
  {s with attempts := s.attempts.filter (fun other => other.tag != tag) ++ [row]}

def State.forgotten (s : State ρ κ) (tag : String) : State ρ κ :=
  {s with attempts := s.attempts.filter (fun other => other.tag != tag)}

def State.replaced (s : State ρ κ) (record : RequestRecord ρ) : State ρ κ :=
  {s with core := {s.core with
    records := s.core.records.map (fun other => if other.requestId = record.requestId then record else other)}}

namespace Kernel

variable (k : Kernel ρ κ ε)

def isOpen (record : RequestRecord ρ) : Bool := !k.command record.request && phaseOpen record.phase

def commandOpen (record : RequestRecord ρ) : Bool := k.command record.request && phaseOpen record.phase

def notOpen (tag : String) : Refusal := ⟨.stepNotOpen,tag,s!"the log names step {tag}, which is not open"⟩

def openRecord (s : State ρ κ) (tag : String) : Except Refusal (RequestRecord ρ) :=
  match s.find tag with
  | [record] => if k.isOpen record then .ok record else .error (notOpen tag)
  | _ => .error (notOpen tag)

def endedByCore (s : State ρ κ) (tag : String) : Except Refusal Bool :=
  match s.find tag with
  | [record] => .ok (!k.isOpen record)
  | [] => .error ⟨.stepNotOpen,tag,s!"the log names step {tag}, which the run never held"⟩
  | _ => .error ⟨.stepNotOpen,tag,s!"the log names step {tag} more than once"⟩

def resent (record : RequestRecord ρ) (nowAt : ℚ) : RequestRecord ρ :=
  {record with
    phase := .prepared
    untilAt := if k.commandOpen record then max record.untilAt (nowAt + k.reconciliationBound) else record.untilAt}

def unstarted (s : State ρ κ) (record : RequestRecord ρ) : RequestRecord ρ :=
  let again := k.resent record s.nowAt
  match (s.of record.requestId).bind StepAttempts.deadlineAt with
  | none => again
  | some deadlineAt => {again with untilAt := deadlineAt}

def returned (s : State ρ κ) (tag : String) : Except Refusal (State ρ κ) := do
  let record ← k.openRecord s tag
  if record.phase = .prepared then pure s else pure (s.replaced (k.unstarted s record))

/-- The row of an attempt of an earlier epoch: a park ended it, or its work is in an unknown state. -/
def endedRow (parked : Bool) (row : StepAttempts) : StepAttempts :=
  {row with
    ended := true
    uncharged := row.uncharged + (if row.ended then 0 else 1)
    unsettled := row.unsettled || (!row.ended && !parked)}

def endRows (parked : Bool) : State ρ κ → List StepAttempts → Except Refusal (List StepAttempts × State ρ κ)
  | s,[] => .ok ([],s)
  | s,row :: rows => do
    if ← k.endedByCore s row.tag then endRows parked s rows
    else
      let s ← k.returned s row.tag
      let (rest,s) ← endRows parked s rows
      pure (endedRow parked row :: rest,s)

def commandsLapsed (s : State ρ κ) : State ρ κ :=
  s.core.records.foldl
    (fun s record => if k.commandOpen record then s.replaced {record with phase := .blocked} else s) s

def sent (record : RequestRecord ρ) : Bool :=
  record.phase != .prepared || record.dispatchedAt.isSome || record.dispatchedIn.isSome

/-- The attempt of an earlier version of the program: the log's first, ended and uncharged. -/
def firstRow (record : RequestRecord ρ) : StepAttempts :=
  {tag := record.requestId,started := 1,ended := true,uncharged := 1,deadlineAt := some record.untilAt}

def settledRecord (s : State ρ κ) (record : RequestRecord ρ) : Except Refusal (State ρ κ) :=
  if k.isOpen record && (s.of record.requestId).isNone && sent record then
    k.returned (s.withRow record.requestId (firstRow record)) record.requestId
  else pure s

def earlierVersionSettled (s : State ρ κ) : Except Refusal (State ρ κ) :=
  let s := k.commandsLapsed s
  s.core.records.foldlM k.settledRecord s

def epochOpened (s : State ρ κ) (epoch : ℕ) : Except Refusal (State ρ κ) :=
  if epoch ≤ s.epoch then pure s
  else do
    let origin : Bool := s.epoch == 0
    let (rows,s) ← k.endRows (s.core.status == .parked) s s.attempts
    let s := {s with attempts := rows}
    let s ← (if origin then k.earlierVersionSettled s else pure s)
    pure {s with epoch := epoch,core := {s.core with rest := k.hostEpoch origin epoch s.core.rest}}

def attemptMismatch (tag detail : String) : Refusal := ⟨.attemptMismatch,tag,detail⟩

def started [DecidableEq ρ] (s : State ρ κ) (tag : String) (attempt : ℕ) (request : ρ) (deadline : ℚ) :
    Except Refusal (State ρ κ) := do
  let record ← k.openRecord s tag
  let previous := s.of tag
  let expected := previous.elim 1 (fun row => row.started + 1)
  if attempt ≠ expected ∨ record.request ≠ request ∨ previous.any (fun row => !row.ended) then
    throw (attemptMismatch tag s!"the log starts attempt {attempt} of step {tag}, not its attempt {expected}")
  let record := if record.phase = .prepared then
    {record with phase := .dispatched,untilAt := deadline,dispatchedAt := some s.nowAt} else record
  let row : StepAttempts := {
    tag := tag
    started := attempt
    uncharged := previous.elim 0 (·.uncharged)
    deadlineAt := previous.elim (some deadline) (·.deadlineAt)
    chargedAt := previous.elim none (·.chargedAt)}
  pure ((s.replaced record).withRow tag row)

def lost (s : State ρ κ) (tag : String) (attempt : ℕ) (row : Option StepAttempts) (byCore : Bool) :
    Except Refusal (State ρ κ) :=
  match row with
  | some row =>
    if row.started = attempt ∧ row.unsettled then
      if byCore then .ok (s.forgotten tag)
      else .ok (s.withRow tag
        {row with uncharged := row.uncharged - 1,unsettled := false,chargedAt := some s.nowAt})
    else .error (attemptMismatch tag
      s!"the log loses attempt {attempt} of step {tag}, which no dead host left open")
  | none => .error (attemptMismatch tag
      s!"the log loses attempt {attempt} of step {tag}, which no dead host left open")

def interrupted (s : State ρ κ) (tag : String) (attempt : ℕ) (why : Interruption) : Except Refusal (State ρ κ) := do
  let byCore ← k.endedByCore s tag
  if why = .lost then lost s tag attempt (s.of tag) byCore
  else
    match s.of tag with
    | some row =>
      if row.started = attempt ∧ !row.ended then
        if byCore then pure (s.forgotten tag)
        else
          let s' ← k.returned s tag
          pure (s'.withRow tag {row with
            ended := true
            uncharged := row.uncharged + (if why.charged then 0 else 1)
            chargedAt := if why.charged then some s.nowAt else row.chargedAt})
      else throw (attemptMismatch tag
        s!"the log interrupts attempt {attempt} of step {tag}, which is not running")
    | none => throw (attemptMismatch tag
        s!"the log interrupts attempt {attempt} of step {tag}, which is not running")

/-! ## When a start is due -/

def advanceRunTime (s : State ρ κ) (now : ℚ) : State ρ κ :=
  let nowAt := max now s.nowAt
  if nowAt = s.nowAt then s
  else
    {s with
      nowAt := nowAt
      attempts := s.attempts.map (fun row => {row with deadlineAt := k.creditedDeadline s nowAt row})
      core := {s.core with records := k.creditedRecords s nowAt}}

def running (s : State ρ κ) (record : RequestRecord ρ) : Bool :=
  (s.of record.requestId).any (fun row => !row.ended)

def parkIsDue (recorded now : State ρ κ) : Bool :=
  recorded.core.status == .draining && (k.settlePark now).status == .parked

def runEndsStep (s : State ρ κ) (record : RequestRecord ρ) : Bool :=
  k.runIsEnding s && (s.core.status == .terminal || k.endPolicyCancels record.request)

def stopRunning (s : State ρ κ) (record : RequestRecord ρ) (now : ℚ) : Option Action :=
  if k.limitOf s record ≤ now then some (.cancel .deadline)
  else
    match k.immediatePark s with
    | some immediate =>
      if k.pauseCancels s record.request then
        some (.cancel (if immediate || k.ownedJob record.request then .pauseNow else .drainExpired))
      else none
    | none => none

/-- The run clock before which the backoff of the charges holds the next attempt, if it does. -/
def retryAt (s : State ρ κ) (attempts : Option StepAttempts) : Option ℚ :=
  match attempts with
  | none => none
  | some row => if k.runIsEnding s then none else row.chargedAt.map (fun at_ => at_ + k.delay row.charged)

def startOrSettle (s : State ρ κ) (record : RequestRecord ρ) (now : ℚ) : Option Action :=
  let attempts := s.of record.requestId
  let dependencies := k.dependencyStatus s record.request
  if dependencies = .failed then some (.settleCancelled .withdrawn)
  else if attempts.isSome ∧ k.cancelsInterrupted record.request then some (.settleCancelled .interrupted)
  else if attempts.any (fun row => decide ((k.retryLimit record.request : ℤ) < row.charged)) then
    some .settleExhausted
  else if k.limitOf s record ≤ now then some (.settleCancelled .deadline)
  else if !k.starts s record dependencies || (k.retryAt s attempts).any (fun at_ => decide (now < at_)) then none
  else some (.run (attempts.elim 1 (fun row => row.started + 1)) (k.startedUntil s record) attempts.isSome)

def ofStep (s : State ρ κ) (record : RequestRecord ρ) (now : ℚ) : Option Action :=
  let cancelled (reason : CancelReason) : Action :=
    if running s record then .cancel reason else .settleCancelled reason
  if k.runEndsStep s record then some (cancelled .runEnding)
  else if k.withdrawnByClose s record then some (cancelled .withdrawn)
  else if k.firedWatch s record then some (cancelled .withdrawn)
  else if running s record then k.stopRunning s record now
  else k.startOrSettle s record now

def startDue (s : State ρ κ) (tag : String) (now : ℚ) : Except Refusal Action :=
  match (s.find tag).head? with
  | none => .error (notOpen tag)
  | some record =>
    if k.isOpen record then
      let advanced := k.advanceRunTime s now
      match if k.parkIsDue s advanced then none else k.ofStep advanced record now with
      | some (.run attempt deadlineAt clearFirst) => .ok (.run attempt deadlineAt clearFirst)
      | _ => .error ⟨.startNotDue,tag,s!"the log starts step {tag} in a run that may not start it"⟩
    else .error (notOpen tag)

/-! ## The fold of one record -/

def start [DecidableEq ρ] (s : State ρ κ) (tag : String) (attempt : ℕ) (request : ρ) (deadline : ℚ) :
    Except Refusal (State ρ κ) := do
  let _ ← k.openRecord s tag
  let _ ← k.startDue s tag s.nowAt
  k.started s tag attempt request deadline

def reportedBy (s : State ρ κ) (tag : String) (attempt : ℕ) : Except Refusal Unit :=
  let latest := (s.of tag).elim 0 StepAttempts.started
  if attempt = latest then .ok ()
  else .error (attemptMismatch tag
    s!"the log finishes attempt {attempt} of step {tag}, whose latest is {latest}")

def parked (s : State ρ κ) : State ρ κ := {s with core := k.settlePark s}

def finish (s : State ρ κ) (tag : String) (attempt : ℕ) (result : ε) : Except Refusal (State ρ κ) := do
  let byCore ← k.endedByCore s tag
  reportedBy s tag attempt
  if byCore then pure (k.parked ({s with core := k.concluded s tag result}.forgotten tag))
  else
    let s := {s with core := k.finished s tag result}
    if (s.find tag).any k.isOpen then
      throw ⟨.resultMismatch,tag,s!"the log finishes step {tag} with an observation that does not end it"⟩
    else pure (k.parked (s.forgotten tag))

def observed (s : State ρ κ) (epoch : ℕ) (clock : Option ℚ) : Except Refusal (State ρ κ) := do
  let opened ← k.epochOpened s epoch
  let opened := if epoch ≤ s.epoch then opened else k.parked opened
  pure (clock.elim opened (k.advanceRunTime opened))

end Kernel

/-- What a record of the log holds: an input of core's is a pause, a resume, a tick, an advance of the search. -/
inductive Body (ρ ε : Type)
  | stepStarted (tag : String) (attempt : ℕ) (request : ρ) (deadline : ℚ)
  | attemptInterrupted (tag : String) (attempt : ℕ) (why : Interruption)
  | stepFinished (tag : String) (attempt : ℕ) (result : ε)
  | coreInput (event : ε)
  | other

structure Record (ρ ε : Type) where
  epoch : ℕ
  clock : Option ℚ := none
  body : Body ρ ε

namespace Kernel

variable [DecidableEq ρ] (k : Kernel ρ κ ε)

def applyBody (s : State ρ κ) : Body ρ ε → Except Refusal (State ρ κ)
  | .stepStarted tag attempt request deadline => k.start s tag attempt request deadline
  | .attemptInterrupted tag attempt why => do
    let s ← k.interrupted s tag attempt why
    pure (k.parked s)
  | .stepFinished tag attempt result => k.finish s tag attempt result
  | .coreInput event =>
    let s := (k.clockOf event).elim s (k.advanceRunTime s)
    pure {s with core := k.stepped s event}
  | .other => pure s

def applyRecord (s : State ρ κ) (record : Record ρ ε) : Except Refusal (State ρ κ) := do
  let s ← k.observed s record.epoch record.clock
  let s ← k.applyBody s record.body
  pure {s with core := k.settleEnd s}

end Kernel

end Vibesys.Attempts
