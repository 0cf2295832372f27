import Vibesys.Lifecycle.Settle
import Vibesys.Schedule.Model

/-!
# One job in the machine

The entry the machine keeps of a job, the events it is told and the requests it makes, and what
each event does to the entry of the job it is about. The handlers of the source find the entry,
change it in place and return requests; here each is a function from the entry to the entry and
the requests.
-/
namespace Vibesys.Lifecycle
open Vibesys.Core Vibesys.Schedule

/-- The id of a store: a hex digest, so it has no dash. -/
structure StoreID where
  text : String
  noDash : '-' ∉ text.toList
  deriving DecidableEq

structure Ref where
  store : StoreID
  job : JobID
  deriving DecidableEq

instance : Inhabited Ref := ⟨⟨⟨"",by simp⟩,""⟩⟩

def Ref.String (r : Ref) : String := r.store.text ++ "-" ++ r.job

def idOf (ref : Ref) : Schedule.ID := ref.String

inductive Phase
  | queued | discarding | launching | running | stopping | settling | cancelling | unrecorded | inDoubt | left
  deriving DecidableEq, Repr

/-- What a job asks of the machine; `kind` is `none` for work the machine was not told. -/
structure Work where
  options : List JobOption := []
  run : RunID := ""
  kind : Option JobKind := none
  deriving DecidableEq, Repr

def Work.told (w : Work) : Bool := !w.options.isEmpty || w.kind.isSome

inductive RunPhase
  | parked | running | finished | released
  deriving DecidableEq, Repr

inductive Presence
  | none_
  | alive (phase : RunPhase) (limit : Duration)
  | dead (proof : DeathProof) (start : Option Start)
  | unknown (limit : Duration)
  deriving DecidableEq, Repr

structure JobIn where
  state : JobState
  submittedAt : Time
  givenUp : Bool
  attempts : ℕ
  policy : Option RerunPolicy
  work : Work
  deriving DecidableEq, Repr

inductive Finding
  | storeAway
  | noSuchJob
  | jobIn (job : JobIn)
  deriving DecidableEq, Repr

def Finding.job : Finding → Option JobIn
  | .jobIn f => some f
  | _ => none

inductive Cause
  | storeAway | supervisorSilent | refused | unprepared
  deriving DecidableEq, Repr

structure Admitted where
  ref : Ref
  submittedAt : Time
  attempts : ℕ := 0
  policy : Option RerunPolicy := none
  work : Work := {}

structure Recovered where
  ref : Ref
  finding : Finding
  supervisor : Presence
  at_ : Time

structure CancelAsked where
  ref : Ref
  reason : String
  state : JobState
  submittedAt : Time
  at_ : Time

structure LaunchFailed where
  ref : Ref
  cause : Cause
  failure : Failure
  at_ : Time

structure LeaseRefused where
  ref : Ref
  resource : ResourceID
  holder : LeaseHolder
  detail : String
  at_ : Time

structure Finished where
  ref : Ref
  outcome : Outcome
  at_ : Time

structure SupervisorLost where
  ref : Ref
  proof : DeathProof
  start : Option Start
  at_ : Time

structure FollowFailed where
  ref : Ref
  cause : Cause
  failure : Failure
  at_ : Time

structure LeftRun where
  ref : Ref
  supervisor : Presence

structure StoreForgotten where
  store : StoreID
  left : List LeftRun
  at_ : Time

inductive Event
  | admitted (e : Admitted)
  | recovered (e : Recovered)
  | cancelAsked (e : CancelAsked)
  | discarded (ref : Ref) (at_ : Time)
  | launched (ref : Ref)
  | launchFailed (e : LaunchFailed)
  | leaseRefused (e : LeaseRefused)
  | finished (e : Finished)
  | supervisorLost (e : SupervisorLost)
  | followFailed (e : FollowFailed)
  | stopFailed (ref : Ref) (failure : Failure)
  | cancelFailed (ref : Ref)
  | moveFailed (ref : Ref) (failure : Failure)
  | discardFailed (ref : Ref) (failure : Failure)
  | retryDue (ref : Ref)
  | recoveryDone
  | storeUnread (store : StoreID) (failure : Failure)
  | storeRead (store : StoreID)
  | storeForgotten (e : StoreForgotten)
  | closed (ref : Ref)
  | requeued (ref : Ref)

inductive Request
  | launch (ref : Ref) (placement : String) (leases : List ResourceID)
  | adopt (ref : Ref) (cancelFirst : Bool) (cancelReason : String) (leases : List ResourceID)
  | signalCancel (ref : Ref) (reason : String)
  | stop (ref : Ref) (reason : String)
  | armRetry (ref : Ref)
  | reexamine (ref : Ref)
  | move (ref : Ref) (settlement : Settlement) (release : Bool)
  | discard (ref : Ref) (queued : Bool)
  deriving DecidableEq

def Request.Target : Request → Ref
  | .launch ref _ _ => ref
  | .adopt ref _ _ _ => ref
  | .signalCancel ref _ => ref
  | .stop ref _ => ref
  | .armRetry ref => ref
  | .reexamine ref => ref
  | .move ref _ _ => ref
  | .discard ref _ => ref

/-- What the machine keeps of a job. The defaults are the zero values of the source, except that a
zero phase and a zero failure, which nothing reads, have no value of their own here. -/
structure Entry where
  ref : Ref := default
  submittedAt : Time := 0
  seq : ℕ := 0
  phase : Phase := .queued
  cancelAsked : Bool := false
  cancelReason : String := ""
  cancelSent : Bool := false
  settlement : Settlement := .zero
  release : Bool := false
  trouble : Failure := ⟨.unavailable,""⟩
  armed : Bool := false
  waiting : Bool := false
  holds : Bool := false
  holdUntil : Time := 0
  parked : Bool := false
  attempts : ℕ := 0
  policy : Option RerunPolicy := none
  spawnFailures : ℕ := 0
  work : Work := {}
  placed : Option JobOption := none
  wait : Option WaitReason := none
  refused : String := ""
  leased : Option LeasedOut := none
  deriving DecidableEq

def StopReason : String := "the daemon could not follow the job: "

namespace Entry

/-- Where a job may run: its work's options or, for a job whose work the machine was not told,
anywhere, holding every resource for itself alone. -/
def optionsOf (resources : List Resource) (e : Entry) : List JobOption :=
  if e.work.told then e.work.options
  else Only (resources.map fun r => ⟨r.id,1,true⟩)

/-- Of a resource two places claim, the most either claims. -/
def mostClaimed (c : Claim) : List Claim → List Claim
  | [] => [c]
  | h :: out =>
    if h.resource = c.resource then
      { h with amount := max h.amount c.amount, exclusive := h.exclusive || c.exclusive } :: out
    else h :: mostClaimed c out

/-- What a job holds while it holds the machine. -/
def heldClaims (resources : List Resource) (e : Entry) : List Claim :=
  match e.placed,e.optionsOf resources with
  | some o,_ => o.claims
  | none,[o] => o.claims
  | none,options => (options.flatMap JobOption.claims).foldl (fun out c => mostClaimed c out) []

/-- The resources a job holds alone, each once and in order. -/
def leasesOf (resources : List Resource) (e : Entry) : List ResourceID :=
  (((e.heldClaims resources).filter Claim.exclusive).map Claim.resource).foldl
    (fun out r => if r ∈ out then out else out ++ [r]) [] |>.insertionSort (· ≤ ·)

def holdsMachine (e : Entry) : Bool :=
  match e.phase with
  | .queued | .discarding | .cancelling | .unrecorded => false
  | .inDoubt | .left => e.holds
  | .launching | .running | .stopping | .settling => true

/-- A parked job in doubt does not block its store. -/
def blocksStore (e : Entry) : Bool :=
  (e.phase = .inDoubt && !e.parked) ||
    (e.phase = .unrecorded && e.settlement.transition.from_ = .running)

def admitted (e : Admitted) (seq : ℕ) : Entry :=
  { ref := e.ref, submittedAt := e.submittedAt, seq := seq, phase := .queued
    attempts := e.attempts, policy := e.policy, work := e.work }

/-- Has the job wait for a retry, arming one unless one is on its way. -/
def awaitRetry (cur : Entry) : Entry × List Request :=
  ({ cur with waiting := true, armed := true },if cur.armed then [] else [.armRetry cur.ref])

def settle (cur : Entry) (st : Settlement) : Entry × List Request :=
  ({ cur with phase := .settling, settlement := st, release := true },[.move cur.ref st true])

def cancelQueuedJob (cur : Entry) (at_ : Time) : Entry × List Request :=
  let st := cancelQueued cur.ref.job cur.cancelReason at_
  ({ cur with phase := .cancelling, settlement := st, release := false },[.move cur.ref st false])

/-- A job back in the queue stays there, unless its cancel was asked for in the meantime. -/
def unlessCancelled (cur : Entry) (at_ : Time) : Entry × List Request :=
  if cur.cancelAsked then cur.cancelQueuedJob at_ else (cur,[])

/-- Remembers the first cancel asked for. -/
def noteCancel (cur : Entry) (reason : String) : Entry :=
  if cur.cancelAsked then cur else { cur with cancelAsked := true, cancelReason := reason }

def signalOnce (cur : Entry) : Entry × List Request :=
  if cur.cancelSent then (cur,[]) else ({ cur with cancelSent := true },[.signalCancel cur.ref cur.cancelReason])

def cancel (cur : Entry) (e : CancelAsked) : Entry × List Request :=
  match cur.phase with
  | .queued => ({ cur with cancelAsked := true, cancelReason := e.reason }).cancelQueuedJob e.at_
  | .discarding | .launching | .inDoubt => (cur.noteCancel e.reason,[])
  | .running => (cur.noteCancel e.reason).signalOnce
  | .settling | .unrecorded => if cur.settlement.Requeues then (cur.noteCancel e.reason,[]) else (cur,[])
  | .stopping | .cancelling | .left => (cur,[])

def cancelFailed (cur : Entry) : Entry × List Request :=
  if cur.phase = .running ∨ cur.phase = .inDoubt then ({ cur with cancelSent := false }).awaitRetry
  else (cur,[])

def discarded (cur : Entry) (at_ : Time) : Entry × List Request :=
  if cur.phase = .discarding then ({ cur with phase := .queued, placed := none }).unlessCancelled at_
  else (cur,[])

/-- Takes up the supervisor of a job: the cancel asked for by then is told to it first. -/
def adoptRequest (resources : List Resource) (cur : Entry) : Request :=
  .adopt cur.ref cur.cancelAsked cur.cancelReason (cur.leasesOf resources)

def follow (resources : List Resource) (cur : Entry) : Entry × List Request :=
  ({ cur with cancelSent := cur.cancelAsked },[cur.adoptRequest resources])

def launched (resources : List Resource) (cur : Entry) : Entry × List Request :=
  if cur.phase = .launching then ({ cur with phase := .running }).follow resources else (cur,[])

/-- The cancel of a job whose launch failed: its store may have it running when it was away. -/
def cancelLaunch (cause : Cause) (st : Settlement) : Settlement :=
  if cause = .storeAway then { st with transition := { st.transition with from_ := .running } } else st

/-- No supervisor came up: the launch is tried again a bounded number of times. -/
def spawnFailed (cur : Entry) (e : LaunchFailed) : Entry × List Request :=
  if cur.spawnFailures < MaxAttempts then
    ({ cur with phase := .discarding, trouble := e.failure },[.discard e.ref true])
  else cur.settle (failedToLaunch e.ref.job e.failure e.at_)

def launchFailed (cur : Entry) (e : LaunchFailed) : Entry × List Request :=
  if cur.phase ≠ .launching then (cur,[])
  else if cur.cancelAsked then cur.settle (cancelLaunch e.cause (cancelQueued e.ref.job cur.cancelReason e.at_))
  else match e.cause with
    | .storeAway => ({ cur with phase := .inDoubt, trouble := e.failure }).awaitRetry
    | .supervisorSilent => ({ cur with spawnFailures := cur.spawnFailures+1 }).spawnFailed e
    | .refused | .unprepared => cur.settle (failedToLaunch e.ref.job e.failure e.at_)

def leaseRefused (cur : Entry) (e : LeaseRefused) : Entry × List Request :=
  if cur.phase ≠ .launching then (cur,[])
  else if cur.cancelAsked then cur.settle (cancelQueued e.ref.job cur.cancelReason e.at_)
  else ({ cur with phase := .queued, placed := none, leased := some ⟨e.resource,e.holder,e.detail⟩ }).awaitRetry

def finished (cur : Entry) (e : Finished) : Entry × List Request :=
  match cur.phase with
  | .running => cur.settle (Settle e.ref.job .running e.outcome e.at_)
  | .stopping => cur.settle (stoppedJob e.ref.job cur.trouble e.at_)
  | _ => (cur,[])

/-- Settles a job whose attempt was cut off. A dead run is released once the store has the job
queued again. -/
def settleCut (cur : Entry) (st : Settlement) : Entry × List Request :=
  if st.Requeues then ({ cur with phase := .settling, settlement := st, release := false },[.move cur.ref st false])
  else cur.settle st

/-- Settles a running job whose supervisor is proved gone. A job the user asked to cancel is never
run again. -/
def cutOff (cur : Entry) (proof : DeathProof) (start : Option Start) (at_ : Time) : Entry × List Request :=
  if cur.cancelAsked then cur.settle (lostJob cur.ref.job at_)
  else cur.settleCut (CutOff cur.ref.job cur.policy cur.attempts proof start at_)

/-- Takes the job out of the daemon's hands until a look says more. -/
def lookAgain (cur : Entry) (trouble : Failure) : Entry × List Request :=
  ({ cur with phase := .inDoubt, trouble := trouble, holds := true },[.reexamine cur.ref])

def lost (cur : Entry) (e : SupervisorLost) : Entry × List Request :=
  if cur.phase ≠ .running ∧ cur.phase ≠ .stopping then (cur,[])
  else if !e.proof.Valid then
    cur.lookAgain ⟨.unavailable,"its supervisor stopped answering, which proves nothing"⟩
  else if cur.phase = .stopping then cur.settle (lostJob e.ref.job e.at_)
  else cur.cutOff e.proof e.start e.at_

def requeued (cur : Entry) : Entry × List Request :=
  if cur.settlement.Requeues ∧ (cur.phase = .settling ∨ cur.phase = .unrecorded) then
    ({ cur with
        attempts := cur.attempts+1, phase := .discarding, settlement := .zero, cancelSent := false
        holds := false, holdUntil := 0
        trouble := ⟨.unavailable,"the run of its attempt that was cut off is being released"⟩ },
      [.discard cur.ref true])
  else (cur,[])

def followFailed (cur : Entry) (e : FollowFailed) : Entry × List Request :=
  if cur.phase ≠ .running then (cur,[])
  else if e.cause = .storeAway then cur.lookAgain e.failure
  else ({ cur with phase := .stopping, trouble := e.failure },[.stop e.ref (StopReason ++ e.failure.message)])

def stopFailed (cur : Entry) (failure : Failure) : Entry × List Request :=
  if cur.phase = .stopping then
    ({ cur with phase := .inDoubt, trouble := failure, holds := true }).awaitRetry
  else (cur,[])

def moveFailed (cur : Entry) (failure : Failure) : Entry × List Request :=
  match cur.phase with
  | .settling | .cancelling | .unrecorded => ({ cur with phase := .unrecorded, trouble := failure }).awaitRetry
  | _ => (cur,[])

def discardFailed (cur : Entry) (failure : Failure) : Entry × List Request :=
  if cur.phase = .discarding then ({ cur with trouble := failure }).awaitRetry else (cur,[])

def rested (cur : Entry) : Entry := { cur with armed := false, waiting := false }

def retryDue (cur : Entry) : Entry × List Request :=
  if !cur.waiting then (cur.rested,[])
  else match cur.phase with
    | .unrecorded => (cur.rested,[.move cur.ref cur.settlement cur.release])
    | .inDoubt | .left => (cur.rested,[.reexamine cur.ref])
    | .discarding => (cur.rested,[.discard cur.ref true])
    | .running => if cur.cancelAsked then cur.rested.signalOnce else (cur.rested,[])
    | .queued => ({ cur.rested with leased := none },[])
    | .launching | .stopping | .settling | .cancelling => (cur.rested,[])

/-- The longest a command of what was found can run; zero when none can. -/
def runLimit : Presence → Duration
  | .alive .running limit => limit
  | .unknown limit => limit
  | _ => 0

/-- When a job with a command of this limit stops holding the machine: the first look decides. -/
def bound (cur : Entry) (limit : Duration) (at_ : Time) : Time :=
  if limit ≤ 0 ∨ !Time.IsZero cur.holdUntil then cur.holdUntil else at_+limit

/-- Decides whether a job in doubt holds the machine, from what was found of its supervisor: one
whose command can run holds it for at most its limit from the first look. -/
def judgeHold (cur : Entry) (p : Presence) (at_ : Time) : Entry :=
  { cur with
    holdUntil := cur.bound (runLimit p) at_
    holds := 0 < runLimit p && at_ < cur.bound (runLimit p) at_ }

/-- A job that was not held (its `seq` is zero) comes in with the sequence number `fresh`. -/
def known (kept : Entry) (e : Recovered) (fresh : ℕ) : Entry :=
  if kept.seq = 0 then { ref := e.ref, seq := fresh, submittedAt := e.finding.job.elim 0 JobIn.submittedAt }
  else kept

/-- The store keeps the attempts, so its word on them is the latest. -/
def told (cur : Entry) (f : Option JobIn) : Entry :=
  { cur with
    attempts := f.elim cur.attempts JobIn.attempts
    policy := f.elim cur.policy JobIn.policy
    work := f.elim cur.work fun f => if f.work.told then f.work else cur.work }

/-- The entry of a job placed in a phase by a look, keeping what it was told before. -/
def place (kept : Entry) (e : Recovered) (fresh : ℕ) (phase : Phase) : Entry :=
  { (kept.known e fresh).told e.finding.job with
    phase := phase, waiting := false, holds := false, parked := false, placed := none, leased := none
    holdUntil := if phase = .inDoubt then (kept.known e fresh).holdUntil else 0 }

/-- Why a look left a job in doubt. -/
def doubtOf (e : Recovered) : String :=
  match e.finding,e.supervisor with
  | .storeAway,_ => "its store cannot be read"
  | _,.none_ =>
    "the store has it running and there is no sign of a run here: if the place that ran it is gone for good, remove the store's owner record and the job is marked lost"
  | _,_ =>
    "its supervisor gives no answer this build can use, and may still run: if the place that ran it is gone for good, remove the store's owner record and the job is marked lost once its time limit has passed"

def aliveIn : Presence → Bool
  | .alive _ _ => true
  | _ => false

def doubted (kept : Entry) (e : Recovered) (fresh : ℕ) : Entry :=
  ({ kept.place e fresh .inDoubt with trouble := ⟨.unavailable,doubtOf e⟩ }).judgeHold e.supervisor e.at_

/-- A cancel needs the supervisor only, so it goes on while the store cannot be read. -/
def signalAlive (p : Presence) (cur : Entry) : Entry × List Request :=
  if aliveIn p && cur.cancelAsked then cur.signalOnce else (cur,[])

/-- Keeps a job the machine cannot judge, and asks for another look. -/
def inDoubt (kept : Entry) (e : Recovered) (fresh : ℕ) : Entry × List Request :=
  let waits := (kept.doubted e fresh).awaitRetry
  let asks := waits.1.signalAlive e.supervisor
  (asks.1,waits.2 ++ asks.2)

/-- Nothing found of the job can be running its command any more. -/
def past (probe : Entry) (at_ : Time) : Bool :=
  !probe.holds && (Time.IsZero probe.holdUntil || !(at_ < probe.holdUntil))

/-- A running job the machine cannot judge stays in doubt, unless its store gave up the place that
ran it and nothing found of it here can be running its command. -/
def doubtUnlessGivenUp (kept : Entry) (e : Recovered) (fresh : ℕ) : Entry × List Request :=
  if e.finding.job.any JobIn.givenUp && (kept.judgeHold e.supervisor e.at_).past e.at_ then
    (kept.place e fresh .running).settle (givenUpJob e.ref.job e.at_)
  else kept.inDoubt e fresh

/-- Places a job its store has running, by what is left of its supervisor. -/
def recoverRunning (resources : List Resource) (kept : Entry) (e : Recovered) (fresh : ℕ) : Entry × List Request :=
  match e.supervisor with
  | .alive .parked _ =>
    ({ kept.place e fresh .inDoubt with
        parked := true, trouble := ⟨.unavailable,"its command waits for the machine"⟩ },[])
  | .alive _ _ => (kept.place e fresh .running).follow resources
  | .dead proof start =>
    if !proof.Valid then kept.doubtUnlessGivenUp e fresh
    else (kept.place e fresh .running).cutOff proof start e.at_
  | _ => kept.doubtUnlessGivenUp e fresh

/-- A job that needs the daemon no more: what is left of its run is discarded once it is judged. -/
def recoverEnded (e : Recovered) : List Request :=
  match e.supervisor with
  | .alive _ _ | .dead _ _ => [.discard e.ref false]
  | _ => []

/-- Places a job its store has queued: whatever an earlier launch left is released first. -/
def recoverQueuedAfresh (kept : Entry) (e : Recovered) (fresh : ℕ) : Entry × List Request :=
  match e.supervisor with
  | .none_ => (kept.place e fresh .queued).unlessCancelled e.at_
  | .alive _ _ | .dead _ _ => (kept.place e fresh .discarding,[.discard e.ref true])
  | .unknown _ => kept.inDoubt e fresh

/-- What a look makes of a job that was not held, or was in doubt: its entry, if it has one. -/
def recover (resources : List Resource) (kept : Entry) (e : Recovered) (fresh : ℕ) : Option Entry × List Request :=
  match e.finding with
  | .jobIn f =>
    match f.state with
    | .queued => (kept.recoverQueuedAfresh e fresh).map some id
    | .running => (kept.recoverRunning resources e fresh).map some id
    | _ => (none,recoverEnded e)
  | .noSuchJob => (none,recoverEnded e)
  | .storeAway =>
    if e.supervisor = .none_ ∧ kept.seq = 0 then (none,[]) else (kept.inDoubt e fresh).map some id

/-- Judges again whether a left job's command can still run. -/
def recoverLeft (cur : Entry) (e : Recovered) : Option Entry × List Request :=
  if (cur.judgeHold e.supervisor e.at_).holds then
    (cur.judgeHold e.supervisor e.at_).awaitRetry.map some id
  else (none,[])

/-- What stays of a job whose store is given up and whose run the shell could not end. -/
def leftOver (was : Entry) (run : LeftRun) (at_ : Time) : Entry :=
  ({ ref := run.ref, submittedAt := was.submittedAt, seq := was.seq, phase := .left
     holdUntil := was.holdUntil, work := was.work } : Entry).judgeHold run.supervisor at_

def adopt (cur : Entry) : Entry :=
  { cur with phase := .running, parked := false, cancelSent := cur.cancelAsked, holdUntil := 0 }

def unwaited (cur : Entry) : Entry := { cur with wait := none, refused := "" }

/-- What a decision of the scheduler does to its job: a parked job is taken up, and a queued one is
launched where the scheduler placed it. -/
def decided (cur : Entry) : Decision → Entry
  | .start _ option =>
    if cur.parked then ({ cur with placed := some option }).adopt
    else { cur with placed := some option, phase := .launching }
  | .wait _ why => { cur with wait := some why }
  | .refuse _ detail => { cur with refused := detail }

def decidedRequests (resources : List Resource) (cur : Entry) : Decision → List Request
  | .start id option =>
    if cur.parked then [(cur.decided (.start id option)).adoptRequest resources]
    else [.launch cur.ref option.placement ((cur.decided (.start id option)).leasesOf resources)]
  | _ => []

end Entry
end Vibesys.Lifecycle
