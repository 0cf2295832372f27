import Vibesys.Library.Roster
import Vibesys.Lifecycle.Entry

/-!
# The machine

`Step` applies one event to the machine's memory and returns the requests it asks for. An event
about a job changes that job's entry as `Vibesys.Lifecycle.Entry` says; then the machine takes up
the parked jobs whose cancel was asked for and starts what the scheduler admits.
-/
namespace Vibesys.Lifecycle
open Vibesys.Core Vibesys.Schedule Vibesys.Library

structure Scheduling where
  resources : List Resource
  rules : Rules := {}

def OneAtATime : Scheduling := { resources := [⟨DefaultPlacement,1⟩] }

structure AwayStore where
  id : StoreID
  failure : Failure
  deriving DecidableEq

/-- The machine's whole memory. The jobs it holds are a roster: no two entries are of one job. -/
structure State where
  entries : Roster Entry.ref
  seq : ℕ
  recovering : Bool
  unread : List AwayStore
  scheduling : Scheduling
  recent : List Grant

def RecoveringWith (sc : Scheduling) : State where
  entries := ∅
  seq := 0
  recovering := true
  unread := []
  scheduling := sc
  recent := []

def Recovering : State := RecoveringWith OneAtATime

namespace State

def find (s : State) (ref : Ref) : Option Entry := s.entries.find ref

/-- What jobs claim; with no resources configured the machine runs one job at a time. -/
def resources (s : State) : List Resource :=
  if s.scheduling.resources = [] then OneAtATime.resources else s.scheduling.resources

def isUnread (s : State) (id : StoreID) : Bool := s.unread.any fun a => a.id = id

def markRead (s : State) (id : StoreID) : State := { s with unread := s.unread.filter fun a => a.id ≠ id }

def remove (s : State) (ref : Ref) : State := { s with entries := s.entries.remove ref }

/-- An event about a job the machine holds changes its entry in place; any other is ignored. -/
def onJob (s : State) (ref : Ref) (f : Entry → Entry × List Request) : State × List Request :=
  match s.find ref with
  | some cur => ({ s with entries := s.entries.put (f cur).1 },(f cur).2)
  | none => (s,[])

def admitJob (s : State) (e : Admitted) : State :=
  if (s.find e.ref).isSome then s
  else { s with seq := s.seq+1, entries := s.entries.push (.admitted e (s.seq+1)) }

/-- The machine with the entry a look made of a job, if it made one, after the others. -/
def lookedAt (s : State) (kept : Entry) (x : Option Entry × List Request) : State × List Request :=
  match x.1 with
  | some cur =>
    ({ s with entries := s.entries.push cur, seq := if kept.seq = 0 then s.seq+1 else s.seq },x.2)
  | none => (s,x.2)

/-- Applies what a look at a job and its run found. Only a job in doubt is looked at twice, and a
queued one can have a run left: any other job the machine holds is already on its way. -/
def recover (s : State) (e : Recovered) : State × List Request :=
  match s.find e.ref with
  | none => s.lookedAt {} (Entry.recover s.resources {} e (s.seq+1))
  | some cur =>
    match cur.phase with
    | .queued =>
      if e.finding.job.any (fun f => f.state = .queued) then
        (s.remove e.ref).lookedAt cur ((cur.recoverQueuedAfresh e (s.seq+1)).map some id)
      else (s,[])
    | .inDoubt => (s.remove e.ref).lookedAt cur (cur.recover s.resources e (s.seq+1))
    | .left =>
      match cur.recoverLeft e with
      | (some left,reqs) => ({ s with entries := s.entries.put left },reqs)
      | (none,reqs) => (s.remove e.ref,reqs)
    | .discarding | .launching | .running | .stopping | .settling | .cancelling | .unrecorded => (s,[])

/-- A cancel of a queued job the machine does not know takes it in first. -/
def cancel (s : State) (e : CancelAsked) : State × List Request :=
  if (s.find e.ref).isNone ∧ e.state ≠ .queued then (s,[])
  else (s.admitJob { ref := e.ref, submittedAt := e.submittedAt }).onJob e.ref fun cur => cur.cancel e

/-- Keeps a left job whose command may still run. -/
def keepLeft (x : State × List Request) (left : Entry) (seq : ℕ) : State × List Request :=
  if left.holds then
    ({ x.1 with seq := seq, entries := x.1.entries.push left.awaitRetry.1 },x.2 ++ left.awaitRetry.2)
  else ({ x.1 with seq := seq },x.2)

/-- One run the shell could not end: its job stays, as a left one, while its command may run. -/
def leave (was : Roster Entry.ref) (e : StoreForgotten) (x : State × List Request) (run : LeftRun) :
    State × List Request :=
  if run.ref.store ≠ e.store ∨ (x.1.find run.ref).isSome then x
  else match was.find run.ref with
    | some cur => keepLeft x (cur.leftOver run e.at_) x.1.seq
    | none => keepLeft x (({ seq := x.1.seq+1 } : Entry).leftOver run e.at_) (x.1.seq+1)

def forgotten (s : State) (e : StoreForgotten) : State × List Request :=
  let was := s.entries.filter fun cur => cur.ref.store = e.store
  let s := { s.markRead e.store with entries := s.entries.filter fun cur => cur.ref.store ≠ e.store }
  e.left.foldl (leave was e) (s,[])

/-- What the event itself changes, before the scheduler is asked. -/
def handle (s : State) : Event → State × List Request
  | .admitted e => (s.admitJob e,[])
  | .recovered e => s.recover e
  | .cancelAsked e => s.cancel e
  | .discarded ref at_ => s.onJob ref fun cur => cur.discarded at_
  | .launched ref => s.onJob ref fun cur => cur.launched s.resources
  | .launchFailed e => s.onJob e.ref fun cur => cur.launchFailed e
  | .leaseRefused e => s.onJob e.ref fun cur => cur.leaseRefused e
  | .finished e => s.onJob e.ref fun cur => cur.finished e
  | .supervisorLost e => s.onJob e.ref fun cur => cur.lost e
  | .followFailed e => s.onJob e.ref fun cur => cur.followFailed e
  | .stopFailed ref failure => s.onJob ref fun cur => cur.stopFailed failure
  | .cancelFailed ref => s.onJob ref fun cur => cur.cancelFailed
  | .moveFailed ref failure => s.onJob ref fun cur => cur.moveFailed failure
  | .discardFailed ref failure => s.onJob ref fun cur => cur.discardFailed failure
  | .retryDue ref => s.onJob ref fun cur => cur.retryDue
  | .recoveryDone => ({ s with recovering := false },[])
  | .storeUnread store failure =>
    (if s.isUnread store then s else { s with unread := s.unread ++ [⟨store,failure⟩] },[])
  | .storeRead store => (s.markRead store,[])
  | .storeForgotten e => s.forgotten e
  | .closed ref => (s.remove ref,[])
  | .requeued ref => s.onJob ref fun cur => cur.requeued

/-- A job of the store may not start: the store was not read, or it can show a job running that has
ended or that the daemon cannot judge. -/
def storeBlocked (s : State) (id : StoreID) : Bool :=
  s.isUnread id || s.entries.items.any fun e => e.ref.store = id && e.blocksStore

def takesUpCancelled (e : Entry) : Bool := e.parked && e.cancelAsked

/-- The entry once the cancelled jobs are taken up and why the others waited is forgotten. -/
def takenUp (e : Entry) : Entry := (if takesUpCancelled e then e.adopt else e).unwaited

lemma takenUp_ref (e : Entry) : (takenUp e).ref = e.ref := by
  by_cases h : takesUpCancelled e = true <;> simp [takenUp,h,Entry.adopt,Entry.unwaited]

def adoptCancelled (s : State) : State × List Request :=
  ({ s with entries := s.entries.map takenUp takenUp_ref },
    (s.entries.items.filter takesUpCancelled).map fun e => e.adopt.adoptRequest s.resources)

def candidate (s : State) (e : Entry) (first : Bool) : Candidate where
  id := idOf e.ref
  options := e.optionsOf s.resources
  run := e.work.run
  submitted := e.submittedAt
  seq := e.seq
  first := first
  leased := e.leased

def holding (s : State) (e : Entry) : Holding := ⟨idOf e.ref,e.heldClaims s.resources,e.work.run⟩

def candidateOf (s : State) (e : Entry) : Option Candidate :=
  if e.holdsMachine then none
  else if e.parked then some (s.candidate e true)
  else if e.phase = .queued ∧ !s.storeBlocked e.ref.store then some (s.candidate e false)
  else none

def scheduled (s : State) : Schedule.State where
  resources := s.resources
  holdings := (s.entries.items.filter Entry.holdsMachine).map s.holding
  waiting := s.entries.items.filterMap s.candidateOf
  recent := s.recent

/-- The recent grants after a decision: one that starts the job grants it what it claims there. -/
def remembered (recent : List Grant) (cur : Entry) : Decision → List Grant
  | .start _ option => Remember recent [⟨cur.work.run,option.claims⟩]
  | _ => recent

def decided (x : State × List Request) (d : Decision) : State × List Request :=
  match x.1.entries.items.find? (fun e => idOf e.ref = d.Target) with
  | none => x
  | some cur =>
    ({ x.1 with entries := x.1.entries.put (cur.decided d), recent := remembered x.1.recent cur d },
      x.2 ++ cur.decidedRequests x.1.resources d)

def schedule (s : State) : State × List Request :=
  if s.recovering then s.adoptCancelled
  else (Schedule.step s.adoptCancelled.1.scheduled s.scheduling.rules).foldl decided s.adoptCancelled

end State

/-- Applies one event to the state, and returns the new state and the requests it asks for. -/
def Step (s : State) (e : Event) : State × List Request :=
  let handled := s.handle e
  let started := handled.1.schedule
  (started.1,handled.2 ++ started.2)

end Vibesys.Lifecycle
