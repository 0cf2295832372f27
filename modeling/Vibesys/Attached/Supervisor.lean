import Vibesys.Library.Run
import Vibesys.Lifecycle.Entry

/-!
# One job's supervisor

A supervisor is called from several threads: `Start`, `Cancel`, `Release` and `Close`, each under its mutex, the
thread that runs the command, the command's writes, and any number of `Attach` calls. An act of the world is what
one of these threads does between two places where another may come in. `Notify` is an act of its own wherever the
source calls it after what it announces: `owed` counts the calls that have made their change and have not yet
notified.

What `executeCommand` and `executePlan` do is the command here: it writes any bytes and ends in any way. Bytes are
of any type.
-/
namespace Vibesys.Attached

open Library Lifecycle
open Vibesys.Core (Failure failf)

variable {B : Type*}

/-- What is read of a launch: where this attempt's output starts in the job's, and whether it carries a plan. -/
structure Launch where
  OutputBase : ℕ
  plan : Bool

/-- `changed.Signal`: its channels are numbered as they are made. Those before `closed` are closed, and `ch` says
whether the next one has been made. -/
structure Signal where
  closed : ℕ := 0
  ch : Bool := false
  deriving DecidableEq

def Signal.Wait (s : Signal) : ℕ × Signal := (s.closed,{ s with ch := true })

def Signal.Notify (s : Signal) : Signal := if s.ch then ⟨s.closed + 1,false⟩ else s

/-- How far the thread of `run` is. -/
inductive Runner
  | idle
  | begun
  | executing
  | ended (outcome : Outcome)
  | recorded
  | told
  | done
  deriving DecidableEq

structure Supervisor (B : Type*) where
  phase : RunPhase := .parked
  cancelAsked : Bool := false
  cancelReason : String := ""
  outcome : Outcome := ⟨none,false,""⟩
  /-- The context of the command has ended. -/
  ctxDone : Bool := false
  released : Bool := false
  changed : Signal := {}
  spool : List B := []
  runner : Runner := .idle
  /-- How often the command was started. -/
  started : ℕ := 0
  owed : ℕ := 0
  /-- Where the last write that succeeded ended. -/
  announced : ℕ := 0
  deriving DecidableEq

/-- What happens to a supervisor apart from its `Attach` calls. -/
inductive Call (B : Type*)
  | Start
  | Cancel (reason : String)
  | Release
  | Close
  | execute
  | write (data : List B) (ok : Bool)
  | commandEnds (end_ : End)
  | record
  | notifyEnd
  | closeDone
  | notify

namespace Supervisor

def Start (s : Supervisor B) : Supervisor B × Option Failure :=
  match s.phase with
  | .running => (s,none)
  | .finished => (s,none)
  | .released => (s,some (failf .conflict "the supervisor was released and cannot start"))
  | .parked => ({ s with phase := .running, runner := .begun },none)

def Cancel (s : Supervisor B) (reason : String) : Supervisor B :=
  if s.phase = .finished ∨ s.phase = .released ∨ s.cancelAsked then s
  else { s with cancelAsked := true, cancelReason := reason, ctxDone := true }

def Release (s : Supervisor B) : Supervisor B × Option Failure :=
  match s.phase with
  | .released => (s,none)
  | .running =>
    (s,some (failf .conflict "the job is running; cancel it and release it after its outcome is recorded"))
  | _ => ({ s with phase := .released, ctxDone := true, released := true, owed := s.owed + 1 },none)

def cancelled (l : Launch) : End :=
  if l.plan then .flowEnded (some (.stopped ⟨.cancelled,0⟩)) else .commandEnded (some (.ended ⟨.cancelled,0⟩))

/-- `execute` looks at the cancel mark once, before it starts anything. -/
def execute (l : Launch) (s : Supervisor B) : Supervisor B :=
  if s.cancelAsked then { s with runner := .ended ⟨some (cancelled l),false,""⟩ }
  else { s with runner := .executing, started := s.started + 1 }

/-- `Append` of a write that fails may have taken a part of the bytes, and nobody is notified of it. -/
def write (s : Supervisor B) (data : List B) (ok : Bool) : Supervisor B :=
  if ok then { s with spool := s.spool ++ data, announced := (s.spool ++ data).length, owed := s.owed + 1 }
  else { s with spool := s.spool ++ data }

def record (s : Supervisor B) (outcome : Outcome) : Supervisor B :=
  { s with outcome := ⟨outcome.end_,s.cancelAsked,s.cancelReason⟩
           phase := if s.phase = .running then .finished else s.phase
           runner := .recorded }

/-- A call that is not due changes nothing. -/
def step (l : Launch) (s : Supervisor B) : Call B → Supervisor B
  | .Start => s.Start.1
  | .Cancel reason => s.Cancel reason
  | .Release => s.Release.1
  | .Close => { s with ctxDone := true }
  | .execute => if s.runner = .begun then s.execute l else s
  | .write data ok => if s.runner = .executing then s.write data ok else s
  | .commandEnds end_ => if s.runner = .executing then { s with runner := .ended ⟨some end_,false,""⟩ } else s
  | .record =>
    match s.runner with
    | .ended outcome => s.record outcome
    | _ => s
  | .notifyEnd => if s.runner = .recorded then { s with runner := .told, changed := s.changed.Notify } else s
  | .closeDone => if s.runner = .told then { s with runner := .done } else s
  | .notify => if 0 < s.owed then { s with owed := s.owed - 1, changed := s.changed.Notify } else s

end Supervisor

/-- How an `Attach` ends. -/
inductive Ending
  | outcome (o : Outcome)
  | refused (f : Failure)
  | errReleased
  | context
  | unread (f : Failure)
  | unpassed (err : String)
  deriving DecidableEq

/-- Where an `Attach` is: before it takes its channel, before it reads the phase, before it reads the spool,
before it passes on what it read, in its select, or over. -/
inductive Place (B : Type*)
  | top
  | holds (wake : ℕ)
  | drains (wake : ℕ) (phase : RunPhase) (outcome : Outcome)
  | passes (wake : ℕ) (phase : RunPhase) (outcome : Outcome) (data : List B)
  | sleeps (wake : ℕ)
  | returned (ending : Ending)
  deriving DecidableEq

structure Attach (B : Type*) where
  offset : ℕ
  pos : ℕ
  place : Place B
  /-- The calls of `emit`. -/
  emitted : List (ℕ × List B) := []
  ctxDone : Bool := false
  deriving DecidableEq

/-- What an `Attach` does next, with what the spool and `emit` answer it. -/
inductive Turn
  | take
  | look
  | drain (n : ℕ)
  | failRead (err : String)
  | pass (err : Option String)
  | wake
  | ctxEnds
  | leave
  deriving DecidableEq

namespace Attach

def start (l : Launch) (offset : ℕ) : Attach B :=
  if offset < l.OutputBase then
    { offset := offset, pos := 0
      place := .returned (.refused (failf .invalidInput
        s!"the job's output from offset {offset} was asked for, and this attempt's starts at {l.OutputBase}")) }
  else { offset := offset, pos := offset - l.OutputBase, place := .top }

/-- The phase read before the drain decides what comes after it. -/
def drained (a : Attach B) (wake : ℕ) (phase : RunPhase) (outcome : Outcome) : Attach B :=
  { a with place := if phase = .finished then .returned (.outcome outcome) else .sleeps wake }

/-- A read fills at least one byte and at most the buffer, or is at the end of the spool. -/
def read (s : Supervisor B) (a : Attach B) (n : ℕ) : List B := (s.spool.drop a.pos).take (min (n + 1) 32768)

def turn (l : Launch) (s : Supervisor B) (a : Attach B) : Turn → Attach B
  | .take =>
    match a.place with
    | .top => { a with place := .holds s.changed.Wait.1 }
    | _ => a
  | .look =>
    match a.place with
    | .holds wake =>
      { a with place := if s.phase = .released then .returned .errReleased else .drains wake s.phase s.outcome }
    | _ => a
  | .drain n =>
    match a.place with
    | .drains wake phase outcome =>
      if a.read s n = [] then a.drained wake phase outcome
      else { a with place := .passes wake phase outcome (a.read s n) }
    | _ => a
  | .failRead err =>
    match a.place with
    | .drains _ _ _ => { a with place := .returned (.unread (failf .internal s!"reading the job's output: {err}")) }
    | _ => a
  | .pass err =>
    match a.place with
    | .passes wake phase outcome data =>
      let passed := { a with emitted := a.emitted ++ [(l.OutputBase + a.pos,data)] }
      match err with
      | some e => { passed with place := .returned (.unpassed e) }
      | none => { passed with pos := a.pos + data.length, place := .drains wake phase outcome }
    | _ => a
  | .wake =>
    match a.place with
    | .sleeps wake => if wake < s.changed.closed then { a with place := .top } else a
    | _ => a
  | .ctxEnds => { a with ctxDone := true }
  | .leave =>
    match a.place with
    | .sleeps _ => if a.ctxDone then { a with place := .returned .context } else a
    | _ => a

def takes (a : Attach B) : Turn → Bool
  | .take => match a.place with
    | .top => true
    | _ => false
  | _ => false

end Attach

structure World (B : Type*) where
  sup : Supervisor B := {}
  attaches : List (Attach B) := []
  deriving DecidableEq

inductive Act (B : Type*)
  | call (c : Call B)
  | attach (offset : ℕ)
  | turn (i : ℕ) (t : Turn)

def World.step (l : Launch) (w : World B) : Act B → World B
  | .call c => { w with sup := w.sup.step l c }
  | .attach offset => { w with attaches := w.attaches ++ [Attach.start l offset] }
  | .turn i t =>
    match w.attaches[i]? with
    | none => w
    | some a =>
      { sup := if a.takes t then { w.sup with changed := w.sup.changed.Wait.2 } else w.sup
        attaches := w.attaches.set i (a.turn l w.sup t) }

end Vibesys.Attached
