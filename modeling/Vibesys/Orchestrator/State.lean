import Mathlib.Data.Prod.Lex
import Vibesys.Library.Table
import Vibesys.Orchestrator.Vocabulary

/-!
# The orchestrator's memory and its fold

Inputs, events and effects, the state, and `State.apply`, the one fold every change passes through.
The maps of the source are tables, so two states that say the same are equal; the copies the source
takes before it writes to a map have no counterpart here.
-/
namespace Vibesys.Orchestrator

open Vibesys.Core (Time Duration)
open Library

structure ArmTimer where
  kind : TimerKind
  run : RunID
  session : Session := ⟨"",0⟩
  fireAt : Time
  deriving DecidableEq

structure SessionSource where
  session : Session
  offset : ℕ
  deriving DecidableEq

inductive EventBody
  | run (r : Run)
  | agent (a : Agent)
  | turn (t : Turn)
  | item (i : Item)
  | message (m : Message)
  | receipt (r : Receipt)
  | checkIn (c : CheckIn)
  deriving DecidableEq

structure Event where
  run : RunID
  command : CommandID
  at_ : Time
  source : Option SessionSource
  body : EventBody
  deriving DecidableEq

inductive Effect
  | launchSession (session : Session) (run : RunID) (role : AgentRole) (spec : AgentSpec) (resumeToken : String)
  | startTurn (session : Session) (turn : TurnID) (message : Message)
  | steer (session : Session) (turn : TurnID) (message : Message)
  | interrupt (session : Session) (turn : TurnID)
  | closeSession (session : Session) (force : Bool)
  | releaseCheckouts (run : RunID)
  | computeWindowFacts (checkIn : CheckInID) (run : RunID) (since until_ : Time)
  | armTimer (timer : ArmTimer)
  deriving DecidableEq

/-- What the core keeps for an agent. All of it but the agent is derived by the fold: the running turn,
the highest ordinals handed out, the running turn's items, the messages waiting for a turn and the last
committed offset of the current session. -/
structure AgentState extends Agent where
  turn : Option Turn := none
  turns : ℕ := 0
  items : ℕ := 0
  current : Table ItemID Item := ∅
  queue : List MessageID := []
  offset : ℕ := 0
  deriving DecidableEq

instance : Inhabited AgentState := ⟨{ toAgent := default }⟩

/-- The check-ins of one run: all of them, and each viewer's, by the end of the window, then its start,
then the id. -/
structure CheckInList where
  all : List CheckInID := []
  viewers : Table ViewerID (List CheckInID) := ∅
  deriving DecidableEq

structure State where
  runs : Table RunID Run := ∅
  agents : Table AgentID AgentState := ∅
  messages : Table MessageID Message := ∅
  receipts : Table CommandID Receipt := ∅
  checkIns : Table CheckInID CheckIn := ∅
  checkInIndex : Table RunID CheckInList := ∅
  jobs : Table (RunID ×ₗ JobID) Unit := ∅
  deriving DecidableEq

namespace State

/-- What the source reads at a key, the zero record when nothing is there. -/
def run (s : State) (id : RunID) : Run := (s.runs.find? id).getD default

def agent (s : State) (id : AgentID) : AgentState := (s.agents.find? id).getD default

end State

namespace CheckIn

def before (o c : CheckIn) : Bool :=
  o.at_ < c.at_ ∨ (o.at_ = c.at_ ∧ (o.since < c.since ∨ (o.since = c.since ∧ o.id < c.id)))

end CheckIn

namespace CheckInList

/-- A list of check-ins with a new one put before the first that does not come before it. -/
def place (c : CheckIn) (byID : Table CheckInID CheckIn) : List CheckInID → List CheckInID
  | [] => [c.id]
  | id :: ids => if ((byID.find? id).getD default).before c then id :: place c byID ids else c.id :: id :: ids

/-- The list with a new check-in in its place. `byID` has the check-in already. -/
def with_ (l : CheckInList) (c : CheckIn) (byID : Table CheckInID CheckIn) : CheckInList where
  all := place c byID l.all
  viewers := l.viewers.insert c.viewer.id (place c byID ((l.viewers.find? c.viewer.id).getD []))

end CheckInList

namespace State

def applyRun (s : State) (b : Run) : State :=
  let s := { s with runs := s.runs.insert b.id b }
  if b.status.Final then { s with jobs := s.jobs.filter fun key _ => (ofLex key).1 ≠ b.id } else s

def applyAgent (s : State) (b : Agent) : State :=
  let a := s.agent b.id
  let a := if a.session ≠ b.session then { a with offset := 0 } else a
  { s with agents := s.agents.insert b.id { a with toAgent := b } }

def applyTurn (s : State) (b : Turn) : State :=
  let a := s.agent b.agent
  let a := { a with turns := max a.turns b.ordinal }
  let a := if b.status = .running then { a with turn := some b } else { a with turn := none, current := ∅ }
  { s with agents := s.agents.insert b.agent a }

def applyItem (s : State) (b : Item) : State :=
  let a := s.agent b.agent
  let a := { a with items := max a.items b.ordinal }
  let b := if b.status ≠ .running then { b with body := none } else b
  { s with agents := s.agents.insert b.agent { a with current := a.current.insert b.id b } }

/-- The queue of the recipient after a message event. -/
def queueAfter (queue : List MessageID) (m : Message) : List MessageID :=
  let queue := queue.filter (· ≠ m.id)
  if m.delivery = .queued then queue ++ [m.id] else queue

def applyMessage (s : State) (m : Message) : State :=
  let s :=
    match s.agents.find? m.to_ with
    | some a => { s with agents := s.agents.insert m.to_ { a with queue := queueAfter a.queue m } }
    | none => s
  let s := { s with messages := if m.delivery.Final then s.messages.erase m.id else s.messages.insert m.id m }
  match m.body with
  | .jobFinished job .. =>
    if (s.run m.run).status.Final then s else { s with jobs := s.jobs.insert (toLex (m.run,job)) () }
  | _ => s

def applyReceipt (s : State) (b : Receipt) : State := { s with receipts := s.receipts.insert b.command b }

def applyCheckIn (s : State) (b : CheckIn) : State :=
  let known := (s.checkIns.find? b.id).isSome
  let s := { s with checkIns := s.checkIns.insert b.id b }
  if known then s
  else { s with checkInIndex :=
    s.checkInIndex.insert b.run (((s.checkInIndex.find? b.run).getD {}).with_ b s.checkIns) }

/-- Commits the offset of the sidecar event an event came from, if its session is still the current one. -/
def applySource (s : State) : Option SessionSource → State
  | none => s
  | some src =>
    match s.agents.find? src.session.agent with
    | some a =>
      if a.session = src.session.n then
        { s with agents := s.agents.insert src.session.agent { a with offset := max a.offset src.offset } }
      else s
    | none => s

def applyBody (s : State) : EventBody → State
  | .run b => s.applyRun b
  | .agent b => s.applyAgent b
  | .turn b => s.applyTurn b
  | .item b => s.applyItem b
  | .message b => s.applyMessage b
  | .receipt b => s.applyReceipt b
  | .checkIn b => s.applyCheckIn b

/-- The one fold: every change to a state is an event passing through here. -/
def apply (s : State) (e : Event) : State := (s.applyBody e.body).applySource e.source

end State

/-- Folds committed events into a state. A restart is a replay from the zero state. -/
def Replay (s : State) (events : List Event) : State := events.foldl State.apply s

theorem Replay_append (s : State) (es es' : List Event) : Replay s (es ++ es') = Replay (Replay s es) es' :=
  List.foldl_append ..

end Vibesys.Orchestrator
