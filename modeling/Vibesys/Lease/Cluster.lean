import Mathlib.Data.Finmap
import Vibesys.Library.Run

/-!
# Leases of a cluster

The Lease object of one key, the daemons that take, renew and give back leases of it, and the API
server between them. A call to the server is split where another daemon can come in between: a read
takes effect at one moment, the clock is read and a write is sent later, and the write takes effect
at any moment after that, whether or not its caller waits for the answer. Times and durations are
integers counting nanoseconds.
-/
namespace Vibesys.Lease
open Vibesys.Library

def Second : ℤ := 1000000000

def DefaultDuration : ℤ := 60*Second

def HolderAnnotation : String := "vibesys.dev/holder"

/-- A Lease object. The version is zero in an object that was not read. -/
structure Object where
  resourceVersion : ℕ
  annotations : Finmap (fun _ : String => String)
  holderIdentity : String
  leaseDurationSeconds : ℤ
  acquireTime : Option ℤ
  renewTime : Option ℤ
  deriving DecidableEq

def toInt32 (n : ℤ) : ℤ := (n+2^31)%2^32-2^31

/-- A time as the object keeps it, which is in whole microseconds. -/
def MicroTime (t : ℤ) : ℤ := t-t%1000

structure Cluster where
  Duration : ℤ
  deriving DecidableEq

namespace Cluster

def duration (c : Cluster) : ℤ := if c.Duration ≤ 0 then DefaultDuration else c.Duration

def held (c : Cluster) (o : Object) (now : ℤ) : Bool :=
  if o.holderIdentity = "" then false
  else match o.renewTime.or o.acquireTime with
    | none => false
    | some last =>
      let d := o.leaseDurationSeconds*Second
      now < last+if d ≤ 0 then c.duration else d

end Cluster

/-- Keeps the annotations others put on the object, with the holder's set to `record`, or removed when
`record` is empty. -/
def merged (annotations : Finmap fun _ : String => String) (record : String) : Finmap fun _ : String => String :=
  if record = "" then annotations.erase HolderAnnotation else annotations.insert HolderAnnotation record

def acquired (c : Cluster) (token record : String) (now : ℤ) (cur : Option Object) : Object where
  resourceVersion := cur.elim 0 Object.resourceVersion
  annotations := cur.elim (Finmap.singleton HolderAnnotation record) fun o => merged o.annotations record
  holderIdentity := token
  leaseDurationSeconds := toInt32 (c.duration/Second)
  acquireTime := some (MicroTime now)
  renewTime := some (MicroTime now)

def renewed (now : ℤ) (cur : Object) : Object := { cur with renewTime := some (MicroTime now) }

def cleared (now : ℤ) (cur : Object) : Object :=
  { cur with
    holderIdentity := "", renewTime := some (MicroTime now), annotations := merged cur.annotations "" }

inductive Verb
  | create | replace
  deriving DecidableEq, Repr

/-- What a write makes of the versions there were of the object, or none when it is refused: a create
of an object that exists, and a replace of a version that is not the newest. -/
def write (history : List Object) (verb : Verb) (o : Object) : Option (List Object) :=
  match verb,history.getLast? with
  | .create,none => some [{ o with resourceVersion := 1 }]
  | .create,some _ => none
  | .replace,none => none
  | .replace,some cur =>
    if cur.resourceVersion = o.resourceVersion then some (history ++ [{ o with resourceVersion := history.length+1 }])
    else none

def attempts : ℕ := 4

/-- Where an `Acquire` and the lease it returned are. -/
inductive Phase
  | taking (left : ℕ)
  | found (left : ℕ) (cur : Option Object)
  | claiming (left request : ℕ) (now : ℤ)
  | refused
  | resting
  | looked (cur : Option Object)
  | renewing (request : ℕ) (now : ℤ)
  | lost
  | releasing (left : ℕ)
  | leaving (left : ℕ) (cur : Option Object)
  | clearing (left request : ℕ)
  | ended
  deriving DecidableEq

/-- One call of `Acquire` and its lease. -/
structure Agent where
  cluster : Cluster
  token : String
  record : String
  phase : Phase
  renewed : ℤ := 0
  deriving DecidableEq

inductive Kind
  | acquire | renew | release
  deriving DecidableEq, Repr

inductive Status
  | pending | landed | refused
  deriving DecidableEq, Repr

structure Request where
  agent : ℕ
  kind : Kind
  now : ℤ
  verb : Verb
  object : Object
  status : Status := .pending
  deriving DecidableEq

namespace Agent

def read (a : Agent) (cur : Option Object) : Agent :=
  match a.phase with
  | .taking left => { a with phase := .found left cur }
  | .resting => { a with phase := .looked cur }
  | .releasing left => { a with phase := .leaving left cur }
  | _ => a

def missed (a : Agent) (clock : ℤ) : Agent :=
  if clock < a.renewed+a.cluster.duration then { a with phase := .resting } else { a with phase := .lost }

def failed (a : Agent) (clock : ℤ) : Agent :=
  match a.phase with
  | .taking _ | .claiming _ _ _ => { a with phase := .refused }
  | .resting | .renewing _ _ => a.missed clock
  | .releasing _ | .clearing _ _ => { a with phase := .ended }
  | .found _ _ | .looked _ | .leaving _ _ | .refused | .lost | .ended => a

/-- What is done with an object that was read: the clock is read and a write is sent, the request of
number `request` by the agent of number `agent`. -/
def go (a : Agent) (agent request : ℕ) (clock : ℤ) : Agent × Option Request :=
  match a.phase with
  | .found left cur =>
    if cur.any fun o => a.cluster.held o clock then ({ a with phase := .refused },none)
    else ({ a with phase := .claiming left request clock },
      some { agent := agent, kind := .acquire, now := clock, verb := if cur.isNone then .create else .replace
             object := acquired a.cluster a.token a.record clock cur })
  | .looked none => ({ a with phase := .lost },none)
  | .looked (some cur) =>
    if cur.holderIdentity ≠ a.token then ({ a with phase := .lost },none)
    else ({ a with phase := .renewing request clock },
      some { agent := agent, kind := .renew, now := clock, verb := .replace, object := Lease.renewed clock cur })
  | .leaving _ none => ({ a with phase := .ended },none)
  | .leaving left (some cur) =>
    if cur.holderIdentity ≠ a.token then ({ a with phase := .ended },none)
    else ({ a with phase := .clearing left request },
      some { agent := agent, kind := .release, now := clock, verb := .replace, object := cleared clock cur })
  | _ => (a,none)

/-- The request the agent waits for. -/
def awaits (a : Agent) : Option ℕ :=
  match a.phase with
  | .claiming _ request _ => some request
  | .renewing request _ => some request
  | .clearing _ request => some request
  | _ => none

def succeeded (a : Agent) : Agent :=
  match a.phase with
  | .claiming _ _ now => { a with phase := .resting, renewed := now }
  | .renewing _ now => { a with phase := .resting, renewed := now }
  | .clearing _ _ => { a with phase := .ended }
  | _ => a

/-- The write lost a race, and is tried again a bounded number of times. -/
def raced (a : Agent) (clock : ℤ) : Agent :=
  match a.phase with
  | .claiming left _ _ => { a with phase := if left ≤ 1 then .refused else .taking (left-1) }
  | .renewing _ _ => a.missed clock
  | .clearing left _ => { a with phase := if left ≤ 1 then .ended else .releasing (left-1) }
  | _ => a

/-- `Acquire` returned the lease, and it was not released, abandoned or reported lost. -/
def Returned (a : Agent) : Bool :=
  match a.phase with
  | .resting | .looked _ | .renewing _ _ => true
  | _ => false

def halts (a : Agent) : Bool := a.Returned || a.phase = .lost

def release (a : Agent) : Agent := if a.halts then { a with phase := .releasing attempts } else a

def abandon (a : Agent) : Agent := if a.halts then { a with phase := .ended } else a

/-- The lease holds at `t`. -/
def HoldsAt (a : Agent) (t : ℤ) : Prop := a.Returned = true ∧ t < a.renewed+a.cluster.duration

instance (a : Agent) (t : ℤ) : Decidable (a.HoldsAt t) := inferInstanceAs (Decidable (_ ∧ _))

end Agent

structure System where
  clock : ℤ
  history : List Object
  agents : List Agent := []
  requests : List Request := []
  deriving DecidableEq

inductive Act
  | tick (now : ℤ)
  | acquire (cluster : Cluster) (token record : String)
  | read (agent : ℕ)
  | go (agent : ℕ)
  | land (request : ℕ)
  | answer (agent : ℕ)
  | fail (agent : ℕ)
  | release (agent : ℕ)
  | abandon (agent : ℕ)
  deriving DecidableEq

namespace System

/-- The token names no other lease: it is not empty, no agent has it and no object was ever held
under it. -/
def Fresh (s : System) (token : String) : Prop :=
  token ≠ "" ∧ (∀ a ∈ s.agents, a.token ≠ token) ∧ ∀ o ∈ s.history, o.holderIdentity ≠ token

instance (s : System) (token : String) : Decidable (s.Fresh token) := inferInstanceAs (Decidable (_ ∧ _))

def onAgent (s : System) (i : ℕ) (f : Agent → Agent) : System := { s with agents := s.agents.modify i f }

def goes (s : System) (i : ℕ) : System :=
  match s.agents[i]? with
  | none => s
  | some a =>
    let went := a.go i s.requests.length s.clock
    { s with agents := s.agents.set i went.1, requests := s.requests ++ went.2.toList }

/-- A write reaches the server, once. -/
def land (s : System) (r : ℕ) : System :=
  match s.requests[r]? with
  | none => s
  | some q =>
    if q.status ≠ .pending then s
    else match write s.history q.verb q.object with
      | some history => { s with history := history, requests := s.requests.set r { q with status := .landed } }
      | none => { s with requests := s.requests.set r { q with status := .refused } }

def answer (s : System) (i : ℕ) : System :=
  match (s.agents[i]?.bind Agent.awaits).bind fun r => s.requests[r]? with
  | none => s
  | some q =>
    match q.status with
    | .pending => s
    | .landed => s.onAgent i Agent.succeeded
    | .refused => s.onAgent i fun a => a.raced s.clock

/-- One step. The clocks agree, and read whole microseconds that never go back. -/
def step (s : System) : Act → System
  | .tick now => if s.clock ≤ now ∧ now%1000 = 0 then { s with clock := now } else s
  | .acquire cluster token record =>
    if s.Fresh token then
      { s with agents := s.agents ++ [{ cluster := cluster, token := token, record := record, phase := .taking attempts }] }
    else s
  | .read i => s.onAgent i fun a => a.read s.history.getLast?
  | .go i => s.goes i
  | .land r => s.land r
  | .answer i => s.answer i
  | .fail i => s.onAgent i fun a => a.failed s.clock
  | .release i => s.onAgent i Agent.release
  | .abandon i => s.onAgent i Agent.abandon

/-- The object there is before anyone takes a lease, if there is one. -/
def start (clock : ℤ) (object : Option Object) : System :=
  { clock := MicroTime clock, history := (object.map fun o => { o with resourceVersion := 1 }).toList }

end System
end Vibesys.Lease
