import Mathlib.Data.Finset.Sort
import Mathlib.Data.String.Basic
import Vibesys.Library.Conflate
import Vibesys.Library.Table

/-!
# The gateway's subscriptions

The pure core of the hub: the instances of topics with what each retains, the producers alive, and the
subscribers with what each is owed. Go's pointers to an instance are its generation, looked up in `heap`,
where an instance stays after it left the table. The order in which Go goes through a map is an `Order` that
each call of `next` is given.
-/
namespace Vibesys.Subscription

open Library

abbrev SubscriberID := ℕ
abbrev Generation := ℕ

structure Limits where
  perConnection : ℤ
  total : ℤ

structure TopicPolicy where
  MaxKeys : ℕ
  MaxValueBytes : ℕ

inductive TopicFailureCode
  | unsupported | resourceExhausted | sourceFailed | internal
  deriving DecidableEq, Repr

structure TopicFailure where
  code : TopicFailureCode
  detail : String
  deriving DecidableEq, Repr

structure TopicEntry (V : Type) where
  key : String
  value : V
  deriving DecidableEq, Repr

structure Instance (V : Type) where
  topic : String
  key : String
  generation : Generation
  policy : TopicPolicy
  values : Table String (TopicEntry V) := ∅
  synced : Bool := false
  waiting : Bool
  subscribers : Finset SubscriberID := ∅

structure Lifeline where
  at_ : Generation
  abandoned : Bool := false

structure ProducerRef where
  topic : String
  key : String
  at_ : Generation
  deriving DecidableEq

structure Subscriber extends Debt String where
  connection : ℕ
  instance_ : Generation
  syncPending : Bool
  failure : Option TopicFailure := none

structure Effects where
  wake : Finset SubscriberID := ∅
  start : Option ProducerRef := none
  stop : Option ProducerRef := none

inductive Frame (V : Type)
  | failed (cause : TopicFailure)
  | removed (name : String)
  | entry (entry : Option (TopicEntry V))
  | synced
  deriving DecidableEq

/-- Which member a walk through a set comes to first. -/
structure Order where
  pick : Finset String → Option String
  mem : ∀ {t name}, pick t = some name → name ∈ t
  empty : ∀ {t}, pick t = none → t = ∅

structure State (V : Type) where
  limits : Limits
  instances : Table String Generation := ∅
  producers : Table String Lifeline := ∅
  subscribers : Table SubscriberID Subscriber := ∅
  connections : Table ℕ ℤ := ∅
  nextID : ℕ := 0
  heap : Table Generation (Instance V) := ∅

def newState (V : Type) (limits : Limits) : State V := { limits := limits }

def stuckDetail : String := "an earlier producer of this topic has not stopped"

namespace Instance

variable {V : Type}

def ref (current : Instance V) : ProducerRef := ⟨current.topic,current.key,current.generation⟩

def stopOf (gone : Instance V) : Option ProducerRef := if gone.waiting then none else some gone.ref

end Instance

namespace State

variable {V : Type}

def connected (s : State V) (connection : ℕ) : ℤ := (s.connections.find? connection).getD 0

def current (s : State V) (key : String) : Option (Instance V) := (s.instances.find? key).bind s.heap.find?

def live (s : State V) (key : String) (at_ : Generation) : Option (Instance V) :=
  (s.current key).filter fun current => current.generation = at_

def store (s : State V) (current : Instance V) : State V :=
  { s with heap := s.heap.insert current.generation current }

def each (s : State V) (current : Instance V) (f : Subscriber → Subscriber) : State V :=
  { s with subscribers := s.subscribers.mapWith fun id each => if id ∈ current.subscribers then f each else each }

def launch (s : State V) (current : Instance V) : State V × ProducerRef :=
  ({ s with producers := s.producers.insert current.key { at_ := current.generation } },current.ref)

/-- The instance a subscriber joins, with the producer that starts for it, or the refusal. -/
def instanceFor (s : State V) (topic key : String) (policy : TopicPolicy) :
    Except TopicFailure (State V × Instance V × Effects) :=
  match s.current key with
  | some current => .ok (s,current,{})
  | none =>
    let earlier := s.producers.find? key
    if (earlier.any fun life => life.abandoned) then .error ⟨.sourceFailed,stuckDetail⟩
    else
      let generation := s.nextID+1
      let current : Instance V :=
        { topic := topic, key := key, generation := generation, policy := policy, waiting := earlier.isSome }
      let s := { s with nextID := generation, instances := s.instances.insert key generation }.store current
      if current.waiting then .ok (s,current,{})
      else
        let (s,start) := s.launch current
        .ok (s,current,{ start := some start })

def join (s : State V) (connection : ℕ) (topic key : String) (policy : TopicPolicy) :
    Except TopicFailure (State V × SubscriberID × Effects) :=
  if s.limits.perConnection ≤ s.connected connection then
    .error ⟨.resourceExhausted,s!"connection holds {s.limits.perConnection} subscriptions, the limit"⟩
  else if s.limits.total ≤ s.subscribers.keys.length then
    .error ⟨.resourceExhausted,s!"gateway holds {s.limits.total} subscriptions, the limit"⟩
  else do
    let (s,current,work) ← s.instanceFor topic key policy
    let joined : Subscriber :=
      { connection := connection, instance_ := current.generation, syncPending := current.synced
        delivered := ∅, unsent := current.values.keys.toFinset, changed := ∅, removed := ∅ }
    let id := s.nextID+1
    let s := { s with nextID := id }.store { current with subscribers := insert id current.subscribers }
    .ok ({ s with subscribers := s.subscribers.insert id joined
                  connections := s.connections.insert connection (s.connected connection+1) },id,work)

/-- Ends a subscription. A subscriber that is not there is a nil pointer. -/
def leave (s : State V) (id : SubscriberID) : Option (State V × Effects) := do
  let left ← s.subscribers.find? id
  let held ← s.heap.find? left.instance_
  let gone : Instance V := { held with subscribers := held.subscribers.erase id }
  let count := s.connected left.connection-1
  let s : State V := { s.store gone with
    subscribers := s.subscribers.erase id
    connections := if count = 0 then s.connections.erase left.connection
                   else s.connections.insert left.connection count }
  if s.instances.find? gone.key = some gone.generation ∧ gone.subscribers = ∅ then
    some ({ s with instances := s.instances.erase gone.key },{ stop := gone.stopOf })
  else some (s,{})

/-- Removes an instance and gives each of its subscribers the failure. -/
def close (s : State V) (current : Instance V) (cause : Option TopicFailure) : State V × Finset SubscriberID :=
  ({ s with instances := s.instances.erase current.key }.each current fun each => { each with failure := cause },
    current.subscribers)

def fail (s : State V) (key : String) (at_ : Generation) (cause : Option TopicFailure) : State V × Effects :=
  match s.live key at_ with
  | none => (s,{})
  | some current =>
    let (s,wake) := s.close current cause
    (s,{ wake := wake, stop := current.stopOf })

def put [DecidableEq V] (s : State V) (key : String) (at_ : Generation) (name : String) (entry : TopicEntry V)
    (size : ℕ) : State V × Effects :=
  match s.live key at_ with
  | none => (s,{})
  | some current =>
    let old := current.values.find? name
    if current.policy.MaxValueBytes < size then
      s.fail key at_ (some ⟨.resourceExhausted,
        s!"value of {size} bytes exceeds the topic's {current.policy.MaxValueBytes}"⟩)
    else if old = none ∧ current.policy.MaxKeys ≤ current.values.keys.length then
      s.fail key at_ (some ⟨.resourceExhausted,s!"topic exceeds its {current.policy.MaxKeys} keys"⟩)
    else if old = some entry then (s,{})
    else
      let s := s.store { current with values := current.values.insert name entry }
      (s.each current fun each => { each with toDebt := each.toDebt.put name },{ wake := current.subscribers })

/-- Forgets a key. A subscriber that was never sent it is owed nothing and is not woken. -/
def remove (s : State V) (key : String) (at_ : Generation) (name : String) : State V × Effects :=
  match s.live key at_ with
  | none => (s,{})
  | some current =>
    if current.values.find? name = none then (s,{})
    else
      let holds := current.subscribers.filter fun id => (s.subscribers.find? id).any fun each => name ∈ each.delivered
      let s := s.store { current with values := current.values.erase name }
      (s.each current fun each => { each with toDebt := each.toDebt.remove name },{ wake := holds })

def synced (s : State V) (key : String) (at_ : Generation) : State V × Effects :=
  match s.live key at_ with
  | none => (s,{})
  | some current =>
    if current.synced then (s,{})
    else
      let s := s.store { current with synced := true }
      (s.each current fun each => { each with syncPending := true },{ wake := current.subscribers })

def startWaiting (s : State V) (key : String) (wake : Finset SubscriberID) : State V × Effects :=
  match s.current key with
  | some next =>
    if next.waiting then
      let (s,start) := (s.store { next with waiting := false }).launch next
      (s,{ wake := wake, start := some start })
    else (s,{ wake := wake })
  | none => (s,{ wake := wake })

def ended (s : State V) (ref : ProducerRef) (cause : Option TopicFailure) : State V × Effects :=
  if (s.producers.find? ref.key).any fun life => life.at_ = ref.at_ then
    let s := { s with producers := s.producers.erase ref.key }
    match s.live ref.key ref.at_ with
    | some current =>
      let (s,wake) := s.close current cause
      s.startWaiting ref.key wake
    | none => s.startWaiting ref.key ∅
  else (s,{})

def overdue (s : State V) (ref : ProducerRef) : State V × Effects :=
  match s.producers.find? ref.key with
  | none => (s,{})
  | some life =>
    if life.at_ ≠ ref.at_ then (s,{})
    else
      let s := { s with producers := s.producers.insert ref.key { life with abandoned := true } }
      match s.current ref.key with
      | some next =>
        if next.waiting then
          let (s,wake) := s.close next (some ⟨.sourceFailed,stuckDetail⟩)
          (s,{ wake := wake })
        else (s,{})
      | none => (s,{})

end State

def Subscriber.owed (each : Subscriber) : ℕ :=
  each.removed.card+each.unsent.card+each.changed.card+(if each.syncPending then 1 else 0)
    +(if each.failure = none then 0 else 1)

namespace State

variable {V : Type}

def valueOf (s : State V) (each : Subscriber) (name : String) : Option (TopicEntry V) :=
  (s.heap.find? each.instance_).bind fun current => current.values.find? name

/-- Takes the next frame of a subscriber, or none when it is up to date. Removals go first, then the keys it
never had, then the mark that it has all of them, then the keys whose value is old. -/
def next (s : State V) (id : SubscriberID) (order : Order) : Option (State V × Option (Frame V) × Bool) := do
  let each ← s.subscribers.find? id
  let leaves (each : Subscriber) : State V := { s with subscribers := s.subscribers.insert id each }
  match each.failure with
  | some cause => some (s,some (.failed cause),true)
  | none =>
    match order.pick each.removed with
    | some name => some (leaves { each with toDebt := each.toDebt.tellRemoved name },some (.removed name),false)
    | none =>
      match order.pick each.unsent with
      | some name =>
        some (leaves { each with toDebt := each.toDebt.sendNew name },some (.entry (s.valueOf each name)),false)
      | none =>
        if each.syncPending then some (leaves { each with syncPending := false },some .synced,false)
        else
          match order.pick each.changed with
          | some name =>
            some (leaves { each with toDebt := each.toDebt.refresh name },some (.entry (s.valueOf each name)),false)
          | none => some (s,none,false)

end State
end Vibesys.Subscription
