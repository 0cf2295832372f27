import Mathlib.Algebra.BigOperators.Group.List.Basic
import Mathlib.Algebra.Order.Ring.Int
import Mathlib.Data.Prod.Lex
import Mathlib.Data.String.Basic
import Vibesys.Library.Table
import Vibesys.Library.Run

/-!
# One client's queue

What the hub holds unread for one subscription: messages that are ready, deltas that are being merged until the
window ends, the newest search view of each run, and the marks of items that lost a delta or had their last
version. Texts are lists of bytes. What `proto.Size` says of a change is recorded in it, and of a delta it is a
parameter `size`.
-/
namespace Vibesys.Hub

open Library

abbrev AgentID := String
abbrev ItemID := String
abbrev RunID := String

structure Limits where
  MaxItems : ℤ
  MaxBytes : ℤ

/-- The public part of an event. Of an item it has the text and the output of its command. -/
structure RunChange (β : Type) where
  sequence : ℕ
  run : RunID
  size : ℕ
  text : List β := []
  output : List β := []
  deriving DecidableEq

structure Stored (β : Type) where
  Change : RunChange β
  Agent : AgentID := ""
  Item : ItemID := ""
  ItemFinal : Bool := false
  deriving DecidableEq

/-- Progress on a running item: text, or the output of its command. -/
structure Delta (β : Type) where
  agent : AgentID
  item : ItemID
  output : Bool
  body : List β
  deriving DecidableEq

structure SearchState (S : Type) where
  run : RunID
  revision : ℕ
  view : S
  deriving DecidableEq

structure Interest where
  Everything : Bool := false
  Agent : AgentID := ""
  Run : RunID := ""
  Ticks : Bool := false

/-- One thing for a client. Search views are not counted and are in no queue. -/
inductive Message (β S : Type)
  | stored (st : Stored β) (size : ℕ)
  | delta (d : Delta β) (size : ℕ)
  | search (state : SearchState S)
  deriving DecidableEq

def Message.size {β S : Type} : Message β S → ℤ
  | .stored _ size => size
  | .delta _ size => size
  | .search _ => 0

def Message.deltaOf {β S : Type} : Message β S → Option ItemID
  | .delta d _ => some d.item
  | _ => none

/-! ## Items remembered -/

def MaxRemembered : ℕ := 4096

/-- The members from the oldest on. -/
structure ItemSet where
  order : List ItemID := []
  deriving DecidableEq

namespace ItemSet

def has (s : ItemSet) (id : ItemID) : Bool := id ∈ s.order

def add (s : ItemSet) (id : ItemID) : ItemSet :=
  if s.has id then s
  else
    let order := s.order ++ [id]
    ⟨order.drop (order.length-MaxRemembered)⟩

def remove (s : ItemSet) (id : ItemID) : ItemSet := ⟨s.order.erase id⟩

end ItemSet

/-! ## The subscription -/

abbrev DeltaKey := ItemID ×ₗ Bool

def deltaKey (item : ItemID) (output : Bool) : DeltaKey := toLex (item,output)

def DeltaKey.item (k : DeltaKey) : ItemID := (ofLex k).1

structure PendingDelta (β : Type) where
  delta : Delta β
  size : ℤ

structure Subscription (β S : Type) where
  interest : Interest
  wake : Bool := false
  latest : Table RunID (SearchState S) := ∅
  revisions : Table RunID ℕ := ∅
  ready : List (Message β S) := []
  pending : Table DeltaKey (PendingDelta β) := ∅
  order : List DeltaKey := []
  broken : ItemSet := {}
  final : ItemSet := {}
  count : ℤ := 0
  bytes : ℤ := 0
  lagged : Bool := false

structure Taken (β S : Type) where
  messages : List (Message β S)
  lagged : Bool
  sub : Subscription β S

variable {β S : Type}

namespace Subscription

def signal (s : Subscription β S) : Subscription β S := { s with wake := true }

def wantsStored (s : Subscription β S) (st : Stored β) : Bool :=
  s.interest.Everything || (s.interest.Agent != "" && s.interest.Agent == st.Agent) ||
    (s.interest.Run != "" && s.interest.Run == st.Change.run)

/-- What is readable, oldest first, with the newest view of each run in the order of the runs. -/
def Take (s : Subscription β S) : Taken β S :=
  if s.lagged then ⟨[],true,s⟩
  else
    ⟨s.ready ++ s.latest.values.map Message.search,false,
      { s with
        ready := []
        count := s.count-s.ready.length
        bytes := s.bytes-(s.ready.map Message.size).sum
        latest := ∅ }⟩

def Resume (s : Subscription β S) : Subscription β S := { s with lagged := false }

/-- Drops everything queued, because the client must start from a snapshot anyway. -/
def lag (s : Subscription β S) : Subscription β S :=
  { s with
    ready := []
    pending := ∅
    order := []
    broken := {}
    final := {}
    count := 0
    bytes := 0
    lagged := true }.signal

def forget (s : Subscription β S) (key : DeltaKey) : Subscription β S :=
  match s.pending.find? key with
  | some p => { s with pending := s.pending.erase key, count := s.count-1, bytes := s.bytes-p.size }
  | none => s

def supersede (s : Subscription β S) (item : ItemID) : Subscription β S :=
  let s := (s.forget (deltaKey item false)).forget (deltaKey item true)
  let gone := s.ready.filter fun m => m.deltaOf = some item
  { s with
    order := s.order.filter fun k => k.item ≠ item
    ready := s.ready.filter fun m => m.deltaOf ≠ some item
    count := s.count-gone.length
    bytes := s.bytes-(gone.map Message.size).sum }

/-- What a new version of an item does before it is queued. -/
def stored (s : Subscription β S) (st : Stored β) : Subscription β S :=
  if st.Item ≠ "" then
    let s := s.supersede st.Item
    { s with
      broken := s.broken.remove st.Item
      final := if st.ItemFinal then s.final.add st.Item else s.final.remove st.Item }
  else s

def addStored (s : Subscription β S) (st : Stored β) (size : ℕ) (l : Limits) : Subscription β S :=
  if s.lagged then s
  else
    let s := s.stored st
    if s.count+1 > l.MaxItems ∨ s.bytes+size > l.MaxBytes then s.lag
    else { s with ready := s.ready ++ [Message.stored st size], count := s.count+1, bytes := s.bytes+size }.signal

def drop (s : Subscription β S) (item : ItemID) : Subscription β S :=
  { s with broken := s.broken.add item }.supersede item

def addDelta (size : Delta β → ℕ) (s : Subscription β S) (d : Delta β) (l : Limits) : Subscription β S :=
  if s.final.has d.item || s.lagged then s
  else if s.broken.has d.item then s
  else
    let key := deltaKey d.item d.output
    match s.pending.find? key with
    | some p =>
      let extra : ℤ := d.body.length
      if s.bytes+extra > l.MaxBytes then s.drop d.item
      else
        let merged := { p.delta with output := d.output, body := p.delta.body ++ d.body }
        { s with pending := s.pending.insert key ⟨merged,p.size+extra⟩, bytes := s.bytes+extra }
    | none =>
      if s.count+1 > l.MaxItems ∨ s.bytes+size d > l.MaxBytes then s.drop d.item
      else
        { s with
          pending := s.pending.insert key ⟨d,size d⟩
          order := s.order ++ [key]
          count := s.count+1
          bytes := s.bytes+size d }

/-- The delta merged under a key becomes readable, measured again. -/
def settle (size : Delta β → ℕ) (s : Subscription β S) (key : DeltaKey) : Subscription β S :=
  match s.pending.find? key with
  | some p => { s with bytes := s.bytes+(size p.delta-p.size), ready := s.ready ++ [Message.delta p.delta (size p.delta)] }
  | none => s

def flush (size : Delta β → ℕ) (s : Subscription β S) : Subscription β S :=
  let s := if s.interest.Ticks then s.signal else s
  if s.order.length = 0 then s
  else { s.order.foldl (settle size) s with pending := ∅, order := [] }.signal

/-! ## What the hub hands to it -/

def publishStored (s : Subscription β S) (st : Stored β) (l : Limits) : Subscription β S :=
  if s.wantsStored st then s.addStored st st.Change.size l else s

/-- A view that names another run or has no revision is a panic. -/
def publishLatest (s : Subscription β S) (run : RunID) (state : SearchState S) : Option (Subscription β S) :=
  if state.run ≠ run ∨ state.revision = 0 then none
  else if s.interest.Everything ∧ state.revision > (s.revisions.find? run).getD 0 then
    some { s with revisions := s.revisions.insert run state.revision, latest := s.latest.insert run state }.signal
  else some s

def publishDelta (size : Delta β → ℕ) (s : Subscription β S) (d : Delta β) (l : Limits) : Subscription β S :=
  if !s.interest.Everything && s.interest.Agent == d.agent then s.addDelta size d l else s

end Subscription

def Subscribe (β S : Type) (interest : Interest) : Subscription β S := { interest := interest }

end Vibesys.Hub
