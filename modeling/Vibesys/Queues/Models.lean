import Mathlib.Data.List.Sort
import Vibesys.Library.Orders

/-!
# Models of a bounded queue

The models a history of queue operations is checked against: the exact one, whose insert takes effect at one point,
and the reservation-aware one, where a successful insert first reserves its place and then publishes its item. A
first-in first-out queue and a priority queue differ in where an item is put and which one may be taken.
-/
namespace Vibesys.Queues

open Library

inductive Kind
  | enqueue | dequeue | other
  deriving DecidableEq

/-- An operation as the evaluator recorded it: the clock was read before the call and after its return. -/
structure RecordedOperation (ι : Type) where
  kind : Kind
  input : ι
  enqueueOK : Option Bool := none
  dequeueNone : Bool := false
  dequeueVal : Option ℕ := none
  call : ℤ
  ret : ℤ
  ordered : call ≤ ret

/-- What is put in the queue by an input, where it goes, and what is left when a value is taken. -/
structure Discipline (ι α : Type) where
  item : ι → Option α
  value : α → ℕ
  insert : List α → α → List α
  remove : List α → ℕ → Option (List α)
  values_insert : ∀ l a, ((insert l a).map value).Perm (value a :: l.map value)
  values_remove : ∀ l v l', remove l v = some l' → (l.map value).Perm (v :: l'.map value)

variable {ι α : Type}

namespace Discipline

variable (d : Discipline ι α) (capacity : ℕ)

def exactStep (current : List α) (op : RecordedOperation ι) : Option (List α) :=
  match op.kind with
  | .enqueue =>
    match d.item op.input,op.enqueueOK with
    | some item,some ok =>
      if ok = decide (current.length < capacity) then some (if ok then d.insert current item else current) else none
    | _,_ => none
  | .dequeue =>
    match current with
    | [] => if op.dequeueNone && op.dequeueVal.isNone then some current else none
    | _ :: _ => if op.dequeueNone then none else op.dequeueVal.bind (d.remove current)
  | .other => none

end Discipline

inductive Event (α : Type)
  | reserve (reservationID : ℕ) (item : α)
  | publish (reservationID : ℕ) (item : α)
  | full
  | dequeue (value : ℕ)
  | empty

structure ReservationOperation (α : Type) where
  event : Event α
  call : ℤ
  ret : ℤ

/-- An event lasts as long as the operation it is part of. -/
def RecordedOperation.during (op : RecordedOperation ι) (event : Event α) : ReservationOperation α :=
  ⟨event,op.call,op.ret⟩

structure ReservationState (α : Type) where
  reserved : List (ℕ × α) := []
  published : List α := []

namespace Discipline

variable (d : Discipline ι α) (capacity : ℕ)

def eventsOf (op : RecordedOperation ι) (index : ℕ) : Option (List (Event α)) :=
  match op.kind with
  | .enqueue =>
    match d.item op.input,op.enqueueOK with
    | some item,some true => some [.reserve index item,.publish index item]
    | some _,some false => some [.full]
    | _,_ => none
  | .dequeue =>
    match op.dequeueNone,op.dequeueVal with
    | true,none => some [.empty]
    | false,some value => some [.dequeue value]
    | _,_ => none
  | .other => none

def reservationAwareOperations (history : List (RecordedOperation ι)) : Option (List (ReservationOperation α)) :=
  (history.zipIdx.mapM fun p => (d.eventsOf p.1 p.2).map (List.map p.1.during)).map List.flatten

def reservationStep [DecidableEq α] (current : ReservationState α) : Event α → Option (ReservationState α)
  | .reserve reservationID item =>
    if capacity ≤ current.reserved.length + current.published.length then none
    else if (current.reserved.lookup reservationID).isSome then none
    else some {current with reserved := (reservationID,item) :: current.reserved}
  | .publish reservationID item =>
    match current.reserved.lookup reservationID with
    | some held =>
      if held = item then
        some ⟨current.reserved.eraseP (fun entry => entry.1 == reservationID),d.insert current.published held⟩
      else none
    | none => none
  | .full => if current.reserved.length + current.published.length = capacity then some current else none
  | .dequeue value => (d.remove current.published value).map fun rest => {current with published := rest}
  | .empty => if current.published = [] then some current else none

/-- Some order of the history that respects real time is one the exact model accepts. -/
def CheckExact (history : List (RecordedOperation ι)) : Prop :=
  Accepts RecordedOperation.call RecordedOperation.ret (d.exactStep capacity) [] history

def CheckReservationAware [DecidableEq α] (history : List (RecordedOperation ι)) : Prop :=
  ∃ operations, d.reservationAwareOperations history = some operations ∧
    Accepts ReservationOperation.call ReservationOperation.ret (fun s op => d.reservationStep capacity s op.event) {}
      operations

end Discipline

/-! ## The two queues -/

/-- First in, first out. -/
def fifo : Discipline (Option ℕ) ℕ where
  item value := value
  value value := value
  insert current value := current ++ [value]
  remove current value :=
    match current with
    | [] => none
    | first :: rest => if first = value then some rest else none
  values_insert l a := by
    rw [List.map_id',List.map_id']
    exact List.perm_append_singleton a l
  values_remove l v l' h := by
    cases l with
    | nil => cases h
    | cons first rest =>
      simp only [Option.ite_none_right_eq_some,Option.some.injEq] at h
      obtain ⟨rfl,rfl⟩ := h
      exact List.Perm.refl _

structure PriorityItem where
  value : ℕ
  priority : ℕ
  deriving DecidableEq

structure PriorityInput where
  value : Option ℕ
  priority : Option ℕ

def comparePriorityItems (first second : PriorityItem) : Prop :=
  first.priority < second.priority ∨ first.priority = second.priority ∧ first.value ≤ second.value

instance : DecidableRel comparePriorityItems := fun _ _ => inferInstanceAs (Decidable (_ ∨ _ ∧ _))

/-- The least priority first; of the items of that priority any may be taken. -/
def priorityQueue : Discipline PriorityInput PriorityItem where
  item input :=
    match input.value,input.priority with
    | some value,some priority => some ⟨value,priority⟩
    | _,_ => none
  value := PriorityItem.value
  insert current item := (current ++ [item]).insertionSort comparePriorityItems
  remove current value :=
    match current with
    | [] => none
    | first :: _ =>
      (current.findIdx? fun item => item.priority == first.priority && item.value == value).map current.eraseIdx
  values_insert l a := by
    refine ((List.perm_insertionSort comparePriorityItems (l ++ [a])).map _).trans ?_
    exact (List.perm_append_singleton a l).map _
  values_remove l v l' h := by
    cases l with
    | nil => cases h
    | cons first rest =>
      obtain ⟨index,hindex,rfl⟩ := Option.map_eq_some_iff.mp h
      obtain ⟨hlt,hitem,-⟩ := List.findIdx?_eq_some_iff_getElem.mp hindex
      simp only [Bool.and_eq_true,beq_iff_eq] at hitem
      have hperm := (List.getElem_cons_eraseIdx_perm hlt).symm.map PriorityItem.value
      refine hperm.trans ?_
      rw [List.map_cons,hitem.2]

end Vibesys.Queues
