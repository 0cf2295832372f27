import Mathlib.Data.List.Induction
import Vibesys.Queues.Relaxed

/-!
# What an accepted history counts

A value is taken as often as it was published, at most, by inserts that were called before it was taken, and what was
published and not taken has a place in the queue.
-/
namespace Vibesys.Queues

open Library

variable {ι α : Type} [DecidableEq α] (d : Discipline ι α) (capacity : ℕ)

def Event.taken : Event α → Option ℕ
  | .dequeue value => some value
  | _ => none

def Event.reserves : Event α → Bool
  | .reserve _ _ => true
  | _ => false

namespace Discipline

def put : Event α → Option ℕ
  | .publish _ item => some (d.value item)
  | _ => none

omit [DecidableEq α] in
theorem put_of_taken {event : Event α} {v : ℕ} (h : event.taken = some v) : d.put event = none := by
  cases event <;> first | rfl | cases h

theorem step_balance {s s' : ReservationState α} {event : Event α} (h : d.reservationStep capacity s event = some s') :
    (∀ v, (s'.published.map d.value).count v + (if event.taken = some v then 1 else 0) =
        (s.published.map d.value).count v + if d.put event = some v then 1 else 0) ∧
      s'.published.length + (if event.taken.isSome then 1 else 0) =
        s.published.length + (if (d.put event).isSome then 1 else 0) ∧
      s'.reserved.length + (if (d.put event).isSome then 1 else 0) =
        s.reserved.length + (if event.reserves then 1 else 0) ∧
      (s.reserved.length + s.published.length ≤ capacity → s'.reserved.length + s'.published.length ≤ capacity) := by
  cases event with
  | reserve index item =>
    obtain ⟨hroom,h⟩ := Option.ite_none_left_eq_some.mp h
    obtain ⟨-,h⟩ := Option.ite_none_left_eq_some.mp h
    cases h
    refine ⟨fun v => rfl,rfl,rfl,fun _ => ?_⟩
    show s.reserved.length + 1 + s.published.length ≤ capacity
    omega
  | publish index item =>
    unfold reservationStep at h
    dsimp only at h
    split at h
    case h_2 => cases h
    next held hheld =>
    split at h
    case isFalse => cases h
    next heq =>
    subst heq
    cases h
    obtain ⟨before,after,hreserved,-⟩ := List.lookup_eq_some_iff.mp hheld
    have herase : (s.reserved.eraseP fun entry => entry.1 == index).length + 1 = s.reserved.length := by
      have hmem : (index,held) ∈ s.reserved := by
        rw [hreserved]
        exact List.mem_append_right _ List.mem_cons_self
      have hpos := List.length_pos_of_mem hmem
      have hlength := List.length_eraseP_of_mem (p := fun entry : ℕ × α => entry.1 == index) hmem (by simp)
      omega
    have hinsert := d.length_insert s.published held
    refine ⟨fun v => ?_,?_,herase,fun _ => ?_⟩
    · have hcount := (d.values_insert s.published held).count_eq v
      rw [List.count_cons] at hcount
      simpa [Event.taken,put] using hcount
    · exact hinsert
    · show (s.reserved.eraseP _).length + (d.insert s.published held).length ≤ capacity
      omega
  | full =>
    obtain ⟨-,h⟩ := Option.ite_none_right_eq_some.mp h
    cases h
    exact ⟨fun v => rfl,rfl,rfl,id⟩
  | dequeue v =>
    obtain ⟨rest,hremove,rfl⟩ := Option.map_eq_some_iff.mp h
    have hlength := d.length_remove hremove
    refine ⟨fun w => ?_,hlength.symm,rfl,fun hfits => ?_⟩
    · have hcount := (d.values_remove s.published v rest hremove).count_eq w
      rw [List.count_cons] at hcount
      simpa [Event.taken,put] using hcount.symm
    · show s.reserved.length + rest.length ≤ capacity
      omega
  | empty =>
    obtain ⟨-,h⟩ := Option.ite_none_right_eq_some.mp h
    cases h
    exact ⟨fun v => rfl,rfl,rfl,id⟩

theorem run_balance {s s' : ReservationState α} {operations : List (ReservationOperation α)}
    (h : d.run capacity s operations = some s') :
    (∀ v, (s'.published.map d.value).count v + operations.countP (fun x => x.event.taken = some v) =
        (s.published.map d.value).count v + operations.countP (fun x => d.put x.event = some v)) ∧
      s'.published.length + operations.countP (fun x => x.event.taken.isSome) =
        s.published.length + operations.countP (fun x => (d.put x.event).isSome) ∧
      s'.reserved.length + operations.countP (fun x => (d.put x.event).isSome) =
        s.reserved.length + operations.countP (fun x => x.event.reserves) ∧
      (s.reserved.length + s.published.length ≤ capacity → s'.reserved.length + s'.published.length ≤ capacity) := by
  induction operations generalizing s with
  | nil =>
    cases h
    exact ⟨fun v => rfl,rfl,rfl,id⟩
  | cons x operations ih =>
    unfold run at h
    rw [List.foldlM_cons] at h
    obtain ⟨s₁,hs₁,h⟩ := Option.bind_eq_some_iff.mp h
    obtain ⟨hvalues,hpublished,hreserved,hfits⟩ := d.step_balance capacity hs₁
    obtain ⟨hvalues',hpublished',hreserved',hfits'⟩ := ih h
    simp only [List.countP_cons]
    refine ⟨fun v => ?_,by omega,by omega,fun hs => hfits' (hfits hs)⟩
    have hv := hvalues v
    have hv' := hvalues' v
    simp only [decide_eq_true_eq]
    omega

/-- Up to any time, a value was taken as often as it was put in by inserts called by then, at most. -/
theorem run_taken {s : ReservationState α} (hs : s.published = []) {operations : List (ReservationOperation α)}
    (hreal : RealTime ReservationOperation.call ReservationOperation.ret operations)
    (haccepted : (d.run capacity s operations).isSome) (v : ℕ) (time : ℤ) :
    operations.countP (fun x => decide (x.event.taken = some v) && decide (x.ret ≤ time)) ≤
      operations.countP (fun x => decide (d.put x.event = some v) && decide (x.call ≤ time)) := by
  induction operations using List.reverseRecOn with
  | nil => exact Nat.le_refl _
  | append_singleton operations x ih =>
    obtain ⟨s',hs'⟩ := Option.isSome_iff_exists.mp haccepted
    have hbefore : (d.run capacity s operations).isSome := by
      unfold run at hs' ⊢
      rw [List.foldlM_append] at hs'
      obtain ⟨s₁,hs₁,-⟩ := Option.bind_eq_some_iff.mp hs'
      rw [hs₁]
      rfl
    obtain ⟨hreal',-,hlast⟩ := List.pairwise_append.mp hreal
    by_cases hx : x.event.taken = some v ∧ x.ret ≤ time
    · -- everything before the last taking of the value was called by the time it returned
      have hput : ∀ y ∈ operations ++ [x], d.put y.event = some v → y.call ≤ time := by
        intro y hy hy'
        rcases List.mem_append.mp hy with hy | hy
        · exact (not_lt.mp (hlast y hy x List.mem_cons_self)).trans hx.2
        · rw [List.mem_singleton.mp hy,d.put_of_taken hx.1] at hy'
          cases hy'
      have hbalance := (d.run_balance capacity hs').1 v
      rw [hs,List.map_nil,List.count_nil] at hbalance
      calc (operations ++ [x]).countP (fun x => decide (x.event.taken = some v) && decide (x.ret ≤ time))
          ≤ (operations ++ [x]).countP (fun x => decide (x.event.taken = some v)) :=
            List.countP_mono_left fun y _ hy => by
              rw [Bool.and_eq_true] at hy
              exact hy.1
        _ ≤ (operations ++ [x]).countP (fun x => decide (d.put x.event = some v)) := by omega
        _ ≤ _ := List.countP_mono_left fun y hy hy' => by
            rw [decide_eq_true_eq] at hy'
            simp [hy',hput y hy hy']
    · have hnot : (decide (x.event.taken = some v) && decide (x.ret ≤ time)) = false := by
        simpa using hx
      rw [List.countP_append,List.countP_append,List.countP_singleton,hnot]
      have := ih hreal' hbefore
      simp only [Bool.false_eq_true,if_false]
      omega

/-! ## In terms of the history -/

def Enqueued (v : ℕ) (time : ℤ) (op : RecordedOperation ι) : Prop :=
  op.EnqueuedOK ∧ (d.item op.input).map d.value = some v ∧ op.call ≤ time

end Discipline

def RecordedOperation.Dequeued (v : ℕ) (time : ℤ) (op : RecordedOperation ι) : Prop :=
  op.kind = .dequeue ∧ op.dequeueVal = some v ∧ op.ret ≤ time

instance (op : RecordedOperation ι) : Decidable op.EnqueuedOK := inferInstanceAs (Decidable (_ ∧ _))

instance (v : ℕ) (time : ℤ) (op : RecordedOperation ι) : Decidable (op.Dequeued v time) :=
  inferInstanceAs (Decidable (_ ∧ _ ∧ _))

namespace Discipline

instance (v : ℕ) (time : ℤ) (op : RecordedOperation ι) : Decidable (d.Enqueued v time op) :=
  inferInstanceAs (Decidable (_ ∧ _ ∧ _))

omit [DecidableEq α] in
theorem countP_operations {history : List (RecordedOperation ι)} {operations : List (ReservationOperation α)}
    (hoperations : operations.Perm (history.zipIdx.flatMap d.split))
    (hall : ∀ p ∈ history.zipIdx, (d.eventsOf p.1 p.2).isSome) {f : ReservationOperation α → Bool}
    {c : RecordedOperation ι → Bool}
    (h : ∀ p : RecordedOperation ι × ℕ, ∀ events, d.eventsOf p.1 p.2 = some events →
      (events.map p.1.during).countP f = if c p.1 then 1 else 0) : operations.countP f = history.countP c := by
  have hhistory : history.countP c = history.zipIdx.countP fun p => c p.1 := by
    have hmap := List.countP_map (p := c) (f := Prod.fst) (l := history.zipIdx)
    rw [List.zipIdx_map_fst] at hmap
    exact hmap
  rw [hoperations.countP_eq,hhistory]
  refine countP_flatMap_eq fun p hp => ?_
  obtain ⟨events,hevents⟩ := Option.isSome_iff_exists.mp (hall p hp)
  unfold split
  rw [hevents]
  exact h p events hevents

theorem dequeued_le_enqueued {history : List (RecordedOperation ι)} (h : d.CheckReservationAware capacity history)
    (v : ℕ) (time : ℤ) :
    history.countP (fun op => op.Dequeued v time) ≤ history.countP (fun op => d.Enqueued v time op) := by
  obtain ⟨operations,hoperations,order,hperm,hreal,haccepted⟩ := h
  obtain ⟨hall,rfl⟩ := (d.reservationAwareOperations_eq).mp hoperations
  have htaken := d.run_taken capacity rfl hreal haccepted v time
  rw [d.countP_operations hperm hall (c := fun op => op.Dequeued v time),
    d.countP_operations hperm hall (c := fun op => d.Enqueued v time op)] at htaken
  · exact htaken
  · intro p events hevents
    rcases d.eventsOf_cases hevents with ⟨item,hkind,hok,hitem,rfl⟩ | ⟨item,hkind,hok,hitem,rfl⟩ |
      ⟨hkind,hnone,hval,rfl⟩ | ⟨w,hkind,hnone,hval,rfl⟩ <;>
    simp [RecordedOperation.during,put,Enqueued,RecordedOperation.EnqueuedOK,List.countP_cons, *]
  · intro p events hevents
    rcases d.eventsOf_cases hevents with ⟨item,hkind,hok,hitem,rfl⟩ | ⟨item,hkind,hok,hitem,rfl⟩ |
      ⟨hkind,hnone,hval,rfl⟩ | ⟨w,hkind,hnone,hval,rfl⟩ <;>
    simp [RecordedOperation.during,Event.taken,RecordedOperation.Dequeued,List.countP_cons, *]

theorem enqueued_le_capacity {history : List (RecordedOperation ι)} (h : d.CheckReservationAware capacity history) :
    history.countP (fun op => op.EnqueuedOK) ≤
      history.countP (fun op => op.kind = .dequeue ∧ op.dequeueVal.isSome) + capacity := by
  obtain ⟨operations,hoperations,order,hperm,hreal,haccepted⟩ := h
  obtain ⟨hall,rfl⟩ := (d.reservationAwareOperations_eq).mp hoperations
  obtain ⟨s,hs⟩ := Option.isSome_iff_exists.mp haccepted
  obtain ⟨-,hpublished,hreserved,hfits⟩ := d.run_balance capacity hs
  have hplaces := hfits (Nat.zero_le _)
  have hput : order.countP (fun x => (d.put x.event).isSome) = history.countP (fun op => op.EnqueuedOK) := by
    refine d.countP_operations hperm hall fun p events hevents => ?_
    rcases d.eventsOf_cases hevents with ⟨item,hkind,hok,hitem,rfl⟩ | ⟨item,hkind,hok,hitem,rfl⟩ |
      ⟨hkind,hnone,hval,rfl⟩ | ⟨w,hkind,hnone,hval,rfl⟩ <;>
    simp [RecordedOperation.during,put,RecordedOperation.EnqueuedOK, *]
  have htaken : order.countP (fun x => x.event.taken.isSome) =
      history.countP (fun op => op.kind = .dequeue ∧ op.dequeueVal.isSome) := by
    refine d.countP_operations hperm hall fun p events hevents => ?_
    rcases d.eventsOf_cases hevents with ⟨item,hkind,hok,hitem,rfl⟩ | ⟨item,hkind,hok,hitem,rfl⟩ |
      ⟨hkind,hnone,hval,rfl⟩ | ⟨w,hkind,hnone,hval,rfl⟩ <;>
    simp [RecordedOperation.during,Event.taken, *]
  have hempty : ({} : ReservationState α).published.length = 0 := rfl
  omega

/-- What the reservation-aware check promises beside the exact one. -/
def RelaxesOverlap (history : List (RecordedOperation ι)) : Prop :=
  (d.CheckExact capacity history → d.CheckReservationAware capacity history) ∧
  (history.Pairwise Apart → (d.CheckExact capacity history ↔ d.CheckReservationAware capacity history)) ∧
  (d.CheckReservationAware capacity history →
    (∀ v time, history.countP (fun op => op.Dequeued v time) ≤ history.countP (fun op => d.Enqueued v time op)) ∧
    history.countP (fun op => op.EnqueuedOK) ≤
      history.countP (fun op => op.kind = .dequeue ∧ op.dequeueVal.isSome) + capacity)

theorem relaxesOverlap (history : List (RecordedOperation ι)) : d.RelaxesOverlap capacity history :=
  ⟨d.reservation_of_exact capacity,
    fun hapart => ⟨d.reservation_of_exact capacity,d.exact_of_reservation capacity hapart⟩,
    fun h => ⟨d.dequeued_le_enqueued capacity h,d.enqueued_le_capacity capacity h⟩⟩

end Discipline

/-- The reservation-aware contract relaxes exactly the overlap of successful inserts, for both queues. -/
theorem reservations_relax_overlap (capacity : ℕ) :
    (∀ history, fifo.RelaxesOverlap capacity history) ∧ ∀ history, priorityQueue.RelaxesOverlap capacity history :=
  ⟨fifo.relaxesOverlap capacity,priorityQueue.relaxesOverlap capacity⟩

def enqueues (value : ℕ) (ok : Bool) (call ret : ℤ) (h : call ≤ ret) : RecordedOperation (Option ℕ) :=
  {kind := .enqueue, input := some value, enqueueOK := some ok, call := call, ret := ret, ordered := h}

def dequeues (value : Option ℕ) (call ret : ℤ) (h : call ≤ ret) : RecordedOperation (Option ℕ) :=
  {kind := .dequeue, input := none, dequeueNone := value.isNone, dequeueVal := value, call := call, ret := ret, ordered := h}

def sequential : List (RecordedOperation (Option ℕ)) := [enqueues 5 true 0 1 (by decide),dequeues (some 5) 2 3 (by decide)]

/-- An insert that overlaps with one that finds the queue full and with a removal that finds it empty. -/
def crossing : List (RecordedOperation (Option ℕ)) :=
  [enqueues 5 true 0 9 (by decide),enqueues 6 false 1 2 (by decide),dequeues none 3 4 (by decide)]

theorem reservations_relax_overlap_full : fifo.CheckReservationAware 1 sequential ∧ fifo.CheckReservationAware 1 crossing ∧
    crossing.countP (fun op => op.EnqueuedOK) ≤ 1 := by
  have hcrossing : fifo.CheckReservationAware 1 crossing := by
    refine ⟨_,rfl,[⟨.reserve 0 5,0,9⟩,⟨.full,1,2⟩,⟨.empty,3,4⟩,⟨.publish 0 5,0,9⟩],?_,?_,rfl⟩
    · exact List.Perm.cons _ (@List.perm_append_comm _ [_,_] [_])
    · unfold RealTime
      decide +kernel
  refine ⟨?_,hcrossing,(((reservations_relax_overlap 1).1 crossing).2.2 hcrossing).2⟩
  refine (((reservations_relax_overlap 1).1 sequential).2.1 ?_).mp ⟨_,List.Perm.refl _,?_,rfl⟩
  · simp [sequential,Apart,Overlaps,enqueues,dequeues]
  · unfold RealTime
    decide +kernel

end Vibesys.Queues
