import Vibesys.Queues.Models

/-!
# The reservation-aware model relaxes the overlap of inserts

An order the exact model accepts becomes one of the reservation-aware model by splitting each successful insert into
two steps that follow each other. Where no successful insert overlaps with another operation, every accepted order is
of that form. In any accepted order a value is taken after it was published, and places are never over-reserved.
-/
namespace Vibesys.Queues

open Library

variable {ι α : Type} [DecidableEq α] (d : Discipline ι α) (capacity : ℕ)

namespace Discipline

def split (p : RecordedOperation ι × ℕ) : List (ReservationOperation α) :=
  ((d.eventsOf p.1 p.2).getD []).map p.1.during

def run (s : ReservationState α) (operations : List (ReservationOperation α)) : Option (ReservationState α) :=
  operations.foldlM (fun s op => d.reservationStep capacity s op.event) s

omit [DecidableEq α] in
theorem reservationAwareOperations_eq {history : List (RecordedOperation ι)} {operations : List (ReservationOperation α)} :
    d.reservationAwareOperations history = some operations ↔
      (∀ p ∈ history.zipIdx, (d.eventsOf p.1 p.2).isSome) ∧ operations = history.zipIdx.flatMap d.split := by
  have hmap : ∀ (l : List (RecordedOperation ι × ℕ)) (out : List (List (ReservationOperation α))),
      (l.mapM fun p => (d.eventsOf p.1 p.2).map (List.map p.1.during)) = some out ↔
        (∀ p ∈ l, (d.eventsOf p.1 p.2).isSome) ∧ out = l.map d.split := by
    intro l
    induction l with
    | nil =>
      intro out
      rw [List.mapM_nil]
      exact ⟨fun h => ⟨by simp,(Option.some.inj h).symm⟩,fun h => h.2 ▸ rfl⟩
    | cons p l ih =>
      intro out
      rw [List.mapM_cons]
      constructor
      · intro h
        obtain ⟨first,hfirst,h⟩ := Option.bind_eq_some_iff.mp h
        obtain ⟨rest,hrest,h⟩ := Option.bind_eq_some_iff.mp h
        obtain ⟨events,hevents,rfl⟩ := Option.map_eq_some_iff.mp hfirst
        obtain ⟨hall,rfl⟩ := (ih rest).mp hrest
        refine ⟨List.forall_mem_cons.mpr ⟨by rw [hevents]; rfl,hall⟩,?_⟩
        rw [← Option.some.inj h,List.map_cons]
        unfold split
        rw [hevents]
        rfl
      · rintro ⟨hall,rfl⟩
        obtain ⟨hsome,hall⟩ := List.forall_mem_cons.mp hall
        obtain ⟨events,hevents⟩ := Option.isSome_iff_exists.mp hsome
        rw [hevents,(ih _).mpr ⟨hall,rfl⟩,List.map_cons]
        unfold split
        rw [hevents]
        rfl
  unfold reservationAwareOperations
  rw [Option.map_eq_some_iff]
  constructor
  · rintro ⟨out,hout,rfl⟩
    obtain ⟨hall,rfl⟩ := (hmap _ _).mp hout
    exact ⟨hall,List.flatMap_def.symm⟩
  · rintro ⟨hall,rfl⟩
    exact ⟨_,(hmap _ _).mpr ⟨hall,rfl⟩,List.flatMap_def.symm⟩

omit [DecidableEq α] in
theorem length_insert (l : List α) (a : α) : (d.insert l a).length = l.length + 1 := by
  have h := (d.values_insert l a).length_eq
  simpa using h

omit [DecidableEq α] in
theorem length_remove {l l' : List α} {v : ℕ} (h : d.remove l v = some l') : l.length = l'.length + 1 := by
  have h := (d.values_remove l v l' h).length_eq
  simpa using h

/-! ## An insert at one point is a reservation published at once -/

theorem exactStep_split {current next : List α} {op : RecordedOperation ι} (index : ℕ)
    (h : d.exactStep capacity current op = some next) (hfits : current.length ≤ capacity) :
    (d.eventsOf op index).isSome ∧ next.length ≤ capacity ∧
      d.run capacity ⟨[],current⟩ (d.split (op,index)) = some ⟨[],next⟩ := by
  unfold exactStep at h
  unfold split run eventsOf
  dsimp only
  cases hkind : op.kind with
  | enqueue =>
    rw [hkind] at h
    dsimp only at h ⊢
    cases hitem : d.item op.input with
    | none => simp [hitem] at h
    | some item =>
      cases hok : op.enqueueOK with
      | none => simp [hitem,hok] at h
      | some ok =>
        rw [hitem,hok] at h
        dsimp only at h
        split at h
        case isFalse => cases h
        next hexpected =>
        cases h
        cases ok with
        | true =>
          have hroom : current.length < capacity := by simpa using hexpected.symm
          have hnot : ¬capacity ≤ current.length := by omega
          refine ⟨rfl,?_,?_⟩
          · rw [if_pos rfl,d.length_insert]
            omega
          · simp [RecordedOperation.during,reservationStep,List.foldlM,hnot]
        | false =>
          have hfull : capacity ≤ current.length := by simpa using hexpected.symm
          refine ⟨rfl,hfits,?_⟩
          have heq : 0 + current.length = capacity := by omega
          simp [RecordedOperation.during,reservationStep,List.foldlM,heq]
  | dequeue =>
    rw [hkind] at h
    dsimp only at h ⊢
    cases current with
    | nil =>
      dsimp only at h
      split at h
      case isFalse => cases h
      next hnone =>
      cases h
      rw [Bool.and_eq_true,Option.isNone_iff_eq_none] at hnone
      rw [hnone.1,hnone.2]
      exact ⟨rfl,hfits,by simp [RecordedOperation.during,reservationStep,List.foldlM]⟩
    | cons first rest =>
      dsimp only at h
      split at h
      case isTrue => cases h
      next hsome =>
      obtain ⟨v,hv,hremove⟩ := Option.bind_eq_some_iff.mp h
      rw [hv,Bool.eq_false_iff.mpr hsome]
      have hlength := d.length_remove hremove
      exact ⟨rfl,by omega,by simp [RecordedOperation.during,reservationStep,List.foldlM,hremove]⟩
  | other =>
    rw [hkind] at h
    cases h

theorem exact_run_split {order : List (RecordedOperation ι × ℕ)} {current : List α}
    (h : (order.foldlM (fun s p => d.exactStep capacity s p.1) current).isSome) (hfits : current.length ≤ capacity) :
    (∀ p ∈ order, (d.eventsOf p.1 p.2).isSome) ∧ (d.run capacity ⟨[],current⟩ (order.flatMap d.split)).isSome := by
  induction order generalizing current with
  | nil => exact ⟨by simp,rfl⟩
  | cons p order ih =>
    rw [List.foldlM_cons] at h
    cases hstep : d.exactStep capacity current p.1 with
    | none =>
      rw [hstep] at h
      cases h
    | some next =>
      rw [hstep] at h
      obtain ⟨hsome,hfits',hsplit⟩ := d.exactStep_split capacity p.2 hstep hfits
      obtain ⟨hall,hrest⟩ := ih h hfits'
      refine ⟨List.forall_mem_cons.mpr ⟨hsome,hall⟩,?_⟩
      unfold run at hsplit hrest ⊢
      rw [List.flatMap_cons,List.foldlM_append,hsplit]
      exact hrest

omit [DecidableEq α] in
theorem mem_split {p : RecordedOperation ι × ℕ} {x : ReservationOperation α} (h : x ∈ d.split p) :
    x.call = p.1.call ∧ x.ret = p.1.ret := by
  obtain ⟨event,-,rfl⟩ := List.mem_map.mp h
  exact ⟨rfl,rfl⟩

theorem reservation_of_exact {history : List (RecordedOperation ι)} (h : d.CheckExact capacity history) :
    d.CheckReservationAware capacity history := by
  unfold CheckExact at h
  rw [← List.zipIdx_map_fst 0 history,accepts_map] at h
  obtain ⟨order,hperm,hreal,hsome⟩ := h
  obtain ⟨hall,haccepted⟩ := d.exact_run_split capacity hsome (Nat.zero_le _)
  refine ⟨_,(d.reservationAwareOperations_eq).mpr ⟨fun p hp => hall p (hperm.mem_iff.mpr hp),rfl⟩,
    order.flatMap d.split,hperm.flatMap_right _,?_,haccepted⟩
  exact hreal.flatMap (fun p _ => p.1.ordered) fun p _ x hx => d.mem_split hx

/-! ## Where inserts do not overlap -/

omit [DecidableEq α] in
theorem eventsOf_cases {op : RecordedOperation ι} {index : ℕ} {events : List (Event α)}
    (h : d.eventsOf op index = some events) :
    (∃ item, op.kind = .enqueue ∧ op.enqueueOK = some true ∧ d.item op.input = some item ∧
        events = [.reserve index item,.publish index item]) ∨
      (∃ item, op.kind = .enqueue ∧ op.enqueueOK = some false ∧ d.item op.input = some item ∧ events = [.full]) ∨
      (op.kind = .dequeue ∧ op.dequeueNone ∧ op.dequeueVal = none ∧ events = [.empty]) ∨
      ∃ v, op.kind = .dequeue ∧ op.dequeueNone = false ∧ op.dequeueVal = some v ∧ events = [.dequeue v] := by
  unfold eventsOf at h
  split at h
  · next hkind =>
    split at h
    · next item hitem hok => exact Or.inl ⟨item,hkind,hok,hitem,(Option.some.inj h).symm⟩
    · next item hitem hok => exact Or.inr (Or.inl ⟨item,hkind,hok,hitem,(Option.some.inj h).symm⟩)
    · cases h
  · next hkind =>
    split at h
    · next hnone hval => exact Or.inr (Or.inr (Or.inl ⟨hkind,hnone,hval,(Option.some.inj h).symm⟩))
    · next v hnone hval => exact Or.inr (Or.inr (Or.inr ⟨v,hkind,hnone,hval,(Option.some.inj h).symm⟩))
    · cases h
  · cases h

omit [DecidableEq α] in
/-- An operation has one event, or is a successful insert and has two. -/
theorem split_cases {p : RecordedOperation ι × ℕ} (h : (d.eventsOf p.1 p.2).isSome) :
    (∃ event, d.eventsOf p.1 p.2 = some [event] ∧ d.split p = [p.1.during event]) ∨
      ∃ item, p.1.kind = .enqueue ∧ p.1.enqueueOK = some true ∧ d.item p.1.input = some item ∧
        d.split p = [p.1.during (.reserve p.2 item),p.1.during (.publish p.2 item)] := by
  obtain ⟨events,hevents⟩ := Option.isSome_iff_exists.mp h
  have hsplit : d.split p = events.map p.1.during := by
    unfold split
    rw [hevents]
    rfl
  rw [hsplit]
  rcases d.eventsOf_cases hevents with ⟨item,hkind,hok,hitem,rfl⟩ | ⟨_,-,-,-,rfl⟩ | ⟨-,-,-,rfl⟩ | ⟨_,-,-,-,rfl⟩
  · exact Or.inr ⟨item,hkind,hok,hitem,rfl⟩
  all_goals exact Or.inl ⟨_,hevents,rfl⟩

theorem exactStep_of_reserve {current : List α} {op : RecordedOperation ι} {index : ℕ} {item : α}
    {s : ReservationState α} (hkind : op.kind = .enqueue) (hok : op.enqueueOK = some true)
    (hitem : d.item op.input = some item)
    (h : d.reservationStep capacity ⟨[],current⟩ (.reserve index item) = some s) :
    d.exactStep capacity current op = some (d.insert current item) ∧
      d.reservationStep capacity s (.publish index item) = some ⟨[],d.insert current item⟩ := by
  unfold reservationStep at h
  dsimp only at h
  split at h
  case isTrue => cases h
  next hroom =>
  cases h
  have hroom : current.length < capacity := by
    rw [List.length_nil,Nat.zero_add] at hroom
    omega
  constructor
  · unfold exactStep
    rw [hkind,hitem,hok]
    simp [hroom]
  · simp [reservationStep]

theorem exactStep_of_step {current : List α} {op : RecordedOperation ι} {index : ℕ} {event : Event α}
    {s : ReservationState α} (hevents : d.eventsOf op index = some [event])
    (h : d.reservationStep capacity ⟨[],current⟩ event = some s) :
    s.reserved = [] ∧ d.exactStep capacity current op = some s.published := by
  unfold exactStep
  rcases d.eventsOf_cases hevents with ⟨item,-,-,-,hevent⟩ | ⟨item,hkind,hok,hitem,hevent⟩ |
    ⟨hkind,hnone,hval,hevent⟩ | ⟨v,hkind,hnone,hval,hevent⟩
  · cases hevent
  · cases hevent
    obtain ⟨hfull,h⟩ := Option.ite_none_right_eq_some.mp h
    cases h
    have hfull : 0 + current.length = capacity := hfull
    have hnot : ¬current.length < capacity := by omega
    rw [hkind,hitem,hok]
    exact ⟨rfl,by simp [hnot]⟩
  · cases hevent
    obtain ⟨hempty,h⟩ := Option.ite_none_right_eq_some.mp h
    cases h
    have hempty : current = [] := hempty
    rw [hkind,hnone,hval,hempty]
    exact ⟨rfl,rfl⟩
  · cases hevent
    obtain ⟨rest,hremove,rfl⟩ := Option.map_eq_some_iff.mp h
    rw [hkind,hnone,hval]
    cases current with
    | nil => cases d.length_remove hremove
    | cons first tail => exact ⟨rfl,hremove⟩

end Discipline

def Overlaps (a b : RecordedOperation ι) : Prop := ¬a.ret < b.call ∧ ¬b.ret < a.call

def RecordedOperation.EnqueuedOK (op : RecordedOperation ι) : Prop := op.kind = .enqueue ∧ op.enqueueOK = some true

/-- No successful enqueue overlaps in time with another operation. -/
def Apart (a b : RecordedOperation ι) : Prop := a.EnqueuedOK ∨ b.EnqueuedOK → ¬Overlaps a b

namespace Discipline

omit [DecidableEq α] in
theorem flatMap_split_of_mem {rest : List (RecordedOperation ι × ℕ)} {p : RecordedOperation ι × ℕ} (hp : p ∈ rest) :
    ∃ rest', rest.Perm (p :: rest') ∧ (rest.flatMap d.split).Perm (d.split p ++ rest'.flatMap d.split) := by
  obtain ⟨before,after,rfl⟩ := List.append_of_mem hp
  have hperm : (before ++ p :: after).Perm (p :: (before ++ after)) := List.perm_middle
  refine ⟨before ++ after,hperm,(hperm.flatMap_right _).trans ?_⟩
  rw [List.flatMap_cons]

omit [DecidableEq α] in
theorem follows_of_first {rest : List (RecordedOperation ι × ℕ)} {p : RecordedOperation ι × ℕ}
    {x : ReservationOperation α} {operations : List (ReservationOperation α)}
    (hall : ∀ q ∈ rest, (d.eventsOf q.1 q.2).isSome) (hx : x.call = p.1.call)
    (hfirst : ∀ y ∈ operations, ¬y.ret < x.call) (hsub : ∀ y ∈ rest.flatMap d.split, y ∈ operations) :
    ∀ q ∈ rest, ¬q.1.ret < p.1.call := by
  intro q hq
  obtain ⟨y,hy⟩ : ∃ y, y ∈ d.split q := by
    rcases d.split_cases (hall q hq) with ⟨event,-,hsplit⟩ | ⟨item,-,-,-,hsplit⟩ <;> rw [hsplit]
    · exact ⟨_,List.mem_cons_self⟩
    · exact ⟨_,List.mem_cons_self⟩
  have hret := hfirst y (hsub y (List.mem_flatMap.mpr ⟨q,hq,hy⟩))
  rwa [(d.mem_split hy).2,hx] at hret

omit [DecidableEq α] in
/-- What comes right after a reservation is its publication, if its insert overlaps with nothing. -/
theorem publish_next {rest : List (RecordedOperation ι × ℕ)} {p : RecordedOperation ι × ℕ} {item : α}
    {operations : List (ReservationOperation α)} (hok : p.1.EnqueuedOK) (hapart : ∀ q ∈ rest, Apart p.1 q.1)
    (hperm : operations.Perm (p.1.during (.publish p.2 item) :: rest.flatMap d.split))
    (hreal : RealTime ReservationOperation.call ReservationOperation.ret
      (p.1.during (.reserve p.2 item) :: operations)) :
    ∃ operations', operations = p.1.during (.publish p.2 item) :: operations' ∧
      operations'.Perm (rest.flatMap d.split) := by
  obtain ⟨hfirst,hreal⟩ := List.pairwise_cons.mp hreal
  cases operations with
  | nil => exact absurd hperm.length_eq (by simp)
  | cons z operations =>
    rcases List.mem_cons.mp (hperm.subset List.mem_cons_self) with rfl | hz
    · exact ⟨operations,rfl,hperm.cons_inv⟩
    · obtain ⟨q,hq,hz⟩ := List.mem_flatMap.mp hz
      have hnot := hapart q hq (Or.inl hok)
      have hbefore := hfirst z List.mem_cons_self
      rw [(d.mem_split hz).2] at hbefore
      have hpublish : p.1.during (.publish p.2 item) ∈ z :: operations := hperm.symm.subset List.mem_cons_self
      rcases List.mem_cons.mp hpublish with heq | hlater
      · exact ⟨operations,by rw [heq],(heq ▸ hperm).cons_inv⟩
      · have hafter := (List.pairwise_cons.mp hreal).1 _ hlater
        rw [(d.mem_split hz).1] at hafter
        exact absurd ⟨hafter,hbefore⟩ hnot

theorem exact_of_run {rest : List (RecordedOperation ι × ℕ)} {operations : List (ReservationOperation α)}
    {current : List α} (hall : ∀ p ∈ rest, (d.eventsOf p.1 p.2).isSome)
    (hapart : rest.Pairwise fun p q => Apart p.1 q.1) (hperm : operations.Perm (rest.flatMap d.split))
    (hreal : RealTime ReservationOperation.call ReservationOperation.ret operations)
    (haccepted : (d.run capacity ⟨[],current⟩ operations).isSome) :
    Accepts (fun p : RecordedOperation ι × ℕ => p.1.call) (fun p => p.1.ret)
      (fun s p => d.exactStep capacity s p.1) current rest := by
  -- the induction is on the operations of the history that are left, the head of the order says which goes first
  induction hn : rest.length generalizing rest operations current with
  | zero =>
    obtain rfl := List.length_eq_zero_iff.mp hn
    exact ⟨[],List.Perm.refl _,List.Pairwise.nil,rfl⟩
  | succ n ih =>
    cases operations with
    | nil =>
      obtain ⟨p,hp⟩ := List.exists_mem_of_length_pos (by omega : 0 < rest.length)
      obtain ⟨rest',-,hsplit⟩ := d.flatMap_split_of_mem hp
      have hempty := List.nil_perm.mp (hperm.trans hsplit)
      rcases d.split_cases (hall p hp) with ⟨event,-,h⟩ | ⟨item,-,-,-,h⟩ <;> rw [h] at hempty <;> cases hempty
    | cons x operations =>
      obtain ⟨p,hp,hx⟩ := List.mem_flatMap.mp (hperm.subset List.mem_cons_self)
      obtain ⟨rest',hrest,hsplit⟩ := d.flatMap_split_of_mem hp
      have hall' : ∀ q ∈ rest', (d.eventsOf q.1 q.2).isSome := fun q hq =>
        hall q (hrest.symm.subset (List.mem_cons_of_mem _ hq))
      have hsymm : ∀ a b : RecordedOperation ι × ℕ, Apart a.1 b.1 → Apart b.1 a.1 := fun a b h hok ho =>
        h hok.symm ⟨ho.2,ho.1⟩
      obtain ⟨hp',hapart'⟩ := List.pairwise_cons.mp ((hrest.pairwise_iff fun {a b} => hsymm a b).mp hapart)
      have hlength : rest'.length = n := by
        have := hrest.length_eq
        rw [List.length_cons] at this
        omega
      obtain ⟨hfirst,hreal'⟩ := List.pairwise_cons.mp hreal
      have hgo : ∀ {operations' : List (ReservationOperation α)} {next : List α},
          operations'.Perm (rest'.flatMap d.split) → (∀ y ∈ operations', y ∈ operations) →
          RealTime ReservationOperation.call ReservationOperation.ret operations' →
          d.exactStep capacity current p.1 = some next → (d.run capacity ⟨[],next⟩ operations').isSome →
          Accepts (fun p : RecordedOperation ι × ℕ => p.1.call) (fun p => p.1.ret)
            (fun s p => d.exactStep capacity s p.1) current rest := by
        intro operations' next hperm' hsub hreal'' hstep hrun
        obtain ⟨order,horder,hrealtime,hsome⟩ := ih hall' hapart' hperm' hreal'' hrun hlength
        refine ⟨p :: order,(horder.cons p).trans hrest.symm,List.pairwise_cons.mpr ⟨fun q hq => ?_,hrealtime⟩,?_⟩
        · exact d.follows_of_first hall' (d.mem_split hx).1 hfirst (fun y hy => hsub y (hperm'.symm.subset hy)) q
            (horder.subset hq)
        · rw [List.foldlM_cons,hstep]
          exact hsome
      unfold run at haccepted
      rw [List.foldlM_cons] at haccepted
      obtain ⟨s,hs,hrun⟩ : ∃ s, d.reservationStep capacity ⟨[],current⟩ x.event = some s ∧
          (d.run capacity s operations).isSome := by
        cases hs : d.reservationStep capacity ⟨[],current⟩ x.event with
        | none =>
          rw [hs] at haccepted
          cases haccepted
        | some s =>
          rw [hs] at haccepted
          exact ⟨s,rfl,haccepted⟩
      rcases d.split_cases (hall p hp) with ⟨event,hevents,hone⟩ | ⟨item,hkind,hok,hitem,htwo⟩
      · rw [hone] at hx hsplit
        obtain rfl := List.mem_singleton.mp hx
        obtain ⟨hnone,hstep⟩ := d.exactStep_of_step capacity hevents hs
        have hs' : s = ⟨[],s.published⟩ := by rw [← hnone]
        exact hgo (hperm.trans hsplit).cons_inv (fun y hy => hy) hreal' hstep (hs' ▸ hrun)
      · rw [htwo] at hx hsplit
        rcases List.mem_cons.mp hx with rfl | hx
        · obtain ⟨operations',rfl,hperm'⟩ := d.publish_next ⟨hkind,hok⟩ hp' (hperm.trans hsplit).cons_inv hreal
          obtain ⟨hstep,hpublish⟩ := d.exactStep_of_reserve capacity hkind hok hitem hs
          unfold run at hrun
          rw [List.foldlM_cons] at hrun
          have hevent : (p.1.during (Event.publish p.2 item)).event = .publish p.2 item := rfl
          rw [hevent,hpublish] at hrun
          exact hgo hperm' (fun y hy => List.mem_cons_of_mem _ hy) (List.pairwise_cons.mp hreal').2 hstep hrun
        · obtain rfl := List.mem_singleton.mp hx
          cases hs

theorem exact_of_reservation {history : List (RecordedOperation ι)} (hapart : history.Pairwise Apart)
    (h : d.CheckReservationAware capacity history) : d.CheckExact capacity history := by
  obtain ⟨operations,hoperations,order,hperm,hreal,haccepted⟩ := h
  obtain ⟨hall,rfl⟩ := (d.reservationAwareOperations_eq).mp hoperations
  unfold CheckExact
  rw [← List.zipIdx_map_fst 0 history,accepts_map]
  refine d.exact_of_run capacity hall ?_ hperm hreal haccepted
  rw [← List.zipIdx_map_fst 0 history,List.pairwise_map] at hapart
  exact hapart

end Discipline

end Vibesys.Queues
