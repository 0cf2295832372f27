import Vibesys.Hub.Queue

/-!
# The counters of a queue

The count of a subscription is the number of its queued messages and merged deltas, and its byte count is the
sum of their recorded sizes, whatever is removed out of order or measured again. The keys being merged are
those of the map, each once.
-/
namespace Vibesys.Hub

open Library

variable {β S : Type}

def sizeUnder (pending : Table DeltaKey (PendingDelta β)) (key : DeltaKey) : ℤ :=
  ((pending.find? key).map PendingDelta.size).getD 0

structure Books (ready : List (Message β S)) (pending : Table DeltaKey (PendingDelta β)) (order : List DeltaKey)
    (count bytes : ℤ) : Prop where
  nodup : order.Nodup
  mem : ∀ k, k ∈ order ↔ (pending.find? k).isSome
  keyed : ∀ k p, pending.find? k = some p → deltaKey p.delta.item p.delta.output = k
  count : count = ready.length+order.length
  bytes : bytes = (ready.map Message.size).sum+(order.map (sizeUnder pending)).sum

def Subscription.Booked (s : Subscription β S) : Prop := Books s.ready s.pending s.order s.count s.bytes

@[simp] theorem deltaKey_item (item : ItemID) (output : Bool) : (deltaKey item output).item = item := rfl

theorem DeltaKey.item_eq_iff {k : DeltaKey} {item : ItemID} :
    k.item = item ↔ k = deltaKey item false ∨ k = deltaKey item true := by
  constructor
  · intro h
    have hk : k = deltaKey k.item (ofLex k).2 := rfl
    cases hout : (ofLex k).2 with
    | false => exact .inl (by rw [hk,h,hout])
    | true => exact .inr (by rw [hk,h,hout])
  · rintro (rfl | rfl) <;> rfl

namespace Books

variable {ready : List (Message β S)} {pending : Table DeltaKey (PendingDelta β)} {order : List DeltaKey} {count bytes : ℤ}

theorem empty : Books ([] : List (Message β S)) ∅ [] 0 0 :=
  ⟨List.nodup_nil,fun k => by simp,fun k p h => by simp at h,rfl,rfl⟩

theorem push (h : Books ready pending order count bytes) (m : Message β S) :
    Books (ready ++ [m]) pending order (count+1) (bytes+m.size) := by
  refine ⟨h.nodup,h.mem,h.keyed,?_,?_⟩
  · have := h.count
    rw [List.length_append,List.length_singleton]
    push_cast
    omega
  · have := h.bytes
    rw [List.map_append,List.sum_append,List.map_singleton,List.sum_singleton]
    omega

theorem filter (h : Books ready pending order count bytes) (p : Message β S → Bool) :
    Books (ready.filter fun m => !p m) pending order (count-(ready.filter p).length)
      (bytes-((ready.filter p).map Message.size).sum) := by
  refine ⟨h.nodup,h.mem,h.keyed,?_,?_⟩
  · have hlength : ready.length = (ready.filter p).length+(ready.filter fun m => !p m).length :=
      List.length_eq_length_filter_add p
    have := h.count
    omega
  · have hsum : ∀ ms : List (Message β S), (ms.map Message.size).sum =
        ((ms.filter p).map Message.size).sum+((ms.filter fun m => !p m).map Message.size).sum := by
      intro ms
      induction ms with
      | nil => rfl
      | cons m ms ih =>
        cases hp : p m with
        | true =>
          simp only [List.filter_cons,hp,if_true,Bool.not_true,Bool.false_eq_true,if_false,List.map_cons,List.sum_cons]
          omega
        | false =>
          simp only [List.filter_cons,hp,if_true,Bool.not_false,Bool.false_eq_true,if_false,List.map_cons,List.sum_cons]
          omega
    have := h.bytes
    have := hsum ready
    omega

theorem erase (h : Books ready pending order count bytes) {key : DeltaKey} {p : PendingDelta β}
    (hfind : pending.find? key = some p) : Books ready (pending.erase key) (order.erase key) (count-1) (bytes-p.size) := by
  have hin : key ∈ order := (h.mem key).mpr (by simp [hfind])
  have hsize : (order.erase key).map (sizeUnder (pending.erase key)) = (order.erase key).map (sizeUnder pending) := by
    refine List.map_congr_left fun k hk => ?_
    have hne : k ≠ key := (h.nodup.mem_erase_iff.mp hk).1
    rw [sizeUnder,Table.find?_erase,if_neg hne]
    rfl
  refine ⟨h.nodup.erase key,fun k => ?_,fun k p' hp' => ?_,?_,?_⟩
  · rw [h.nodup.mem_erase_iff,h.mem,Table.find?_erase]
    by_cases hk : k = key <;> simp [hk]
  · rw [Table.find?_erase] at hp'
    split_ifs at hp'
    exact h.keyed k p' hp'
  · have hlength : (order.erase key).length+1 = order.length := by
      rw [List.length_erase_of_mem hin]
      have := List.length_pos_of_mem hin
      omega
    have := h.count
    omega
  · have hsum : (order.map (sizeUnder pending)).sum = p.size+((order.erase key).map (sizeUnder pending)).sum := by
      rw [((List.perm_cons_erase hin).map (sizeUnder pending)).sum_eq,List.map_cons,List.sum_cons]
      simp [sizeUnder,hfind]
    have := h.bytes
    rw [hsize]
    omega

theorem insert_new (h : Books ready pending order count bytes) {d : Delta β}
    (hfind : pending.find? (deltaKey d.item d.output) = none) (size : ℤ) :
    Books ready (pending.insert (deltaKey d.item d.output) ⟨d,size⟩) (order ++ [deltaKey d.item d.output]) (count+1)
      (bytes+size) := by
  have hout : deltaKey d.item d.output ∉ order := fun hin => by simpa [hfind] using (h.mem _).mp hin
  have hsize : order.map (sizeUnder (pending.insert (deltaKey d.item d.output) ⟨d,size⟩)) =
      order.map (sizeUnder pending) := by
    refine List.map_congr_left fun k hk => ?_
    have hne : k ≠ deltaKey d.item d.output := fun heq => hout (heq ▸ hk)
    rw [sizeUnder,Table.find?_insert,if_neg hne]
    rfl
  refine ⟨?_,fun k => ?_,fun k p hp => ?_,?_,?_⟩
  · refine List.nodup_append.mpr ⟨h.nodup,List.nodup_singleton _,fun a ha b hb heq => ?_⟩
    exact hout (List.mem_singleton.mp hb ▸ heq ▸ ha)
  · rw [List.mem_append,List.mem_singleton,h.mem,Table.find?_insert]
    by_cases hk : k = deltaKey d.item d.output <;> simp [hk]
  · rw [Table.find?_insert] at hp
    split_ifs at hp with hk
    · rw [← Option.some.inj hp,hk]
    · exact h.keyed k p hp
  · have := h.count
    rw [List.length_append,List.length_singleton]
    push_cast
    omega
  · have := h.bytes
    rw [List.map_append,List.sum_append,hsize,List.map_singleton,List.sum_singleton,sizeUnder,Table.find?_insert_self]
    simp only [Option.map_some,Option.getD_some]
    omega

theorem merge (h : Books ready pending order count bytes) {key : DeltaKey} {p p' : PendingDelta β}
    (hfind : pending.find? key = some p) (hkey : deltaKey p'.delta.item p'.delta.output = key) {extra : ℤ}
    (hsize : p'.size = p.size+extra) : Books ready (pending.insert key p') order count (bytes+extra) := by
  have hin : key ∈ order := (h.mem key).mpr (by simp [hfind])
  have hothers : (order.erase key).map (sizeUnder (pending.insert key p')) = (order.erase key).map (sizeUnder pending) := by
    refine List.map_congr_left fun k hk => ?_
    have hne : k ≠ key := (h.nodup.mem_erase_iff.mp hk).1
    rw [sizeUnder,Table.find?_insert,if_neg hne]
    rfl
  have hperm := List.perm_cons_erase hin
  refine ⟨h.nodup,fun k => ?_,fun k q hq => ?_,h.count,?_⟩
  · rw [h.mem,Table.find?_insert]
    by_cases hk : k = key <;> simp [hk,hfind]
  · rw [Table.find?_insert] at hq
    split_ifs at hq with hk
    · rw [← Option.some.inj hq,hk,hkey]
    · exact h.keyed k q hq
  · have hold : (order.map (sizeUnder pending)).sum = p.size+((order.erase key).map (sizeUnder pending)).sum := by
      rw [(hperm.map (sizeUnder pending)).sum_eq,List.map_cons,List.sum_cons]
      simp [sizeUnder,hfind]
    have hnew : (order.map (sizeUnder (pending.insert key p'))).sum =
        p'.size+((order.erase key).map (sizeUnder pending)).sum := by
      rw [(hperm.map (sizeUnder (pending.insert key p'))).sum_eq,List.map_cons,List.sum_cons,hothers]
      simp [sizeUnder]
    have := h.bytes
    omega

end Books

namespace Subscription

variable {s : Subscription β S}

theorem booked_subscribe (interest : Interest) : (Subscribe β S interest).Booked := Books.empty

theorem booked_lag (s : Subscription β S) : s.lag.Booked := Books.empty

theorem Booked.take (h : s.Booked) : s.Take.sub.Booked := by
  unfold Take
  split_ifs
  · exact h
  · refine ⟨h.nodup,h.mem,h.keyed,?_,?_⟩
    · have := h.count
      simp only [List.length_nil]
      omega
    · have := h.bytes
      simp only [List.map_nil,List.sum_nil]
      omega

/-! ## Removing deltas -/

@[simp] theorem order_forget (s : Subscription β S) (key : DeltaKey) : (s.forget key).order = s.order := by
  unfold forget
  split <;> rfl

@[simp] theorem ready_forget (s : Subscription β S) (key : DeltaKey) : (s.forget key).ready = s.ready := by
  unfold forget
  split <;> rfl

theorem books_forget {order : List DeltaKey} (h : Books s.ready s.pending order s.count s.bytes) (key : DeltaKey) :
    Books s.ready (s.forget key).pending (order.erase key) (s.forget key).count (s.forget key).bytes := by
  unfold forget
  cases hfind : s.pending.find? key with
  | none =>
    have hout : key ∉ order := fun hin => by simpa [hfind] using (h.mem key).mp hin
    rw [List.erase_of_not_mem hout]
    exact h
  | some p => exact h.erase hfind

theorem filter_item {order : List DeltaKey} (hnodup : order.Nodup) (item : ItemID) :
    (order.filter fun k => k.item ≠ item) = (order.erase (deltaKey item false)).erase (deltaKey item true) := by
  rw [(hnodup.erase _).erase_eq_filter,hnodup.erase_eq_filter,List.filter_filter]
  refine List.filter_congr fun k _ => ?_
  have := @DeltaKey.item_eq_iff k item
  by_cases hk : k.item = item
  · rcases this.mp hk with rfl | rfl <;> simp
  · have hfalse : k ≠ deltaKey item false := fun h => hk (this.mpr (.inl h))
    have htrue : k ≠ deltaKey item true := fun h => hk (this.mpr (.inr h))
    simp [hk,hfalse,htrue]

theorem Booked.supersede (h : s.Booked) (item : ItemID) : (s.supersede item).Booked := by
  have hfirst := books_forget h (deltaKey item false)
  have hsecond : Books s.ready ((s.forget (deltaKey item false)).forget (deltaKey item true)).pending
      ((s.order.erase (deltaKey item false)).erase (deltaKey item true))
      ((s.forget (deltaKey item false)).forget (deltaKey item true)).count
      ((s.forget (deltaKey item false)).forget (deltaKey item true)).bytes := by
    have := books_forget (s := s.forget (deltaKey item false)) (by rwa [ready_forget]) (deltaKey item true)
    rwa [ready_forget] at this
  have hthird := hsecond.filter fun m => decide (m.deltaOf = some item)
  rw [← filter_item h.nodup item] at hthird
  simpa [Booked,Subscription.supersede] using hthird

theorem Booked.stored (h : s.Booked) (st : Stored β) : (s.stored st).Booked := by
  unfold Subscription.stored
  split
  · exact h.supersede st.Item
  · exact h

/-! ## Publishing -/

theorem Booked.addStored (h : s.Booked) (st : Stored β) (size : ℕ) (l : Limits) : (s.addStored st size l).Booked := by
  unfold Subscription.addStored
  split_ifs
  · exact h
  · dsimp only
    split_ifs
    · exact booked_lag _
    · exact Books.push (h.stored st) (.stored st size)

theorem Booked.drop (h : s.Booked) (item : ItemID) : (s.drop item).Booked := by
  have hbroken : ({ s with broken := s.broken.add item } : Subscription β S).Booked := h
  exact hbroken.supersede item

theorem Booked.addDelta (size : Delta β → ℕ) (h : s.Booked) (d : Delta β) (l : Limits) :
    (s.addDelta size d l).Booked := by
  unfold Subscription.addDelta
  split
  · exact h
  split
  · exact h
  · dsimp only
    split
    case h_1 p hfind =>
      split
      · exact h.drop d.item
      · have hkey := h.keyed _ p hfind
        have hitem : p.delta.item = d.item := congrArg DeltaKey.item hkey
        exact Books.merge h hfind (by rw [← hitem]) rfl
    case h_2 hfind =>
      split
      · exact h.drop d.item
      · exact Books.insert_new h hfind (size d)

theorem settle_books (size : Delta β → ℕ) {keys : List DeltaKey} {ready : List (Message β S)}
    {pending : Table DeltaKey (PendingDelta β)} {count bytes : ℤ} (hin : ∀ k ∈ keys, (pending.find? k).isSome)
    (hbytes : bytes = (ready.map Message.size).sum+(keys.map (sizeUnder pending)).sum)
    (hs : s.ready = ready ∧ s.pending = pending ∧ s.bytes = bytes ∧ s.count = count) :
    (keys.foldl (settle size) s).ready.length = ready.length+keys.length ∧
      (keys.foldl (settle size) s).bytes = ((keys.foldl (settle size) s).ready.map Message.size).sum ∧
      (keys.foldl (settle size) s).count = count := by
  induction keys generalizing s ready bytes with
  | nil =>
    obtain ⟨hready,-,hb,hc⟩ := hs
    rw [List.foldl_nil,hready,hb,hc,hbytes]
    simp
  | cons k keys ih =>
    obtain ⟨hready,hpending,hb,hc⟩ := hs
    obtain ⟨p,hp⟩ := Option.isSome_iff_exists.mp (hin k List.mem_cons_self)
    have hstep : settle size s k =
        { s with bytes := s.bytes+(size p.delta-p.size), ready := s.ready ++ [.delta p.delta (size p.delta)] } := by
      rw [settle,hpending,hp]
    rw [List.map_cons,List.sum_cons] at hbytes
    have hsize : sizeUnder pending k = p.size := by simp [sizeUnder,hp]
    obtain ⟨hlength,hsum,hcount⟩ := @ih (settle size s k) (ready ++ [.delta p.delta (size p.delta)])
      (bytes+(size p.delta-p.size)) (fun k' hk' => hin k' (List.mem_cons_of_mem _ hk'))
      (by
        rw [List.map_append,List.sum_append,List.map_singleton,List.sum_singleton]
        simp only [Message.size]
        omega)
      (by rw [hstep]; exact ⟨by rw [hready],hpending,by rw [hb],hc⟩)
    rw [List.foldl_cons]
    refine ⟨?_,hsum,hcount⟩
    rw [hlength,List.length_append,List.length_singleton,List.length_cons]
    omega

theorem Booked.flush (size : Delta β → ℕ) (h : s.Booked) : (s.flush size).Booked := by
  have hsignal : (if s.interest.Ticks then s.signal else s).Booked := by
    split_ifs
    · exact h
    · exact h
  unfold Subscription.flush
  dsimp only
  generalize (if s.interest.Ticks then s.signal else s) = s' at hsignal
  split_ifs
  · exact hsignal
  · obtain ⟨hlength,hsum,hcount⟩ := settle_books size (s := s') (fun k hk => (hsignal.mem k).mp hk) hsignal.bytes
      ⟨rfl,rfl,rfl,rfl⟩
    refine ⟨List.nodup_nil,fun k => by simp [signal],fun k p hp => by simp [signal] at hp,?_,?_⟩
    · show (s'.order.foldl (settle size) s').count = ((s'.order.foldl (settle size) s').ready.length : ℤ)+0
      have := hsignal.count
      rw [hcount,hlength]
      push_cast
      omega
    · show (s'.order.foldl (settle size) s').bytes = ((s'.order.foldl (settle size) s').ready.map Message.size).sum+0
      rw [hsum,add_zero]

end Subscription
end Vibesys.Hub
