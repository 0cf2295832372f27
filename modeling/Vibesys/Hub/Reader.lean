import Vibesys.Hub.Booked

/-!
# One reader of the hub

A subscription with what was published to it and what its client was given: the events it wants since it began
or was last resumed, those that were taken, whether one of them was not queued, and the views of searches.
-/
namespace Vibesys.Hub

open Library

variable {β S : Type}

def storedOf (ms : List (Message β S)) : List (Stored β) :=
  ms.filterMap fun
    | .stored st _ => some st
    | _ => none

def searchOf (ms : List (Message β S)) : List (SearchState S) :=
  ms.filterMap fun
    | .search state => some state
    | _ => none

lemma storedOf_append (ms ms' : List (Message β S)) : storedOf (ms ++ ms') = storedOf ms ++ storedOf ms' := by
  simp [storedOf]

lemma storedOf_search (states : List (SearchState S)) : storedOf (β := β) (states.map Message.search) = [] := by
  induction states with
  | nil => rfl
  | cons state states ih => simp [storedOf]

lemma searchOf_append (ms ms' : List (Message β S)) : searchOf (ms ++ ms') = searchOf ms ++ searchOf ms' := by
  simp [searchOf]

lemma searchOf_search (states : List (SearchState S)) : searchOf (β := β) (states.map Message.search) = states := by
  induction states with
  | nil => rfl
  | cons state states ih => simp [searchOf]

structure Reader (β S : Type) where
  sub : Subscription β S
  since : List (Stored β) := []
  taken : List (Stored β) := []
  lost : Bool := false
  published : List (SearchState S) := []
  returned : List (SearchState S) := []

inductive Op (β S : Type)
  | publishStored (st : Stored β)
  | publishLatest (run : RunID) (state : SearchState S)
  | publishDelta (d : Delta β)
  | flush
  | take
  | resume

namespace Reader

variable (size : Delta β → ℕ) (l : Limits)

def step (w : Reader β S) : Op β S → Reader β S
  | .publishStored st =>
    let sub := w.sub.publishStored st l
    if w.sub.wantsStored st then
      -- it was not queued if the queue has no event more
      { w with
        sub := sub
        since := w.since ++ [st]
        lost := w.lost || decide ((storedOf sub.ready).length ≤ (storedOf w.sub.ready).length) }
    else { w with sub := sub }
  | .publishLatest run state =>
    match w.sub.publishLatest run state with
    | some sub => { w with sub := sub, published := w.published ++ [state] }
    | none => w
  | .publishDelta d => { w with sub := w.sub.publishDelta size d l }
  | .flush => { w with sub := w.sub.flush size }
  | .take =>
    { w with
      sub := w.sub.Take.sub
      taken := w.taken ++ storedOf w.sub.Take.messages
      returned := w.returned ++ searchOf w.sub.Take.messages }
  | .resume => { w with sub := w.sub.Resume, since := [], taken := [], lost := false }

/-- A client is resumed only while it lags. -/
def Meets (w : Reader β S) : Op β S → Prop
  | .resume => w.sub.lagged = true
  | _ => True

instance (w : Reader β S) (op : Op β S) : Decidable (w.Meets op) := by
  cases op <;> unfold Meets <;> infer_instance

def start (β S : Type) (interest : Interest) : Reader β S := { sub := Subscribe β S interest }

end Reader

/-! ## What deltas leave alone -/

/-- The queue of events, the views and the lag are as they were. -/
structure Subscription.Quiet (s s' : Subscription β S) : Prop where
  interest : s'.interest = s.interest
  latest : s'.latest = s.latest
  revisions : s'.revisions = s.revisions
  lagged : s'.lagged = s.lagged
  stored : storedOf s'.ready = storedOf s.ready
  searches : searchOf s'.ready = searchOf s.ready

namespace Subscription

variable {s s' s'' : Subscription β S}

theorem Quiet.refl (s : Subscription β S) : s.Quiet s := ⟨rfl,rfl,rfl,rfl,rfl,rfl⟩

theorem Quiet.trans (h : s.Quiet s') (h' : s'.Quiet s'') : s.Quiet s'' :=
  ⟨h'.interest.trans h.interest,h'.latest.trans h.latest,h'.revisions.trans h.revisions,h'.lagged.trans h.lagged,
    h'.stored.trans h.stored,h'.searches.trans h.searches⟩

theorem quiet_forget (s : Subscription β S) (key : DeltaKey) : s.Quiet (s.forget key) := by
  unfold forget
  split <;> exact ⟨rfl,rfl,rfl,rfl,rfl,rfl⟩

lemma storedOf_filter (ms : List (Message β S)) (item : ItemID) :
    storedOf (ms.filter fun m => decide (m.deltaOf ≠ some item)) = storedOf ms := by
  rw [storedOf,storedOf,List.filterMap_filter]
  refine List.filterMap_congr fun m _ => ?_
  cases m <;> simp [Message.deltaOf]

lemma searchOf_filter (ms : List (Message β S)) (item : ItemID) :
    searchOf (ms.filter fun m => decide (m.deltaOf ≠ some item)) = searchOf ms := by
  rw [searchOf,searchOf,List.filterMap_filter]
  refine List.filterMap_congr fun m _ => ?_
  cases m <;> simp [Message.deltaOf]

theorem quiet_supersede (s : Subscription β S) (item : ItemID) : s.Quiet (s.supersede item) := by
  have h := (quiet_forget s (deltaKey item false)).trans (quiet_forget _ (deltaKey item true))
  exact ⟨h.interest,h.latest,h.revisions,h.lagged,(storedOf_filter _ item).trans h.stored,
    (searchOf_filter _ item).trans h.searches⟩

theorem quiet_stored (s : Subscription β S) (st : Stored β) : s.Quiet (s.stored st) := by
  unfold stored
  split
  · have h := quiet_supersede s st.Item
    exact ⟨h.interest,h.latest,h.revisions,h.lagged,h.stored,h.searches⟩
  · exact .refl s

theorem quiet_drop (s : Subscription β S) (item : ItemID) : s.Quiet (s.drop item) :=
  @Quiet.trans _ _ _ { s with broken := s.broken.add item } _ ⟨rfl,rfl,rfl,rfl,rfl,rfl⟩ (quiet_supersede _ item)

theorem quiet_addDelta (size : Delta β → ℕ) (s : Subscription β S) (d : Delta β) (l : Limits) :
    s.Quiet (s.addDelta size d l) := by
  unfold addDelta
  split
  · exact .refl s
  split
  · exact .refl s
  dsimp only
  split
  · split
    · exact quiet_drop s d.item
    · exact ⟨rfl,rfl,rfl,rfl,rfl,rfl⟩
  · split
    · exact quiet_drop s d.item
    · exact ⟨rfl,rfl,rfl,rfl,rfl,rfl⟩

theorem quiet_settle (size : Delta β → ℕ) (s : Subscription β S) (key : DeltaKey) : s.Quiet (s.settle size key) := by
  unfold settle
  split
  · refine ⟨rfl,rfl,rfl,rfl,?_,?_⟩
    · simp [storedOf]
    · simp [searchOf]
  · exact .refl s

theorem quiet_foldl (size : Delta β → ℕ) (s : Subscription β S) (keys : List DeltaKey) :
    s.Quiet (keys.foldl (settle size) s) := by
  induction keys generalizing s with
  | nil => exact .refl s
  | cons k keys ih => exact (quiet_settle size s k).trans (ih _)

theorem quiet_flush (size : Delta β → ℕ) (s : Subscription β S) : s.Quiet (s.flush size) := by
  have hsignal : s.Quiet (if s.interest.Ticks then s.signal else s) := by
    split
    · exact ⟨rfl,rfl,rfl,rfl,rfl,rfl⟩
    · exact .refl s
  unfold flush
  dsimp only
  generalize (if s.interest.Ticks then s.signal else s) = s' at hsignal
  split
  · exact hsignal
  · have h := hsignal.trans (quiet_foldl size s' s'.order)
    exact ⟨h.interest,h.latest,h.revisions,h.lagged,h.stored,h.searches⟩

theorem quiet_publishDelta (size : Delta β → ℕ) (s : Subscription β S) (d : Delta β) (l : Limits) :
    s.Quiet (s.publishDelta size d l) := by
  unfold publishDelta
  split
  · exact quiet_addDelta size s d l
  · exact .refl s

theorem Take_of_lagged (h : s.lagged = true) : s.Take = ⟨[],true,s⟩ := if_pos h

theorem Take_of_queued (h : s.lagged = false) :
    s.Take = ⟨s.ready ++ s.latest.values.map Message.search,false,
      { s with
        ready := []
        count := s.count-s.ready.length
        bytes := s.bytes-(s.ready.map Message.size).sum
        latest := ∅ }⟩ :=
  if_neg (Bool.eq_false_iff.mp h)

theorem publishDelta_of_lagged (size : Delta β → ℕ) (d : Delta β) (l : Limits) (h : s.lagged = true) :
    s.publishDelta size d l = s := by
  unfold publishDelta addDelta
  rw [h,Bool.or_true,if_pos rfl]
  exact ite_self s

theorem flush_of_order (size : Delta β → ℕ) (h : s.order = []) : (s.flush size).ready = s.ready ∧ (s.flush size).order = [] := by
  have hsignal : (if s.interest.Ticks then s.signal else s).ready = s.ready ∧
      (if s.interest.Ticks then s.signal else s).order = [] := by
    split
    · exact ⟨rfl,h⟩
    · exact ⟨rfl,h⟩
  unfold flush
  dsimp only
  rw [if_pos (by rw [hsignal.2]; rfl)]
  exact hsignal

theorem addStored_cases (s : Subscription β S) (st : Stored β) (size : ℕ) (l : Limits) (hlagged : s.lagged = false) :
    (s.addStored st size l).interest = s.interest ∧ (s.addStored st size l).latest = s.latest ∧
      (s.addStored st size l).revisions = s.revisions ∧
      ((s.addStored st size l).lagged = true ∧ (s.addStored st size l).ready = [] ∧ (s.addStored st size l).order = [] ∨
        (s.addStored st size l).lagged = false ∧ storedOf (s.addStored st size l).ready = storedOf s.ready ++ [st] ∧
          searchOf (s.addStored st size l).ready = searchOf s.ready) := by
  have h := quiet_stored s st
  unfold addStored
  rw [hlagged,if_neg Bool.false_ne_true]
  dsimp only
  split
  · exact ⟨h.interest,h.latest,h.revisions,.inl ⟨rfl,rfl,rfl⟩⟩
  · refine ⟨h.interest,h.latest,h.revisions,.inr ⟨h.lagged.trans hlagged,?_,?_⟩⟩
    · show storedOf ((s.stored st).ready ++ [.stored st size]) = _
      rw [← h.stored]
      simp [storedOf]
    · show searchOf ((s.stored st).ready ++ [.stored st size]) = _
      rw [← h.searches]
      simp [searchOf]

/-! ## The number of messages queued -/

theorem Booked.supersede_count_le (h : s.Booked) (item : ItemID) : (s.supersede item).count ≤ s.count := by
  have hready : (s.supersede item).ready.length ≤ s.ready.length := by
    unfold Subscription.supersede
    dsimp only
    rw [ready_forget,ready_forget]
    exact List.length_filter_le _ _
  have horder : (s.supersede item).order.length ≤ s.order.length := by
    unfold Subscription.supersede
    dsimp only
    rw [order_forget,order_forget]
    exact List.length_filter_le _ _
  have hold := h.count
  have hnew := (h.supersede item).count
  omega

theorem addStored_count_le (st : Stored β) (size : ℕ) {l : Limits} (hl : 0 < l.MaxItems)
    (hcount : s.count ≤ l.MaxItems) : (s.addStored st size l).count ≤ l.MaxItems := by
  unfold Subscription.addStored
  split
  · exact hcount
  dsimp only
  split
  · exact hl.le
  · show (s.stored st).count+1 ≤ l.MaxItems
    omega

theorem Booked.addDelta_count_le (size : Delta β → ℕ) (h : s.Booked) (d : Delta β) {l : Limits}
    (hcount : s.count ≤ l.MaxItems) : (s.addDelta size d l).count ≤ l.MaxItems := by
  have hdrop : (s.drop d.item).count ≤ l.MaxItems := by
    have hbroken : ({ s with broken := s.broken.add d.item } : Subscription β S).Booked := h
    exact (hbroken.supersede_count_le d.item).trans hcount
  unfold Subscription.addDelta
  split
  · exact hcount
  split
  · exact hcount
  dsimp only
  split
  · split
    · exact hdrop
    · exact hcount
  · split
    · exact hdrop
    · show s.count+1 ≤ l.MaxItems
      omega

theorem count_foldl (size : Delta β → ℕ) (s : Subscription β S) (keys : List DeltaKey) :
    (keys.foldl (settle size) s).count = s.count := by
  induction keys generalizing s with
  | nil => rfl
  | cons k keys ih =>
    rw [List.foldl_cons,ih,settle]
    split <;> rfl

theorem count_flush (size : Delta β → ℕ) (s : Subscription β S) : (s.flush size).count = s.count := by
  have hsignal : (if s.interest.Ticks then s.signal else s).count = s.count := by
    split <;> rfl
  unfold flush
  dsimp only
  generalize (if s.interest.Ticks then s.signal else s) = s' at hsignal
  split
  · exact hsignal
  · exact (count_foldl size s' s'.order).trans hsignal

end Subscription
end Vibesys.Hub
