import Vibesys.Subscription.Clients

/-!
# A subscriber's books

What each call does to what an instance retains and to the books of its subscribers, and what a call of `next`
takes from them.
-/
namespace Vibesys.Subscription

open Library Client

variable {V : Type}

/-- The frame that a call of `next` takes for a subscriber, and its books after that. -/
inductive Subscriber.Takes (s : State V) (each : Subscriber) : Subscriber → Option (Frame V) → Prop
  | failed {cause} (hcause : each.failure = some cause) : Takes s each each (some (.failed cause))
  | removed {name} (hfailure : each.failure = none) (hname : name ∈ each.removed) :
    Takes s each { each with toDebt := each.toDebt.tellRemoved name } (some (.removed name))
  | new {name} (hfailure : each.failure = none) (hremoved : each.removed = ∅) (hname : name ∈ each.unsent) :
    Takes s each { each with toDebt := each.toDebt.sendNew name } (some (.entry (s.valueOf each name)))
  | synced (hfailure : each.failure = none) (hremoved : each.removed = ∅) (hunsent : each.unsent = ∅)
      (hpending : each.syncPending = true) : Takes s each { each with syncPending := false } (some .synced)
  | changed {name} (hfailure : each.failure = none) (hremoved : each.removed = ∅) (hunsent : each.unsent = ∅)
      (hpending : each.syncPending = false) (hname : name ∈ each.changed) :
    Takes s each { each with toDebt := each.toDebt.refresh name } (some (.entry (s.valueOf each name)))
  | nothing (hfailure : each.failure = none) (hremoved : each.removed = ∅) (hunsent : each.unsent = ∅)
      (hpending : each.syncPending = false) (hchanged : each.changed = ∅) : Takes s each each none

theorem State.of_next {s s' : State V} {id : SubscriberID} {order : Order} {frame : Option (Frame V)} {last : Bool}
    (h : s.next id order = some (s',frame,last)) : ∃ each each', s.subscribers.find? id = some each ∧
      each.Takes s each' frame ∧ s' = { s with subscribers := s.subscribers.insert id each' } := by
  obtain ⟨each,heach,h⟩ := Option.bind_eq_some_iff.mp h
  have hsame : s = { s with subscribers := s.subscribers.insert id each } := by rw [Table.insert_of_find? heach]
  refine ⟨each,?_⟩
  dsimp only at h
  cases hfailure : each.failure with
  | some cause =>
    rw [hfailure] at h
    cases h
    exact ⟨each,heach,.failed hfailure,hsame⟩
  | none =>
    simp only [hfailure] at h
    cases hremoved : order.pick each.removed with
    | some name =>
      simp only [hremoved] at h
      cases h
      exact ⟨_,heach,.removed hfailure (order.mem hremoved),by rw [hfailure]⟩
    | none =>
      simp only [hremoved] at h
      cases hunsent : order.pick each.unsent with
      | some name =>
        simp only [hunsent] at h
        cases h
        exact ⟨_,heach,.new hfailure (order.empty hremoved) (order.mem hunsent),by rw [hfailure]⟩
      | none =>
        simp only [hunsent] at h
        cases hpending : each.syncPending with
        | true =>
          rw [if_pos hpending] at h
          cases h
          exact ⟨_,heach,.synced hfailure (order.empty hremoved) (order.empty hunsent) hpending,by rw [hfailure]⟩
        | false =>
          rw [if_neg (by simp [hpending])] at h
          cases hchanged : order.pick each.changed with
          | some name =>
            simp only [hchanged] at h
            cases h
            exact ⟨_,heach,.changed hfailure (order.empty hremoved) (order.empty hunsent) hpending
              (order.mem hchanged),by rw [hfailure]⟩
          | none =>
            simp only [hchanged] at h
            cases h
            exact ⟨_,heach,.nothing hfailure (order.empty hremoved) (order.empty hunsent) hpending
              (order.empty hchanged),hsame⟩

namespace Instance.Sound

variable {current : Instance V} {puts : List (TopicEntry V)}

theorem put (h : current.Sound puts) {e : TopicEntry V}
    (hroom : ¬(current.values.find? e.key = none ∧ current.policy.MaxKeys ≤ current.values.keys.length)) :
    ({ current with values := current.values.insert e.key e } : Instance V).Sound (puts ++ [e]) where
  bound := by
    cases hold : current.values.find? e.key with
    | none =>
      have hfew : current.values.keys.length < current.policy.MaxKeys := not_le.mp fun hle => hroom ⟨hold,hle⟩
      rw [Table.length_keys_insert]
      exact (Nat.add_le_add_right (current.values.length_keys_erase_le e.key) 1).trans hfew
    | some b =>
      rw [Table.length_keys_insert_of_find? hold]
      exact h.bound
  latest name e' he' := by
    rw [Table.find?_insert] at he'
    rw [putsOf_concat]
    split_ifs at he' with hname
    · obtain rfl := Option.some.inj he'
      subst hname
      exact ⟨rfl,by simp⟩
    · rw [Function.update_of_ne hname]
      exact h.latest name e' he'

theorem again (h : current.Sound puts) {e : TopicEntry V} (he : current.values.find? e.key = some e) :
    current.Sound (puts ++ [e]) where
  bound := h.bound
  latest name e' he' := by
    rw [putsOf_concat]
    by_cases hname : name = e.key
    · subst hname
      obtain rfl := Option.some.inj (he.symm.trans he')
      exact ⟨rfl,by simp⟩
    · rw [Function.update_of_ne hname]
      exact h.latest name e' he'

theorem remove (h : current.Sound puts) (name : String) :
    ({ current with values := current.values.erase name } : Instance V).Sound puts where
  bound := (current.values.length_keys_erase_le name).trans h.bound
  latest name' e he := by
    rw [Table.find?_erase] at he
    split_ifs at he
    exact h.latest name' e he

end Instance.Sound

variable [DecidableEq V]

namespace Subscriber.Fits

variable {each : Subscriber} {current : Instance V} {frames : List (Frame V)} {puts : List (TopicEntry V)}

theorem put (h : each.Fits current frames puts) (e : TopicEntry V) :
    ({ each with toDebt := each.toDebt.put e.key } : Subscriber).Fits
      { current with values := current.values.insert e.key e } frames (puts ++ [e]) where
  tracks := by
    refine h.tracks.update (k := e.key) ?_ (fun _ hj => Debt.agree_put hj) (fun j hj => ?_) fun _ _ => rfl
    · rw [Table.find?_insert_self]
      exact (h.tracks e.key).put e
    · exact Table.find?_insert_ne _ _ hj
  bound := by
    simpa using h.bound
  order := by
    rw [putsOf_concat]
    exact h.order.put e.key e
  synced := h.synced
  failed := h.failed

theorem again (h : each.Fits current frames puts) (e : TopicEntry V) : each.Fits current frames (puts ++ [e]) where
  tracks := h.tracks
  bound := h.bound
  order := by
    rw [putsOf_concat]
    exact h.order.again e.key e
  synced := h.synced
  failed := h.failed

theorem remove (h : each.Fits current frames puts) (name : String) :
    ({ each with toDebt := each.toDebt.remove name } : Subscriber).Fits
      { current with values := current.values.erase name } frames puts where
  tracks := by
    refine h.tracks.update (k := name) ?_ (fun _ hj => Debt.agree_remove hj) (fun j hj => ?_) fun _ _ => rfl
    · rw [Table.find?_erase,if_pos rfl]
      exact (h.tracks name).remove
    · rw [Table.find?_erase,if_neg hj]
  bound := by
    simpa using h.bound
  order := h.order.of_subset (by simp [Finset.erase_subset]) (by simp [Finset.erase_subset])
  synced := h.synced
  failed := h.failed

theorem markSynced (h : each.Fits current frames puts) (hs : current.synced = false) :
    ({ each with syncPending := true } : Subscriber).Fits { current with synced := true } frames puts where
  tracks := h.tracks
  bound := h.bound
  order := h.order
  synced := by
    have := h.synced
    simp only [hs] at this
    simp only [if_true]
    simp at this
    omega
  failed := h.failed

theorem close (h : each.Fits current frames puts) (hf : each.failure = none) (cause : Option TopicFailure) :
    ({ each with failure := cause } : Subscriber).Fits current frames puts where
  tracks := h.tracks
  bound := h.bound
  order := h.order
  synced := h.synced
  failed c hc := by
    have := h.failed c hc
    rw [hf] at this
    cases this

theorem plain (h : each.Fits current frames puts) (frame : Frame V) (hsynced : frame ≠ .synced)
    (hfailed : ∀ cause, frame ≠ .failed cause) :
    (frames ++ [frame]).count .synced+(if each.syncPending then 1 else 0) ≤ (if current.synced then 1 else 0) ∧
      ∀ cause, .failed cause ∈ frames ++ [frame] → each.failure = some cause := by
  constructor
  · rw [List.count_append,List.count_singleton,if_neg (by simpa using hsynced)]
    exact h.synced
  · intro cause hmem
    rcases List.mem_append.mp hmem with hin | hin
    · exact h.failed cause hin
    · exact absurd (List.mem_singleton.mp hin).symm (hfailed cause)

theorem tellRemoved (h : each.Fits current frames puts) {name : String} (hname : name ∈ each.removed) :
    ({ each with toDebt := each.toDebt.tellRemoved name } : Subscriber).Fits current (frames ++ [.removed name]) puts := by
  obtain ⟨hsynced,hfailed⟩ := h.plain (.removed name) (by simp) (by simp)
  refine ⟨?_,?_,?_,hsynced,hfailed⟩
  · rw [holds_concat]
    refine h.tracks.update (k := name) ?_ (fun _ hj => Debt.agree_tellRemoved hj) (fun _ _ => rfl) fun j hj => ?_
    · rw [Client.apply,Table.find?_erase,if_pos rfl]
      exact (h.tracks name).tellRemoved hname
    · rw [Client.apply,Table.find?_erase,if_neg hj]
  · exact (Finset.card_le_card (Finset.erase_subset _ _)).trans h.bound
  · rw [given_concat (by simp)]
    exact h.order.of_subset (Finset.Subset.refl _) (Finset.Subset.refl _)

theorem entry_tracks (h : each.Fits current frames puts) {d : Debt String} {e : TopicEntry V}
    (he : current.values.find? e.key = some e) (hat : d.TracksAt e.key (some e) (some e))
    (hagree : ∀ j, j ≠ e.key → each.toDebt.Agree d j) :
    d.Tracks current.values.find? (holds (frames ++ [.entry (some e)])).find? := by
  rw [holds_concat]
  refine h.tracks.update (k := e.key) ?_ hagree (fun _ _ => rfl) fun j hj => ?_
  · rw [Client.apply,Table.find?_insert_self,he]
    exact hat
  · exact Table.find?_insert_ne _ _ hj

theorem sendNew (h : each.Fits current frames puts) (hsound : current.Sound puts) (hremoved : each.removed = ∅)
    {name : String} (hname : name ∈ each.unsent) : ∃ e, current.values.find? name = some e ∧
      ({ each with toDebt := each.toDebt.sendNew name } : Subscriber).Fits current (frames ++ [.entry (some e)]) puts := by
  obtain ⟨e,he⟩ := Option.ne_none_iff_exists'.mp ((h.tracks name).unsent.mp hname).1
  obtain ⟨rfl,hlast⟩ := hsound.latest name e he
  refine ⟨e,he,?_⟩
  have hat := (h.tracks e.key).sendNew hname
  rw [he] at hat
  obtain ⟨hsynced,hfailed⟩ := h.plain (.entry (some e)) (by simp) (by simp)
  have hkeys : ∀ k, current.values.find? k ≠ none → k ∈ current.values.keys.toFinset := fun k hk =>
    List.mem_toFinset.mpr (Table.mem_keys.mpr (Option.ne_none_iff_exists'.mp hk))
  refine ⟨h.entry_tracks he hat fun _ hj => Debt.agree_sendNew hj,?_,?_,hsynced,hfailed⟩
  · -- Nothing is left to remove, so what the client holds now is part of what the instance retains.
    have hsub : insert e.key each.delivered ⊆ current.values.keys.toFinset :=
      Finset.insert_subset (hkeys e.key (by simp [he])) (h.tracks.delivered_subset hremoved hkeys)
    exact (Finset.card_le_card hsub).trans ((List.toFinset_card_le _).trans hsound.bound)
  · rw [given_concat_entry]
    refine h.order.give (.inl hname) hlast ⟨by simp [Debt.sendNew],fun hc => ?_⟩ fun _ hj => Debt.agree_sendNew hj
    exact ((h.tracks e.key).changed hc).2 ((h.tracks e.key).unsent.mp hname).2

theorem refresh (h : each.Fits current frames puts) (hsound : current.Sound puts) {name : String}
    (hname : name ∈ each.changed) : ∃ e, current.values.find? name = some e ∧
      ({ each with toDebt := each.toDebt.refresh name } : Subscriber).Fits current (frames ++ [.entry (some e)]) puts := by
  obtain ⟨e,he⟩ := Option.ne_none_iff_exists'.mp ((h.tracks name).changed hname).1
  obtain ⟨rfl,hlast⟩ := hsound.latest name e he
  refine ⟨e,he,?_⟩
  have hat := (h.tracks e.key).refresh hname
  rw [he] at hat
  obtain ⟨hsynced,hfailed⟩ := h.plain (.entry (some e)) (by simp) (by simp)
  refine ⟨h.entry_tracks he hat fun _ hj => Debt.agree_refresh hj,h.bound,?_,hsynced,hfailed⟩
  rw [given_concat_entry]
  refine h.order.give (.inr hname) hlast ⟨fun hu => ?_,by simp [Debt.refresh]⟩ fun _ hj => Debt.agree_refresh hj
  exact ((h.tracks e.key).changed hname).2 ((h.tracks e.key).unsent.mp hu).2

theorem sendSynced (h : each.Fits current frames puts) (hpending : each.syncPending = true) :
    ({ each with syncPending := false } : Subscriber).Fits current (frames ++ [.synced]) puts := by
  refine ⟨?_,h.bound,?_,?_,?_⟩
  · rw [holds_concat]
    exact h.tracks
  · rw [given_concat (by simp)]
    exact h.order
  · have := h.synced
    rw [hpending] at this
    simpa using this
  · intro cause hmem
    exact h.failed cause (by simpa using hmem)

theorem sendFailed (h : each.Fits current frames puts) {cause : TopicFailure} (hcause : each.failure = some cause) :
    each.Fits current (frames ++ [.failed cause]) puts := by
  refine ⟨?_,h.bound,?_,?_,?_⟩
  · rw [holds_concat]
    exact h.tracks
  · rw [given_concat (by simp)]
    exact h.order
  · simpa using h.synced
  · intro cause' hmem
    rcases List.mem_append.mp hmem with hin | hin
    · exact h.failed cause' hin
    · cases List.mem_singleton.mp hin
      exact hcause

end Subscriber.Fits

end Vibesys.Subscription
