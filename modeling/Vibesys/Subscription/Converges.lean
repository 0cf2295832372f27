import Vibesys.Subscription.Calls

/-!
# A subscriber converges to its topic

After any calls, what each client holds, what it is owed, what the next frame is, and who is woken.
-/
namespace Vibesys.Subscription

open Library Client

variable {V : Type}

/-- What is right about the frame a client is given, or about there being none. -/
def Right (current : Instance V) (frames : List (Frame V)) : Option (Frame V) → Prop
  | none => holds frames = current.values
  | some (.entry entry) => ∃ e, entry = some e ∧ current.values.find? e.key = some e
  | some (.removed name) => (holds frames).find? name ≠ none
  | some .synced => current.synced = true ∧ .synced ∉ frames ∧
      ∀ name, (holds frames).find? name ≠ none ↔ current.values.find? name ≠ none
  | some (.failed _) => True

namespace Subscriber

theorem owed_eq_zero {each : Subscriber} : each.owed = 0 ↔ each.removed = ∅ ∧ each.unsent = ∅ ∧ each.changed = ∅ ∧
    each.syncPending = false ∧ each.failure = none := by
  unfold owed
  constructor
  · intro h
    have hpending : each.syncPending = false := by
      by_contra hp
      rw [if_pos (by simpa using hp)] at h
      omega
    have hfailure : each.failure = none := by
      by_contra hf
      rw [if_neg hf] at h
      omega
    refine ⟨?_,?_,?_,hpending,hfailure⟩ <;> rw [← Finset.card_eq_zero] <;> omega
  · rintro ⟨hr,hu,hc,hp,hf⟩
    simp [hr,hu,hc,hp,hf]

variable [DecidableEq V] {each : Subscriber} {current : Instance V} {frames : List (Frame V)} {puts : List (TopicEntry V)}

namespace Fits

theorem holds_few (h : each.Fits current frames puts) : (holds frames).keys.length ≤ current.policy.MaxKeys := by
  have hsub : (holds frames).keys.toFinset ⊆ each.delivered := fun name hname => by
    rw [List.mem_toFinset,Table.mem_keys] at hname
    exact (h.tracks name).delivered.mpr (Option.ne_none_iff_exists'.mpr hname)
  rw [← List.toFinset_card_of_nodup (holds frames).nodup_keys]
  exact (Finset.card_le_card hsub).trans h.bound

theorem owed_le (h : each.Fits current frames puts) (hsound : current.Sound puts) :
    each.owed ≤ 2*current.policy.MaxKeys+2 := by
  have hfresh : each.unsent.card+each.changed.card ≤ current.policy.MaxKeys := by
    refine (h.tracks.card_fresh current.values.keys.toFinset fun name hname => ?_).trans
      ((List.toFinset_card_le _).trans hsound.bound)
    exact List.mem_toFinset.mpr (Table.mem_keys.mpr (Option.ne_none_iff_exists'.mp hname))
  have hremoved : each.removed.card ≤ current.policy.MaxKeys :=
    (Finset.card_le_card h.tracks.removed_subset).trans h.bound
  unfold owed
  split_ifs <;> omega

theorem synced_once (h : each.Fits current frames puts) : frames.count .synced ≤ 1 := by
  have := h.synced
  split_ifs at this <;> omega

theorem right (h : each.Fits current frames puts) (hsound : current.Sound puts) {s : State V}
    (hcurrent : s.heap.find? each.instance_ = some current) {each' : Subscriber} {frame : Option (Frame V)}
    (htakes : each.Takes s each' frame) :
    Right current frames frame ∧ ∀ cause, .failed cause ∈ frames → frame = some (.failed cause) := by
  have hafter : each.failure = none → ∀ cause, .failed cause ∈ frames → frame = some (.failed cause) := by
    intro hfailure cause hin
    have := h.failed cause hin
    rw [hfailure] at this
    cases this
  cases htakes with
  | failed hcause =>
    refine ⟨trivial,fun cause hin => ?_⟩
    rw [Option.some.inj (hcause.symm.trans (h.failed cause hin))]
  | removed hfailure hname => exact ⟨((h.tracks _).removed.mp hname).1,hafter hfailure⟩
  | new hfailure hremoved hname =>
    obtain ⟨e,he,_⟩ := h.sendNew hsound hremoved hname
    refine ⟨⟨e,by simp [State.valueOf,hcurrent,he],?_⟩,hafter hfailure⟩
    rwa [(hsound.latest _ e he).1]
  | synced hfailure hremoved hunsent hpending =>
    have hsynced := h.synced
    rw [hpending,if_pos rfl] at hsynced
    refine ⟨⟨?_,fun hin => ?_,fun name => not_congr (h.tracks.same_keys hremoved hunsent name)⟩,hafter hfailure⟩
    · by_contra hnot
      rw [if_neg hnot] at hsynced
      omega
    · have := List.count_pos_iff.mpr hin
      split_ifs at hsynced <;> omega
  | changed hfailure _ _ _ hname =>
    obtain ⟨e,he,_⟩ := h.refresh hsound hname
    refine ⟨⟨e,by simp [State.valueOf,hcurrent,he],?_⟩,hafter hfailure⟩
    rwa [(hsound.latest _ e he).1]
  | nothing hfailure hremoved hunsent _ hchanged =>
    exact ⟨Table.ext fun name => congrFun (h.tracks.same hremoved hunsent hchanged) name,hafter hfailure⟩

end Fits
end Subscriber

namespace State

variable {s : State V} {id : SubscriberID} {each each' : Subscriber}

theorem wakes_each {c : Instance V} {f : Subscriber → Subscriber} (hold : s.subscribers.find? id = some each)
    (hnew : (s.each c f).subscribers.find? id = some each') (hne : each' ≠ each) : id ∈ c.subscribers := by
  rw [find?_each,hold,Option.map_some] at hnew
  by_contra hout
  rw [if_neg hout] at hnew
  exact hne (Option.some.inj hnew).symm

theorem wakes_fail {key : String} {at_ : Generation} {cause : Option TopicFailure}
    (hold : s.subscribers.find? id = some each)
    (hnew : (s.fail key at_ cause).1.subscribers.find? id = some each') (hne : each' ≠ each) :
    id ∈ (s.fail key at_ cause).2.wake := by
  unfold fail at hnew ⊢
  cases hlive : s.live key at_ with
  | none =>
    rw [hlive] at hnew
    exact absurd (Option.some.inj (hnew.symm.trans hold)) hne
  | some c =>
    rw [hlive] at hnew
    exact wakes_each (s := { s with instances := s.instances.erase c.key }) hold hnew hne

theorem wakes_remove {key name : String} {at_ : Generation} (hold : s.subscribers.find? id = some each)
    (hnew : (s.remove key at_ name).1.subscribers.find? id = some each') (hzero : each.owed = 0) (hpos : 0 < each'.owed) :
    id ∈ (s.remove key at_ name).2.wake := by
  have hne : each' ≠ each := fun he => by
    rw [he,hzero] at hpos
    exact lt_irrefl 0 hpos
  unfold remove at hnew ⊢
  cases hlive : s.live key at_ with
  | none =>
    rw [hlive] at hnew
    exact absurd (Option.some.inj (hnew.symm.trans hold)) hne
  | some c =>
    rw [hlive] at hnew
    dsimp only at hnew ⊢
    split_ifs at hnew ⊢
    · exact absurd (Option.some.inj (hnew.symm.trans hold)) hne
    have hin := wakes_each (s := s.store _) hold hnew hne
    rw [find?_each] at hnew
    simp only [store,hold,Option.map_some,if_pos hin,Option.some.injEq] at hnew
    refine Finset.mem_filter.mpr ⟨hin,?_⟩
    by_contra hnot
    have hout : name ∉ each.delivered := by simpa [hold] using hnot
    obtain ⟨hr,hu,hc,hp,hf⟩ := Subscriber.owed_eq_zero.mp hzero
    have : each'.owed = 0 := by
      rw [← hnew,Subscriber.owed_eq_zero]
      simp [Debt.remove,hout,hr,hu,hc,hp,hf]
    omega

theorem wakes_synced {key : String} {at_ : Generation} (hold : s.subscribers.find? id = some each)
    (hnew : (s.synced key at_).1.subscribers.find? id = some each') (hne : each' ≠ each) :
    id ∈ (s.synced key at_).2.wake := by
  unfold State.synced at hnew ⊢
  cases hlive : s.live key at_ with
  | none =>
    rw [hlive] at hnew
    exact absurd (Option.some.inj (hnew.symm.trans hold)) hne
  | some c =>
    rw [hlive] at hnew
    dsimp only at hnew ⊢
    split_ifs at hnew ⊢
    · exact absurd (Option.some.inj (hnew.symm.trans hold)) hne
    · exact wakes_each (s := s.store _) hold hnew hne

theorem startWaiting_same (s : State V) (key : String) (wake : Finset SubscriberID) :
    (s.startWaiting key wake).1.subscribers = s.subscribers ∧ (s.startWaiting key wake).2.wake = wake := by
  unfold startWaiting
  split
  · split_ifs <;> exact ⟨rfl,rfl⟩
  · exact ⟨rfl,rfl⟩

theorem wakes_ended {ref : ProducerRef} {cause : Option TopicFailure} (hold : s.subscribers.find? id = some each)
    (hnew : (s.ended ref cause).1.subscribers.find? id = some each') (hne : each' ≠ each) :
    id ∈ (s.ended ref cause).2.wake := by
  unfold ended at hnew ⊢
  split_ifs at hnew ⊢
  swap
  · exact absurd (Option.some.inj (hnew.symm.trans hold)) hne
  dsimp only at hnew ⊢
  split at hnew
  case h_1 c hlive =>
    rw [(startWaiting_same _ _ _).1] at hnew
    rw [(startWaiting_same _ _ _).2]
    exact wakes_each (s := { s with producers := s.producers.erase ref.key, instances := s.instances.erase c.key })
      hold hnew hne
  case h_2 =>
    rw [(startWaiting_same _ _ _).1] at hnew
    exact absurd (Option.some.inj (hnew.symm.trans hold)) hne

theorem wakes_overdue {ref : ProducerRef} (hold : s.subscribers.find? id = some each)
    (hnew : (s.overdue ref).1.subscribers.find? id = some each') (hne : each' ≠ each) : id ∈ (s.overdue ref).2.wake := by
  unfold overdue at hnew ⊢
  cases hlife : s.producers.find? ref.key with
  | none =>
    rw [hlife] at hnew
    exact absurd (Option.some.inj (hnew.symm.trans hold)) hne
  | some life =>
    rw [hlife] at hnew
    dsimp only at hnew ⊢
    split_ifs at hnew ⊢
    · exact absurd (Option.some.inj (hnew.symm.trans hold)) hne
    · split at hnew
      case h_1 next hc =>
        split_ifs at hnew ⊢
        · exact wakes_each (s := { s with
            producers := s.producers.insert ref.key { life with abandoned := true }
            instances := s.instances.erase next.key }) hold hnew hne
        · exact absurd (Option.some.inj (hnew.symm.trans hold)) hne
      case h_2 => exact absurd (Option.some.inj (hnew.symm.trans hold)) hne

theorem same_leave (hold : s.subscribers.find? id = some each) {j : SubscriberID}
    (hnew : ((s.leave j).getD (s,{})).1.subscribers.find? id = some each') : each' = each := by
  cases hleave : s.leave j with
  | none =>
    rw [hleave] at hnew
    exact Option.some.inj (hnew.symm.trans hold)
  | some r =>
    rw [hleave,Option.getD_some] at hnew
    have hsubscribers : r.1.subscribers = s.subscribers.erase j := by
      obtain ⟨left,_,hleave⟩ := Option.bind_eq_some_iff.mp hleave
      obtain ⟨held,_,hleave⟩ := Option.bind_eq_some_iff.mp hleave
      dsimp only at hleave
      split at hleave <;> cases hleave <;> rfl
    rw [hsubscribers,Table.find?_erase] at hnew
    split_ifs at hnew
    exact Option.some.inj (hnew.symm.trans hold)

theorem same_next (hold : s.subscribers.find? id = some each) (hzero : each.owed = 0) {j : SubscriberID} {order : Order}
    (hnew : (((s.next j order).map fun r => r.1).getD s).subscribers.find? id = some each') : each' = each := by
  cases hnext : s.next j order with
  | none =>
    rw [hnext] at hnew
    exact Option.some.inj (hnew.symm.trans hold)
  | some r =>
    obtain ⟨s',frame,last⟩ := r
    obtain ⟨x,x',hx,htakes,rfl⟩ := of_next hnext
    rw [hnext] at hnew
    simp only [Option.map_some,Option.getD_some,Table.find?_insert] at hnew
    split_ifs at hnew with hj
    · subst hj
      obtain rfl := Option.some.inj (hold.symm.trans hx)
      obtain ⟨hr,hu,hc,hp,hf⟩ := Subscriber.owed_eq_zero.mp hzero
      rw [← Option.some.inj hnew]
      cases htakes with
      | failed => rfl
      | nothing => rfl
      | removed _ hname => simp [hr] at hname
      | new _ _ hname => simp [hu] at hname
      | synced _ _ _ hpending => simp [hp] at hpending
      | changed _ _ _ _ hname => simp [hc] at hname
    · exact Option.some.inj (hnew.symm.trans hold)

variable [DecidableEq V]

theorem wakes_put {key name : String} {at_ : Generation} {e : TopicEntry V} {size : ℕ}
    (hold : s.subscribers.find? id = some each)
    (hnew : (s.put key at_ name e size).1.subscribers.find? id = some each') (hne : each' ≠ each) :
    id ∈ (s.put key at_ name e size).2.wake := by
  unfold put at hnew ⊢
  cases hlive : s.live key at_ with
  | none =>
    rw [hlive] at hnew
    exact absurd (Option.some.inj (hnew.symm.trans hold)) hne
  | some c =>
    rw [hlive] at hnew
    dsimp only at hnew ⊢
    split_ifs at hnew ⊢
    · exact wakes_fail hold hnew hne
    · exact wakes_fail hold hnew hne
    · exact absurd (Option.some.inj (hnew.symm.trans hold)) hne
    · exact wakes_each (s := s.store _) hold hnew hne

end State

namespace World.Kept

variable [DecidableEq V] {w : World V}

theorem same_join (h : w.Kept) {connection : ℕ} {topic key : String} {policy : TopicPolicy} {s : State V}
    {new id : SubscriberID} {work : Effects} (hjoin : w.state.join connection topic key policy = .ok (s,new,work))
    {each each' : Subscriber} (hold : w.state.subscribers.find? id = some each)
    (hnew : s.subscribers.find? id = some each') : each' = each := by
  unfold State.join at hjoin
  split_ifs at hjoin
  cases hfor : w.state.instanceFor topic key policy with
  | error cause =>
    rw [hfor] at hjoin
    cases hjoin
  | ok r =>
    obtain ⟨s₁,c,work₁⟩ := r
    rw [hfor] at hjoin
    cases hjoin
    obtain ⟨hkept,_,hsubscribers⟩ := h.instanceFor hfor
    have hold₁ : s₁.subscribers.find? id = some each := by rw [hsubscribers,hold]
    have hne : id ≠ s₁.nextID+1 := (Nat.lt_succ_of_le (hkept.known id each hold₁)).ne
    simp only [Table.find?_insert] at hnew
    rw [if_neg hne] at hnew
    exact Option.some.inj (hnew.symm.trans hold₁)

/-- Whoever a call makes owe a frame that owed none is woken. -/
theorem wakes (h : w.Kept) (a : Act V) {id : SubscriberID} {each each' : Subscriber}
    (hold : w.state.subscribers.find? id = some each) (hnew : (w.state.act a).1.subscribers.find? id = some each')
    (hzero : each.owed = 0) (hpos : 0 < each'.owed) : id ∈ (w.state.act a).2.wake := by
  have hne : each' ≠ each := fun he => by
    rw [he,hzero] at hpos
    exact lt_irrefl 0 hpos
  cases a with
  | join connection topic key policy =>
    cases hjoin : w.state.join connection topic key policy with
    | error cause =>
      simp only [State.act,hjoin] at hnew
      exact absurd (Option.some.inj (hnew.symm.trans hold)) hne
    | ok r =>
      simp only [State.act,hjoin] at hnew
      exact absurd (h.same_join hjoin hold hnew) hne
  | leave j => exact absurd (State.same_leave hold hnew) hne
  | put key at_ name value size => exact State.wakes_put hold hnew hne
  | remove key at_ name => exact State.wakes_remove hold hnew hzero hpos
  | synced key at_ => exact State.wakes_synced hold hnew hne
  | fail key at_ cause => exact State.wakes_fail hold hnew hne
  | ended ref cause => exact State.wakes_ended hold hnew hne
  | overdue ref => exact State.wakes_overdue hold hnew hne
  | next j order => exact absurd (State.same_next hold hzero hnew) hne

end World.Kept

theorem State.next_of_subscriber {s : State V} {id : SubscriberID} {each : Subscriber}
    (h : s.subscribers.find? id = some each) (order : Order) :
    ∃ s' frame last, s.next id order = some (s',frame,last) := by
  unfold State.next
  rw [h,Option.bind_eq_bind,Option.bind_some]
  dsimp only
  split
  · exact ⟨_,_,_,rfl⟩
  · split
    · exact ⟨_,_,_,rfl⟩
    · split
      · exact ⟨_,_,_,rfl⟩
      · split_ifs
        · exact ⟨_,_,_,rfl⟩
        · split <;> exact ⟨_,_,_,rfl⟩

/-- After any calls on a new state, each client holds at most as many keys as the topic allows and values in the
order they were put, was told once at most that it is complete, and is owed a bounded number of frames; `next` answers
it, with a frame that is right or with none, and with its failure once it had one. A call that makes a subscriber owe a frame which
owed none wakes it. -/
theorem subscriber_converges [DecidableEq V] (limits : Limits) (acts : List (Act V)) :
    let w := run World.step (World.new V limits) acts
    (∀ id each, w.state.subscribers.find? id = some each →
      ∃ current, w.state.heap.find? each.instance_ = some current ∧
        (holds (w.frames id)).keys.length ≤ current.policy.MaxKeys ∧
        each.owed ≤ 2*current.policy.MaxKeys+2 ∧
        (w.frames id).count .synced ≤ 1 ∧
        (∀ name, (given (w.frames id) name).Sublist (putsOf (w.puts each.instance_) name)) ∧
        ∀ order, ∃ s' frame last, w.state.next id order = some (s',frame,last) ∧
          Right current (w.frames id) frame ∧ ∀ cause, .failed cause ∈ w.frames id → frame = some (.failed cause)) ∧
    ∀ a id each each', w.state.subscribers.find? id = some each → (w.state.act a).1.subscribers.find? id = some each' →
      each.owed = 0 → 0 < each'.owed → id ∈ (w.state.act a).2.wake := by
  intro w
  have h : w.Kept := World.Kept.run limits acts
  refine ⟨fun id each heach => ?_,fun a id each each' hold hnew hzero hpos => h.wakes a hold hnew hzero hpos⟩
  obtain ⟨current,hcurrent,_,hfit⟩ := h.fits id each heach
  have hsound := h.sound _ current hcurrent
  refine ⟨current,hcurrent,hfit.holds_few,hfit.owed_le hsound,hfit.synced_once,fun name => (hfit.order name).1,?_⟩
  intro order
  obtain ⟨s',frame,last,hnext⟩ := State.next_of_subscriber heach order
  refine ⟨s',frame,last,hnext,?_⟩
  obtain ⟨each₁,each',heach₁,htakes,_⟩ := State.of_next hnext
  obtain rfl := Option.some.inj (heach.symm.trans heach₁)
  exact hfit.right hsound hcurrent htakes

/-- Names are walked through in their order. -/
def ascending : Order where
  pick t := t.min
  mem h := Finset.mem_of_min h
  empty h := Finset.min_eq_top.mp h

/-- A key is sent and removed, another one is sent, and the client is told that it has all. -/
def watched : List (Act ℕ) :=
  [.join 0 "jobs" "k" ⟨2,8⟩,.put "k" 1 "a" 7 1,.next 2 ascending,.put "k" 1 "b" 8 1,.remove "k" 1 "a",
    .next 2 ascending,.next 2 ascending,.synced "k" 1,.next 2 ascending]

theorem subscriber_converges_watched :
    let w := run World.step (World.new ℕ ⟨4,4⟩) watched
    w.frames 2 = [.entry (some ⟨"a",7⟩),.removed "a",.entry (some ⟨"b",8⟩),.synced] ∧
    ∃ each current s' frame last, w.state.subscribers.find? 2 = some each ∧
      w.state.heap.find? each.instance_ = some current ∧ w.state.next 2 ascending = some (s',frame,last) ∧
      Right current (w.frames 2) frame := by
  intro w
  have hthere : (w.state.subscribers.find? 2).isSome = true := by decide +kernel
  obtain ⟨each,heach⟩ := Option.isSome_iff_exists.mp hthere
  obtain ⟨current,hcurrent,_,_,_,_,hnext⟩ := (subscriber_converges ⟨4,4⟩ watched).1 2 each heach
  obtain ⟨s',frame,last,hgiven,hright,_⟩ := hnext ascending
  exact ⟨by decide +kernel,each,current,s',frame,last,heach,hcurrent,hgiven,hright⟩

end Vibesys.Subscription
