import Vibesys.Subscription.Books

/-!
# Every call keeps the world

What holds between calls holds after any of them: each call is a write to one instance and its subscribers, a
frame for one subscriber, or a subscriber that comes or goes.
-/
namespace Vibesys.Subscription

open Library Client

variable {V : Type} [DecidableEq V]

namespace World.Kept

variable {w w' : World V}

theorem new (limits : Limits) : (World.new V limits).Kept := by
  constructor <;> simp [World.new,newState]

theorem congr (h : w.Kept) (hheap : w'.state.heap = w.state.heap) (hsubscribers : w'.state.subscribers = w.state.subscribers)
    (hinstances : w'.state.instances = w.state.instances) (hnext : w'.state.nextID = w.state.nextID)
    (hframes : w'.frames = w.frames) (hputs : w'.puts = w.puts) : w'.Kept := by
  constructor <;> simp only [hheap,hsubscribers,hinstances,hnext,hframes,hputs]
  · exact h.generation
  · exact h.instances
  · exact h.sound
  · exact h.members
  · exact h.known
  · exact h.going
  · exact h.fits
  · exact h.fresh

theorem gives (h : w.Kept) {id : SubscriberID} {each each' : Subscriber} {frames : List (Frame V)}
    (heach : w.state.subscribers.find? id = some each) (hpoint : each'.instance_ = each.instance_)
    (hfailure : each'.failure = each.failure)
    (hfits : ∀ c, w.state.heap.find? each.instance_ = some c → each.Fits c (w.frames id) (w.puts each.instance_) →
      each'.Fits c frames (w.puts each.instance_)) :
    World.Kept ⟨{ w.state with subscribers := w.state.subscribers.insert id each' },Function.update w.frames id frames,
      w.puts⟩ := by
  refine ⟨h.generation,h.instances,h.sound,?_,?_,?_,?_,?_⟩
  · intro g c j hc hj
    obtain ⟨old,hold,hinst⟩ := h.members g c j hc hj
    dsimp only
    rw [Table.find?_insert]
    split_ifs with hid
    · subst hid
      obtain rfl := Option.some.inj (heach.symm.trans hold)
      exact ⟨each',rfl,hpoint.trans hinst⟩
    · exact ⟨old,hold,hinst⟩
  · intro j x hx
    dsimp only at hx
    rw [Table.find?_insert] at hx
    split_ifs at hx with hid
    · rw [hid]
      exact h.known id each heach
    · exact h.known j x hx
  · intro key g j x hg hx hinst
    dsimp only at hg hx
    rw [Table.find?_insert] at hx
    split_ifs at hx with hid
    · obtain rfl := Option.some.inj hx
      rw [hfailure]
      exact h.going key g id each hg heach (hpoint.symm.trans hinst)
    · exact h.going key g j x hg hx hinst
  · intro j x hx
    dsimp only at hx ⊢
    rw [Table.find?_insert] at hx
    split_ifs at hx with hid
    · obtain rfl := Option.some.inj hx
      subst hid
      obtain ⟨c,hc,hin,hfit⟩ := h.fits j each heach
      rw [hpoint,Function.update_self]
      exact ⟨c,hc,hin,hfits c hc hfit⟩
    · rw [Function.update_of_ne hid]
      exact h.fits j x hx
  · intro n hn
    have hne : n ≠ id := ((h.known id each heach).trans_lt hn).ne'
    dsimp only
    rw [Function.update_of_ne hne]
    exact h.fresh n hn

/-- A call of `next` changes the books of its subscriber, and gives its client a frame if there is one. -/
theorem step_next {id : SubscriberID} {order : Order} {s' : State V} {frame : Option (Frame V)} {last : Bool}
    (h : w.state.next id order = some (s',frame,last)) :
    w.step (.next id order) = ⟨s',Function.update w.frames id (w.frames id ++ frame.toList),w.puts⟩ := by
  cases frame <;> simp [step,State.act,State.frameOf,h]

theorem next (h : w.Kept) (id : SubscriberID) (order : Order) : (w.step (.next id order)).Kept := by
  cases hnext : w.state.next id order with
  | none =>
    have hstep : w.step (.next id order) = w := by simp [step,State.act,State.frameOf,hnext]
    rwa [hstep]
  | some r =>
    obtain ⟨s',frame,last⟩ := r
    obtain ⟨each,each',heach,htakes,rfl⟩ := State.of_next hnext
    rw [step_next hnext]
    have hsound : ∀ c, w.state.heap.find? each.instance_ = some c → c.Sound (w.puts each.instance_) :=
      fun c hc => h.sound _ c hc
    have hvalue : ∀ c name, w.state.heap.find? each.instance_ = some c →
        w.state.valueOf each name = c.values.find? name := fun c name hc => by simp [State.valueOf,hc]
    cases htakes with
    | failed hcause => exact h.gives heach rfl rfl fun c _ hfit => hfit.sendFailed hcause
    | removed _ hname => exact h.gives heach rfl rfl fun c _ hfit => hfit.tellRemoved hname
    | new _ hremoved hname =>
      refine h.gives heach rfl rfl fun c hc hfit => ?_
      obtain ⟨e,he,hfit'⟩ := hfit.sendNew (hsound c hc) hremoved hname
      rw [hvalue c _ hc,he]
      exact hfit'
    | synced _ _ _ hpending => exact h.gives heach rfl rfl fun c _ hfit => hfit.sendSynced hpending
    | changed _ _ _ _ hname =>
      refine h.gives heach rfl rfl fun c hc hfit => ?_
      obtain ⟨e,he,hfit'⟩ := hfit.refresh (hsound c hc) hname
      rw [hvalue c _ hc,he]
      exact hfit'
    | nothing =>
      refine h.gives heach rfl rfl fun c _ hfit => ?_
      rwa [Option.toList_none,List.append_nil]

theorem close (h : w.Kept) {key : String} {c : Instance V} (hc : w.state.current key = some c)
    (cause : Option TopicFailure) : World.Kept { w with state := (w.state.close c cause).1 } := by
  obtain ⟨hlive,hheap,hkey⟩ := h.current hc
  refine h.writes (fun each => { each with failure := cause }) hc c (fun g => ?_)
    (fun id => State.find?_each _ _ _ _) (fun key' g hg => ?_) rfl rfl (fun _ _ => rfl) ⟨rfl,rfl,rfl⟩ (fun _ => rfl)
    (.inr fun key' hg => ?_) id fun each frames hfailure hfit => hfit.close hfailure cause
  · dsimp only [State.close,State.each]
    split_ifs with hg
    · rw [hg,hheap]
    · rfl
  · dsimp only [State.close,State.each] at hg
    rw [Table.find?_erase] at hg
    split_ifs at hg
    exact hg
  · dsimp only [State.close,State.each] at hg
    rw [Table.find?_erase] at hg
    split_ifs at hg with hk
    obtain ⟨c',hc',hkey'⟩ := h.instances key' _ hg
    obtain rfl := Option.some.inj (hheap.symm.trans hc')
    exact hk hkey'.symm

theorem fail (h : w.Kept) (key : String) (at_ : Generation) (cause : Option TopicFailure) :
    World.Kept { w with state := (w.state.fail key at_ cause).1 } := by
  unfold State.fail
  cases hlive : w.state.live key at_ with
  | none => exact h
  | some c => exact h.close (State.of_live hlive).1 cause

theorem remove (h : w.Kept) (key : String) (at_ : Generation) (name : String) :
    World.Kept { w with state := (w.state.remove key at_ name).1 } := by
  unfold State.remove
  cases hlive : w.state.live key at_ with
  | none => exact h
  | some c =>
    dsimp only
    split_ifs with hnone
    · exact h
    · exact h.writes _ (State.of_live hlive).1 _ (State.find?_store _ _) (State.find?_each _ _ _) (fun _ _ hg => hg) rfl rfl
        (fun _ _ => rfl) ⟨rfl,rfl,rfl⟩ (fun _ => rfl) (.inl fun _ => rfl) (fun hs => hs.remove name)
        fun each frames _ hfit => hfit.remove name

theorem synced (h : w.Kept) (key : String) (at_ : Generation) :
    World.Kept { w with state := (w.state.synced key at_).1 } := by
  unfold State.synced
  cases hlive : w.state.live key at_ with
  | none => exact h
  | some c =>
    dsimp only
    split_ifs with hsynced
    · exact h
    · exact h.writes _ (State.of_live hlive).1 _ (State.find?_store _ _) (State.find?_each _ _ _) (fun _ _ hg => hg) rfl rfl
        (fun _ _ => rfl) ⟨rfl,rfl,rfl⟩ (fun _ => rfl) (.inl fun _ => rfl) (fun hs => ⟨hs.bound,hs.latest⟩)
        fun each frames _ hfit => hfit.markSynced (by simpa using hsynced)

theorem live_fail (h : w.Kept) {key : String} {at_ : Generation} {c : Instance V} (hlive : w.state.live key at_ = some c)
    (cause : Option TopicFailure) : (w.state.fail key at_ cause).1.live key at_ = none := by
  have hkey := (h.current (State.of_live hlive).1).2.2
  rw [State.fail,hlive]
  simp [State.close,State.each,State.live,State.current,hkey,Table.find?_erase]

theorem put (h : w.Kept) (key : String) (at_ : Generation) (name : String) (value : V) (size : ℕ) :
    (w.step (.put key at_ name value size)).Kept := by
  have hfail : ∀ c cause, w.state.live key at_ = some c →
      w.state.put key at_ name ⟨name,value⟩ size = w.state.fail key at_ cause →
      (w.step (.put key at_ name value size)).Kept := by
    intro c cause hlive hput
    have hstep : w.step (.put key at_ name value size) = { w with state := (w.state.fail key at_ cause).1 } := by
      simp [step,State.act,State.frameOf,hput,h.live_fail hlive cause]
    rw [hstep]
    exact h.fail key at_ cause
  cases hlive : w.state.live key at_ with
  | none =>
    have hstep : w.step (.put key at_ name value size) = w := by
      simp [step,State.act,State.frameOf,State.put,hlive]
    rwa [hstep]
  | some c =>
    obtain ⟨hcurrent,rfl⟩ := State.of_live hlive
    obtain ⟨hg,hheap,hkey⟩ := h.current hcurrent
    by_cases hsize : c.policy.MaxValueBytes < size
    · exact hfail c _ hlive (by rw [State.put,hlive]; exact if_pos hsize)
    by_cases hfull : c.values.find? name = none ∧ c.policy.MaxKeys ≤ c.values.keys.length
    · exact hfail c _ hlive (by rw [State.put,hlive]; exact (if_neg hsize).trans (if_pos hfull))
    by_cases hold : c.values.find? name = some ⟨name,value⟩
    · -- The value is retained already, so only the record of what was put grows.
      have hput : w.state.put key c.generation name ⟨name,value⟩ size = (w.state,{}) := by
        rw [State.put,hlive]
        exact (if_neg hsize).trans ((if_neg hfull).trans (if_pos hold))
      have hputs : (w.step (.put key c.generation name value size)).puts =
          Function.update w.puts c.generation (w.puts c.generation ++ [⟨name,value⟩]) := by
        simp [step,State.act,hput,hlive]
      refine h.writes id hcurrent c (fun g => ?_) (fun i => ?_) (fun _ _ hg => ?_) ?_ ?_ (fun g hne => ?_)
        ⟨rfl,rfl,rfl⟩ (fun _ => rfl) (.inl fun _ => rfl) (fun hs => ?_) fun each frames _ hfit => ?_
      · simp only [step,State.act,hput]
        split_ifs with hgc
        · rw [hgc,hheap]
        · rfl
      · simp [step,State.act,hput]
      · simpa [step,State.act,hput] using hg
      · simp [step,State.act,hput]
      · simp [step,State.frameOf]
      · rw [hputs,Function.update_of_ne hne]
      · rw [hputs,Function.update_self]
        exact hs.again hold
      · rw [hputs,Function.update_self]
        exact hfit.again _
    · have hput : w.state.put key c.generation name ⟨name,value⟩ size =
          ((w.state.store { c with values := c.values.insert name ⟨name,value⟩ }).each c
            (fun each => { each with toDebt := each.toDebt.put name }),{ wake := c.subscribers }) := by
        rw [State.put,hlive]
        exact (if_neg hsize).trans ((if_neg hfull).trans (if_neg hold))
      have hputs : (w.step (.put key c.generation name value size)).puts =
          Function.update w.puts c.generation (w.puts c.generation ++ [⟨name,value⟩]) := by
        have hstays : ((w.state.put key c.generation name ⟨name,value⟩ size).1.live key c.generation).isSome = true := by
          rw [hput]
          simp [State.live,State.current,State.each,State.store,hg]
        simp only [step,State.act,hstays,if_true]
      refine h.writes (fun each => { each with toDebt := each.toDebt.put name }) hcurrent
        { c with values := c.values.insert name ⟨name,value⟩ } (fun g => ?_) (fun i => ?_) (fun _ _ hg => ?_) ?_ ?_
        (fun g hne => ?_) ⟨rfl,rfl,rfl⟩ (fun _ => rfl) (.inl fun _ => rfl) (fun hs => ?_) fun each frames _ hfit => ?_
      · simp only [step,State.act,hput]
        exact State.find?_store _ _ _
      · simp only [step,State.act,hput]
        exact State.find?_each _ _ _ _
      · simpa [step,State.act,hput,State.each,State.store] using hg
      · simp [step,State.act,hput,State.each,State.store]
      · simp [step,State.frameOf]
      · rw [hputs,Function.update_of_ne hne]
      · rw [hputs,Function.update_self]
        exact hs.put (e := ⟨name,value⟩) hfull
      · rw [hputs,Function.update_self]
        exact hfit.put ⟨name,value⟩

theorem starts (h : w.Kept) {key : String} {c : Instance V} (hc : w.state.current key = some c) :
    World.Kept { w with state := ((w.state.store { c with waiting := false }).launch c).1 } := by
  refine h.writes id hc { c with waiting := false } (State.find?_store _ _) (fun i => ?_) (fun _ _ hg => hg) rfl rfl
    (fun _ _ => rfl) ⟨rfl,rfl,rfl⟩ (fun _ => rfl) (.inl fun _ => rfl) (fun hs => ⟨hs.bound,hs.latest⟩)
    fun each frames _ hfit => ⟨hfit.tracks,hfit.bound,hfit.order,hfit.synced,hfit.failed⟩
  simp [State.launch,State.store]

theorem startWaiting (h : w.Kept) (key : String) (wake : Finset SubscriberID) :
    World.Kept { w with state := (w.state.startWaiting key wake).1 } := by
  unfold State.startWaiting
  cases hc : w.state.current key with
  | none => exact h
  | some c =>
    dsimp only
    split_ifs
    · exact h.starts hc
    · exact h

theorem ended (h : w.Kept) (ref : ProducerRef) (cause : Option TopicFailure) :
    World.Kept { w with state := (w.state.ended ref cause).1 } := by
  have hfree : World.Kept { w with state := { w.state with producers := w.state.producers.erase ref.key } } :=
    h.congr rfl rfl rfl rfl rfl rfl
  unfold State.ended
  split_ifs
  · dsimp only
    split
    case h_1 c hlive => exact (hfree.close (State.of_live hlive).1 cause).startWaiting _ _
    case h_2 => exact hfree.startWaiting _ _
  · exact h

theorem overdue (h : w.Kept) (ref : ProducerRef) : World.Kept { w with state := (w.state.overdue ref).1 } := by
  unfold State.overdue
  cases hlife : w.state.producers.find? ref.key with
  | none => exact h
  | some life =>
    dsimp only
    split_ifs
    · exact h
    have hmarked : World.Kept { w with state := { w.state with
        producers := w.state.producers.insert ref.key { life with abandoned := true } } } :=
      h.congr rfl rfl rfl rfl rfl rfl
    split
    case h_1 next hc =>
      split_ifs
      · exact hmarked.close hc _
      · exact hmarked
    case h_2 => exact hmarked

theorem leave (h : w.Kept) (id : SubscriberID) : World.Kept { w with state := ((w.state.leave id).getD (w.state,{})).1 } := by
  cases hleft : w.state.subscribers.find? id with
  | none =>
    have hnone : w.state.leave id = none := by simp [State.leave,hleft]
    rwa [hnone]
  | some left =>
    obtain ⟨held,hheld,hin,_⟩ := h.fits id left hleft
    obtain ⟨hpoint,hknown⟩ := h.generation _ held hheld
    -- Both ways out of the call leave the same books; one takes the instance from the table as well.
    have hgoes : ∀ s' : State V,
        (∀ g, s'.heap.find? g = if g = held.generation then some { held with subscribers := held.subscribers.erase id }
          else w.state.heap.find? g) → s'.subscribers = w.state.subscribers.erase id → s'.nextID = w.state.nextID →
        (∀ key g, s'.instances.find? key = some g → w.state.instances.find? key = some g) →
        World.Kept { w with state := s' } := by
      intro s' hheap hsubscribers hnext hinstances
      have hold : ∀ j x, s'.subscribers.find? j = some x → j ≠ id ∧ w.state.subscribers.find? j = some x := by
        intro j x hx
        rw [hsubscribers,Table.find?_erase] at hx
        split_ifs at hx with hj
        exact ⟨hj,hx⟩
      constructor <;> dsimp only
      · intro g c hc
        rw [hheap] at hc
        rw [hnext]
        split_ifs at hc with hg
        · obtain rfl := Option.some.inj hc
          exact ⟨hg.symm,hg ▸ hpoint ▸ hknown⟩
        · exact h.generation g c hc
      · intro key g hg
        obtain ⟨c,hc,hkey⟩ := h.instances key g (hinstances key g hg)
        rw [hheap]
        split_ifs with hgc
        · rw [hgc,hpoint] at hc
          obtain rfl := Option.some.inj (hheld.symm.trans hc)
          exact ⟨_,rfl,hkey⟩
        · exact ⟨c,hc,hkey⟩
      · intro g c hc
        rw [hheap] at hc
        split_ifs at hc with hg
        · obtain rfl := Option.some.inj hc
          rw [hg,hpoint]
          have := h.sound _ held hheld
          exact ⟨this.bound,this.latest⟩
        · exact h.sound g c hc
      · intro g c j hc hj
        rw [hheap] at hc
        have hwas : j ≠ id ∧ ∃ x, w.state.subscribers.find? j = some x ∧ x.instance_ = g := by
          split_ifs at hc with hg
          · obtain rfl := Option.some.inj hc
            obtain ⟨hne,hmem⟩ := Finset.mem_erase.mp hj
            rw [hg,hpoint]
            exact ⟨hne,h.members _ held j hheld hmem⟩
          · obtain ⟨x,hx,hxg⟩ := h.members g c j hc hj
            refine ⟨fun hji => hg ?_,x,hx,hxg⟩
            rw [hji,hleft] at hx
            rw [← hxg,← Option.some.inj hx,hpoint]
        obtain ⟨hne,x,hx,hxg⟩ := hwas
        rw [hsubscribers,Table.find?_erase,if_neg hne]
        exact ⟨x,hx,hxg⟩
      · intro j x hx
        rw [hnext]
        exact h.known j x (hold j x hx).2
      · intro key g j x hg hx
        exact h.going key g j x (hinstances key g hg) (hold j x hx).2
      · intro j x hx
        obtain ⟨hne,hx⟩ := hold j x hx
        obtain ⟨c,hc,hj,hfit⟩ := h.fits j x hx
        rw [hheap]
        split_ifs with hg
        · rw [hg,hpoint] at hc
          obtain rfl := Option.some.inj (hheld.symm.trans hc)
          exact ⟨_,rfl,Finset.mem_erase.mpr ⟨hne,hj⟩,hfit.tracks,hfit.bound,hfit.order,hfit.synced,hfit.failed⟩
        · exact ⟨c,hc,hj,hfit⟩
      · rw [hnext]
        exact h.fresh
    simp only [State.leave,hleft,hheld,Option.bind_eq_bind,Option.bind_some]
    split <;> refine hgoes _ (State.find?_store _ _) rfl rfl fun key g hg => ?_
    · rw [Option.getD_some,Table.find?_erase] at hg
      split_ifs at hg
      exact hg
    · exact hg

theorem created (h : w.Kept) {key topic : String} {policy : TopicPolicy} {waiting : Bool}
    (hnone : w.state.current key = none) :
    World.Kept { w with state := (State.store
      { w.state with nextID := w.state.nextID+1, instances := w.state.instances.insert key (w.state.nextID+1) }
      { topic := topic, key := key, generation := w.state.nextID+1, policy := policy, waiting := waiting }) } := by
  have hbefore : ∀ g c, w.state.heap.find? g = some c → g ≠ w.state.nextID+1 := fun g c hc =>
    (Nat.lt_succ_of_le (h.generation g c hc).2).ne
  have hfree : ∀ key' g, w.state.instances.find? key' = some g → key' ≠ key := by
    rintro key' g hg rfl
    obtain ⟨c,hc,_⟩ := h.instances key' g hg
    simp [State.current,hg,hc] at hnone
  constructor <;> dsimp only
  · intro g c hc
    rw [State.find?_store] at hc
    split_ifs at hc with hg
    · obtain rfl := Option.some.inj hc
      exact ⟨hg.symm,hg.le⟩
    · exact ⟨(h.generation g c hc).1,(h.generation g c hc).2.trans (Nat.le_succ _)⟩
  · intro key' g hg
    simp only [State.store] at hg
    rw [Table.find?_insert] at hg
    rw [State.find?_store]
    split_ifs at hg with hk
    · obtain rfl := Option.some.inj hg
      exact ⟨_,if_pos rfl,hk.symm⟩
    · obtain ⟨c,hc,hkey⟩ := h.instances key' g hg
      rw [if_neg (hbefore g c hc)]
      exact ⟨c,hc,hkey⟩
  · intro g c hc
    rw [State.find?_store] at hc
    split_ifs at hc with hg
    · obtain rfl := Option.some.inj hc
      exact ⟨Nat.zero_le _,fun _ _ he => by simp at he⟩
    · exact h.sound g c hc
  · intro g c id hc hid
    rw [State.find?_store] at hc
    split_ifs at hc with hg
    · obtain rfl := Option.some.inj hc
      simp at hid
    · exact h.members g c id hc hid
  · intro id each heach
    exact (h.known id each heach).trans (Nat.le_succ _)
  · intro key' g id each hg heach hpoint
    obtain ⟨c,hc,_⟩ := h.fits id each heach
    simp only [State.store] at hg
    rw [Table.find?_insert] at hg
    split_ifs at hg with hk
    · rw [hpoint,← Option.some.inj hg] at hc
      exact absurd rfl (hbefore _ c hc)
    · exact h.going key' g id each hg heach hpoint
  · intro id each heach
    obtain ⟨c,hc,hin,hfit⟩ := h.fits id each heach
    rw [State.find?_store,if_neg (hbefore _ c hc)]
    exact ⟨c,hc,hin,hfit⟩
  · intro n hn
    exact h.fresh n (Nat.lt_of_succ_lt hn)

theorem joined (h : w.Kept) {key : String} {c : Instance V} (hc : w.state.current key = some c) (connection : ℕ)
    (connections : Table ℕ ℤ) :
    World.Kept { w with state :=
      { State.store { w.state with nextID := w.state.nextID+1 }
          { c with subscribers := insert (w.state.nextID+1) c.subscribers } with
        subscribers := w.state.subscribers.insert (w.state.nextID+1)
          { connection := connection, instance_ := c.generation, syncPending := c.synced
            delivered := ∅, unsent := c.values.keys.toFinset, changed := ∅, removed := ∅ }
        connections := connections } } := by
  obtain ⟨hlive,hheap,hkey⟩ := h.current hc
  have hnew : ∀ j x, w.state.subscribers.find? j = some x → j ≠ w.state.nextID+1 := fun j x hx =>
    (Nat.lt_succ_of_le (h.known j x hx)).ne
  constructor <;> dsimp only
  · intro g d hd
    rw [State.find?_store] at hd
    split_ifs at hd with hg
    · obtain rfl := Option.some.inj hd
      exact ⟨hg.symm,hg ▸ (h.generation _ c hheap).2.trans (Nat.le_succ _)⟩
    · exact ⟨(h.generation g d hd).1,(h.generation g d hd).2.trans (Nat.le_succ _)⟩
  · intro key' g hg
    obtain ⟨d,hd,hkey'⟩ := h.instances key' g hg
    rw [State.find?_store]
    split_ifs with hgc
    · rw [hgc] at hd
      obtain rfl := Option.some.inj (hheap.symm.trans hd)
      exact ⟨_,rfl,hkey'⟩
    · exact ⟨d,hd,hkey'⟩
  · intro g d hd
    rw [State.find?_store] at hd
    split_ifs at hd with hg
    · obtain rfl := Option.some.inj hd
      have := h.sound _ c hheap
      rw [hg]
      exact ⟨this.bound,this.latest⟩
    · exact h.sound g d hd
  · intro g d id hd hid
    rw [State.find?_store] at hd
    rw [Table.find?_insert]
    split_ifs at hd with hg
    · obtain rfl := Option.some.inj hd
      rcases Finset.mem_insert.mp hid with rfl | hid
      · exact ⟨_,if_pos rfl,hg.symm⟩
      · obtain ⟨x,hx,hpoint⟩ := h.members _ c id hheap hid
        rw [if_neg (hnew id x hx),hg]
        exact ⟨x,hx,hpoint⟩
    · obtain ⟨x,hx,hpoint⟩ := h.members g d id hd hid
      rw [if_neg (hnew id x hx)]
      exact ⟨x,hx,hpoint⟩
  · intro id x hx
    rw [Table.find?_insert] at hx
    split_ifs at hx with hid
    · exact hid.le
    · exact (h.known id x hx).trans (Nat.le_succ _)
  · intro key' g id x hg hx hpoint
    rw [Table.find?_insert] at hx
    split_ifs at hx with hid
    · obtain rfl := Option.some.inj hx
      rfl
    · exact h.going key' g id x hg hx hpoint
  · intro id x hx
    rw [Table.find?_insert] at hx
    split_ifs at hx with hid
    · obtain rfl := Option.some.inj hx
      rw [State.find?_store,if_pos rfl,hid,(h.fresh _ (Nat.lt_succ_self _)).1]
      refine ⟨_,rfl,Finset.mem_insert_self _ _,?_,Nat.zero_le _,?_,?_,by simp⟩
      · refine Debt.Tracks.start fun k => ?_
        rw [List.mem_toFinset,Table.mem_keys,Option.ne_none_iff_exists']
      · exact fun k => ⟨List.nil_sublist _,fun _ => List.nil_sublist _⟩
      · simp
    · obtain ⟨d,hd,hin,hfit⟩ := h.fits id x hx
      rw [State.find?_store]
      split_ifs with hg
      · dsimp only at hg
        rw [hg] at hd hfit ⊢
        obtain rfl := Option.some.inj (hheap.symm.trans hd)
        exact ⟨_,rfl,Finset.mem_insert_of_mem hin,hfit.tracks,hfit.bound,hfit.order,hfit.synced,hfit.failed⟩
      · exact ⟨d,hd,hin,hfit⟩
  · intro n hn
    exact h.fresh n (Nat.lt_of_succ_lt hn)

theorem instanceFor (h : w.Kept) {topic key : String} {policy : TopicPolicy} {s : State V} {c : Instance V}
    {work : Effects} (hfor : w.state.instanceFor topic key policy = .ok (s,c,work)) :
    World.Kept { w with state := s } ∧ s.current key = some c ∧ s.subscribers = w.state.subscribers := by
  unfold State.instanceFor at hfor
  cases hc : w.state.current key with
  | some c' =>
    rw [hc] at hfor
    cases hfor
    exact ⟨h,hc,rfl⟩
  | none =>
    rw [hc] at hfor
    dsimp only at hfor
    split_ifs at hfor <;> cases hfor
    · exact ⟨h.created hc,by simp [State.current,State.store],rfl⟩
    · exact ⟨(h.created hc).congr rfl rfl rfl rfl rfl rfl,by simp [State.current,State.store,State.launch],rfl⟩

theorem join (h : w.Kept) {connection : ℕ} {topic key : String} {policy : TopicPolicy} {s : State V} {id : SubscriberID}
    {work : Effects} (hjoin : w.state.join connection topic key policy = .ok (s,id,work)) :
    World.Kept { w with state := s } := by
  unfold State.join at hjoin
  split_ifs at hjoin
  cases hfor : w.state.instanceFor topic key policy with
  | error cause =>
    rw [hfor] at hjoin
    cases hjoin
  | ok r =>
    obtain ⟨s₁,c,work₁⟩ := r
    rw [hfor] at hjoin
    cases hjoin
    obtain ⟨hkept,hc,_⟩ := h.instanceFor hfor
    exact hkept.joined hc _ _

theorem step (h : w.Kept) (a : Act V) : (w.step a).Kept := by
  cases a with
  | join connection topic key policy =>
    cases hjoin : w.state.join connection topic key policy with
    | error cause =>
      have hstep : w.step (.join connection topic key policy) = w := by
        simp [World.step,State.act,State.frameOf,hjoin]
      rwa [hstep]
    | ok r =>
      obtain ⟨s,id,work⟩ := r
      have hstep : w.step (.join connection topic key policy) = { w with state := s } := by
        simp [World.step,State.act,State.frameOf,hjoin]
      rw [hstep]
      exact h.join hjoin
  | leave id => exact h.leave id
  | put key at_ name value size => exact h.put key at_ name value size
  | remove key at_ name => exact h.remove key at_ name
  | synced key at_ => exact h.synced key at_
  | fail key at_ cause => exact h.fail key at_ cause
  | ended ref cause => exact h.ended ref cause
  | overdue ref => exact h.overdue ref
  | next id order => exact h.next id order

/-- What holds between calls holds after any calls on a new state. -/
theorem run (limits : Limits) (acts : List (Act V)) : (Library.run World.step (World.new V limits) acts).Kept :=
  run_invariant (fun _ a h => h.step a) (new limits) acts

end World.Kept
end Vibesys.Subscription
