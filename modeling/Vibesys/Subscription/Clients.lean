import Vibesys.Library.Run
import Vibesys.Subscription.State

/-!
# Clients of the hub

A client starts with an empty map and applies each frame it is given. The world is the hub's state with the
frames given to each subscriber and the values put to each instance while it was live, each in order.
-/
namespace Vibesys.Subscription

open Library

variable {V : Type}

inductive Act (V : Type)
  | join (connection : ℕ) (topic key : String) (policy : TopicPolicy)
  | leave (id : SubscriberID)
  | put (key : String) (at_ : Generation) (name : String) (value : V) (size : ℕ)
  | remove (key : String) (at_ : Generation) (name : String)
  | synced (key : String) (at_ : Generation)
  | fail (key : String) (at_ : Generation) (cause : Option TopicFailure)
  | ended (ref : ProducerRef) (cause : Option TopicFailure)
  | overdue (ref : ProducerRef)
  | next (id : SubscriberID) (order : Order)

/-- What a call leaves and what it asks of the shell. A refusal changes nothing, and a call for a subscriber
that is not there is left out. -/
def State.act [DecidableEq V] (s : State V) : Act V → State V × Effects
  | .join connection topic key policy =>
    match s.join connection topic key policy with
    | .ok (s',_,work) => (s',work)
    | .error _ => (s,{})
  | .leave id => (s.leave id).getD (s,{})
  | .put key at_ name value size => s.put key at_ name ⟨name,value⟩ size
  | .remove key at_ name => s.remove key at_ name
  | .synced key at_ => s.synced key at_
  | .fail key at_ cause => s.fail key at_ cause
  | .ended ref cause => s.ended ref cause
  | .overdue ref => s.overdue ref
  | .next id order => (((s.next id order).map fun r => r.1).getD s,{})

def State.frameOf (s : State V) : Act V → Option (SubscriberID × Frame V)
  | .next id order => (s.next id order).bind fun r => r.2.1.map fun frame => (id,frame)
  | _ => none

namespace Client

def apply (held : Table String (TopicEntry V)) : Frame V → Table String (TopicEntry V)
  | .entry (some e) => held.insert e.key e
  | .removed name => held.erase name
  | _ => held

def holds (frames : List (Frame V)) : Table String (TopicEntry V) := frames.foldl apply ∅

def given (frames : List (Frame V)) (name : String) : List (TopicEntry V) :=
  frames.filterMap fun
    | .entry (some e) => if e.key = name then some e else none
    | _ => none

theorem holds_concat (frames : List (Frame V)) (frame : Frame V) :
    holds (frames ++ [frame]) = apply (holds frames) frame := by
  simp [holds]

theorem given_concat_entry (frames : List (Frame V)) (e : TopicEntry V) :
    given (frames ++ [.entry (some e)]) = Function.update (given frames) e.key (given frames e.key ++ [e]) := by
  funext name
  by_cases h : name = e.key
  · subst h
    simp [given]
  · rw [Function.update_of_ne h]
    simp [given,Ne.symm h]

theorem given_concat {frame : Frame V} (h : ∀ e, frame ≠ .entry (some e)) (frames : List (Frame V)) :
    given (frames ++ [frame]) = given frames := by
  funext name
  cases frame with
  | entry e =>
    cases e with
    | none => simp [given]
    | some e => exact absurd rfl (h e)
  | failed | removed | synced => simp [given]

end Client

open Client

def putsOf (puts : List (TopicEntry V)) (name : String) : List (TopicEntry V) := puts.filter fun e => e.key = name

theorem putsOf_concat (puts : List (TopicEntry V)) (e : TopicEntry V) :
    putsOf (puts ++ [e]) = Function.update (putsOf puts) e.key (putsOf puts e.key ++ [e]) := by
  funext name
  by_cases h : name = e.key
  · subst h
    simp [putsOf]
  · rw [Function.update_of_ne h]
    simp [putsOf,Ne.symm h]

structure World (V : Type) where
  state : State V
  frames : SubscriberID → List (Frame V)
  puts : Generation → List (TopicEntry V)

namespace World

def new (V : Type) (limits : Limits) : World V := ⟨newState V limits,fun _ => [],fun _ => []⟩

variable [DecidableEq V]

/-- A put after which its instance is no longer live retained nothing and is not among the puts. -/
def step (w : World V) (a : Act V) : World V where
  state := (w.state.act a).1
  frames := match w.state.frameOf a with
    | some (id,frame) => Function.update w.frames id (w.frames id ++ [frame])
    | none => w.frames
  puts := match a with
    | .put key at_ name value _ =>
      if ((w.state.act a).1.live key at_).isSome then Function.update w.puts at_ (w.puts at_ ++ [⟨name,value⟩])
      else w.puts
    | _ => w.puts

end World

/-- What an instance retains is the newest value put under each name, within its bound. -/
structure Instance.Sound (current : Instance V) (puts : List (TopicEntry V)) : Prop where
  bound : current.values.keys.length ≤ current.policy.MaxKeys
  latest : ∀ name e, current.values.find? name = some e → e.key = name ∧ (putsOf puts name).getLast? = some e

/-- A subscriber's books agree with its instance, its client and what was put. -/
structure Subscriber.Fits [DecidableEq V] (each : Subscriber) (current : Instance V) (frames : List (Frame V))
    (puts : List (TopicEntry V)) : Prop where
  tracks : each.toDebt.Tracks current.values.find? (holds frames).find?
  bound : each.delivered.card ≤ current.policy.MaxKeys
  order : each.toDebt.InOrder (putsOf puts) (given frames)
  synced : frames.count .synced+(if each.syncPending then 1 else 0) ≤ if current.synced then 1 else 0
  failed : ∀ cause, .failed cause ∈ frames → each.failure = some cause

/-- What holds of the world between calls. -/
structure World.Kept [DecidableEq V] (w : World V) : Prop where
  generation : ∀ g c, w.state.heap.find? g = some c → c.generation = g ∧ g ≤ w.state.nextID
  instances : ∀ key g, w.state.instances.find? key = some g → ∃ c, w.state.heap.find? g = some c ∧ c.key = key
  sound : ∀ g c, w.state.heap.find? g = some c → c.Sound (w.puts g)
  members : ∀ g c id, w.state.heap.find? g = some c → id ∈ c.subscribers →
    ∃ each, w.state.subscribers.find? id = some each ∧ each.instance_ = g
  known : ∀ id each, w.state.subscribers.find? id = some each → id ≤ w.state.nextID
  going : ∀ key g id each, w.state.instances.find? key = some g → w.state.subscribers.find? id = some each →
    each.instance_ = g → each.failure = none
  fits : ∀ id each, w.state.subscribers.find? id = some each → ∃ c, w.state.heap.find? each.instance_ = some c ∧
    id ∈ c.subscribers ∧ each.Fits c (w.frames id) (w.puts each.instance_)
  fresh : ∀ n, w.state.nextID < n → w.frames n = [] ∧ w.puts n = []

namespace State

@[simp] theorem find?_store (s : State V) (c : Instance V) (g : Generation) :
    (s.store c).heap.find? g = if g = c.generation then some c else s.heap.find? g :=
  Table.find?_insert _ _ _ _

@[simp] theorem find?_each (s : State V) (c : Instance V) (f : Subscriber → Subscriber) (id : SubscriberID) :
    (s.each c f).subscribers.find? id =
      (s.subscribers.find? id).map fun each => if id ∈ c.subscribers then f each else each :=
  Table.find?_mapWith _ _ _

theorem of_live {s : State V} {key : String} {at_ : Generation} {c : Instance V} (h : s.live key at_ = some c) :
    s.current key = some c ∧ c.generation = at_ := by
  obtain ⟨hc,hg⟩ := Option.filter_eq_some_iff.mp h
  exact ⟨hc,of_decide_eq_true hg⟩

theorem of_current {s : State V} {key : String} {c : Instance V} (h : s.current key = some c) :
    ∃ g, s.instances.find? key = some g ∧ s.heap.find? g = some c :=
  Option.bind_eq_some_iff.mp h

end State

namespace World.Kept

variable [DecidableEq V] {w w' : World V}

theorem current (h : w.Kept) {key : String} {c : Instance V} (hc : w.state.current key = some c) :
    w.state.instances.find? key = some c.generation ∧ w.state.heap.find? c.generation = some c ∧ c.key = key := by
  obtain ⟨g,hg,hheap⟩ := State.of_current hc
  obtain ⟨c',hc',hkey⟩ := h.instances key g hg
  obtain rfl : c = c' := Option.some.inj (hheap.symm.trans hc')
  obtain ⟨rfl,_⟩ := h.generation g c hheap
  exact ⟨hg,hheap,hkey⟩

theorem mem_subscribers (h : w.Kept) {c : Instance V} (hc : w.state.heap.find? c.generation = some c)
    {id : SubscriberID} {each : Subscriber} (heach : w.state.subscribers.find? id = some each) :
    id ∈ c.subscribers ↔ each.instance_ = c.generation := by
  constructor
  · intro hid
    obtain ⟨each',heach',hinst⟩ := h.members _ c id hc hid
    rwa [Option.some.inj (heach.symm.trans heach')]
  · intro hinst
    obtain ⟨c',hc',hid,_⟩ := h.fits id each heach
    rw [hinst] at hc'
    rwa [Option.some.inj (hc.symm.trans hc')]

/-- A write to an instance of the table and to all its subscribers. Only one that takes the instance out of the
table may give them a failure. -/
theorem writes (h : w.Kept) {key : String} {c : Instance V} (f : Subscriber → Subscriber)
    (hcurrent : w.state.current key = some c) (c' : Instance V)
    (hheap : ∀ g, w'.state.heap.find? g = if g = c.generation then some c' else w.state.heap.find? g)
    (hsubscribers : ∀ id, w'.state.subscribers.find? id =
      (w.state.subscribers.find? id).map fun each => if id ∈ c.subscribers then f each else each)
    (hinstances : ∀ key g, w'.state.instances.find? key = some g → w.state.instances.find? key = some g)
    (hnext : w'.state.nextID = w.state.nextID) (hframes : w'.frames = w.frames)
    (hputs : ∀ g, g ≠ c.generation → w'.puts g = w.puts g)
    (hsame : c'.generation = c.generation ∧ c'.key = c.key ∧ c'.subscribers = c.subscribers)
    (hpoints : ∀ each, (f each).instance_ = each.instance_)
    (hfailure : (∀ each, (f each).failure = each.failure) ∨ ∀ key, w'.state.instances.find? key ≠ some c.generation)
    (hsound : c.Sound (w.puts c.generation) → c'.Sound (w'.puts c.generation))
    (hfits : ∀ each frames, each.failure = none → each.Fits c frames (w.puts c.generation) →
      (f each).Fits c' frames (w'.puts c.generation)) : w'.Kept := by
  obtain ⟨hgeneration,hkey,hmembers⟩ := hsame
  obtain ⟨hlive,hc,_⟩ := h.current hcurrent
  constructor
  · intro g d hd
    rw [hheap] at hd
    split_ifs at hd with hg
    · obtain rfl := Option.some.inj hd
      rw [hg,hnext]
      exact ⟨hgeneration,(h.generation _ c hc).2⟩
    · rw [hnext]
      exact h.generation g d hd
  · intro key g hg
    obtain ⟨d,hd,hdkey⟩ := h.instances key g (hinstances key g hg)
    rw [hheap]
    split_ifs with hgc
    · subst hgc
      obtain rfl := Option.some.inj (hc.symm.trans hd)
      exact ⟨c',rfl,hkey.trans hdkey⟩
    · exact ⟨d,hd,hdkey⟩
  · intro g d hd
    rw [hheap] at hd
    split_ifs at hd with hg
    · obtain rfl := Option.some.inj hd
      subst hg
      exact hsound (h.sound _ c hc)
    · rw [hputs g hg]
      exact h.sound g d hd
  · intro g d id hd hid
    have hold : ∃ each, w.state.subscribers.find? id = some each ∧ each.instance_ = g := by
      rw [hheap] at hd
      split_ifs at hd with hg
      · obtain rfl := Option.some.inj hd
        subst hg
        exact h.members _ c id hc (hmembers ▸ hid)
      · exact h.members g d id hd hid
    obtain ⟨each,heach,hinst⟩ := hold
    rw [hsubscribers,heach]
    refine ⟨_,rfl,?_⟩
    split_ifs
    · rw [hpoints,hinst]
    · exact hinst
  · intro id each heach
    rw [hsubscribers] at heach
    obtain ⟨old,hold,_⟩ := Option.map_eq_some_iff.mp heach
    rw [hnext]
    exact h.known id old hold
  · intro key' g id each hg heach hpoint
    rw [hsubscribers] at heach
    obtain ⟨old,hold,rfl⟩ := Option.map_eq_some_iff.mp heach
    have hgoing := h.going key' g id old (hinstances key' g hg) hold
    split_ifs at hpoint ⊢ with hin
    · rw [hpoints] at hpoint
      rcases hfailure with hkeeps | hgone
      · rw [hkeeps]
        exact hgoing hpoint
      · rw [← hpoint,(h.mem_subscribers hc hold).mp hin] at hg
        exact absurd hg (hgone key')
    · exact hgoing hpoint
  · intro id each heach
    rw [hsubscribers] at heach
    obtain ⟨old,hold,rfl⟩ := Option.map_eq_some_iff.mp heach
    obtain ⟨d,hd,hid,hfit⟩ := h.fits id old hold
    have hiff := h.mem_subscribers hc hold
    rw [hframes]
    by_cases hin : id ∈ c.subscribers
    · have hpoint := hiff.mp hin
      rw [hpoint] at hd hfit
      obtain rfl := Option.some.inj (hc.symm.trans hd)
      rw [if_pos hin,hpoints,hheap,hpoint,if_pos rfl]
      exact ⟨c',rfl,hmembers ▸ hin,hfits old _ (h.going key _ id old hlive hold hpoint) hfit⟩
    · have hpoint : old.instance_ ≠ c.generation := fun hp => hin (hiff.mpr hp)
      rw [if_neg hin,hheap,if_neg hpoint,hputs _ hpoint]
      exact ⟨d,hd,hid,hfit⟩
  · intro n hn
    rw [hnext] at hn
    obtain ⟨hf,hp⟩ := h.fresh n hn
    have hne : n ≠ c.generation := ((h.generation _ c hc).2.trans_lt hn).ne'
    rw [hframes,hputs n hne]
    exact ⟨hf,hp⟩

end World.Kept
end Vibesys.Subscription
