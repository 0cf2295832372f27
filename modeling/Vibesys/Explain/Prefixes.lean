import Mathlib.Data.Finset.Dedup
import Mathlib.Data.Finset.Order
import Vibesys.Explain.Search

/-!
# Legality of the history up to a time

A specification keeps its contract if an unknown outcome allows what a known one does, and that nothing happened, a read
changes no state, and what a step forgets at its floor no later operation can tell. Then an order of a longer history is
one of a shorter: writes in flight are less known, reads in flight are left out, and what was called later stands after
all that has an outcome. A fault that may leave no state has one from its start on, though it may take effect until it
stops: nothing may begin in between.
-/
namespace Vibesys.Explain

open Library
open Check (floorOf floorOf_le computeFloors)

variable {S I O : Type}

structure Op.Valid (op : Op I O) : Prop where
  floor_le : op.floor ≤ op.call
  call_le : op.call ≤ op.ret

/-- The documented contract. A state allows what another does from `t` on if every operation called at `t` or later that
can follow the other can follow it: with any floor, and as one of unknown outcome with a longer window. -/
structure Spec.Contract (sp : Spec S I O) (allows : ℤ → S → S → Prop) : Prop where
  refl : ∀ {t s}, allows t s s
  trans : ∀ {t a b c}, allows t a b → allows t b c → allows t a c
  later : ∀ {t u a b}, t ≤ u → allows t a b → allows u a b
  equal : ∀ {t a b}, sp.equal a b → allows t b a
  step : ∀ {t a b op s floor}, op.Valid → floor ≤ op.call → t ≤ op.call → allows t a b → s ∈ sp.step a op →
    ∃ s' ∈ sp.step b {op with floor := floor}, allows (max t (max op.floor floor)) s s'
  unknown : ∀ {t a b op s ret floor}, op.Valid → op.unknown = false → op.ret ≤ ret → floor ≤ op.call → t ≤ op.call →
    allows t a b → s ∈ sp.step a op →
    ∃ s' ∈ sp.step b {op with unknown := true, ret := ret, floor := floor}, allows (max t (max op.floor floor)) s s'
  unapplied : ∀ {op s}, op.unknown → sp.step s op ≠ []
  read : ∀ {op s s'}, op.Valid → op.write = false → s' ∈ sp.step s op → allows op.floor s' s
  fault : ∀ {t a b keys f fault s}, sp.fault = some fault → t ≤ f.start → allows t a b → s ∈ fault a keys f →
    ∃ s' ∈ fault b keys f, allows t s s'

/-- The contract of a step that reads no times: states that are equal allow the same. -/
structure Spec.Timeless (sp : Spec S I O) : Prop where
  equal_refl : ∀ s, sp.equal s s
  equal_symm : ∀ {a b}, sp.equal a b → sp.equal b a
  equal_trans : ∀ {a b c}, sp.equal a b → sp.equal b c → sp.equal a c
  times : ∀ s op call ret floor, sp.step s {op with call := call, ret := ret, floor := floor} = sp.step s op
  step_equal : ∀ {a b op s}, sp.equal a b → s ∈ sp.step a op → ∃ s' ∈ sp.step b op, sp.equal s s'
  fault_equal : ∀ {a b keys f fault s}, sp.fault = some fault → sp.equal a b → s ∈ fault a keys f →
    ∃ s' ∈ fault b keys f, sp.equal s s'
  read : ∀ {op s s'}, op.write = false → s' ∈ sp.step s op → sp.equal s s'
  unknown : ∀ {op s s'}, s' ∈ sp.step s op → ∃ s'' ∈ sp.step s {op with unknown := true}, sp.equal s' s''
  unapplied : ∀ {op s}, op.unknown → ∃ s' ∈ sp.step s op, sp.equal s s'

theorem Spec.Timeless.contract {sp : Spec S I O} (h : sp.Timeless) : sp.Contract fun _ a b => sp.equal a b where
  refl := h.equal_refl _
  trans := h.equal_trans
  later _ := id
  equal := h.equal_symm
  step {t a b op s floor} _ _ _ hab hs := by
    obtain ⟨s',hs',heq⟩ := h.step_equal hab hs
    exact ⟨s',(h.times b op op.call op.ret floor).symm ▸ hs',heq⟩
  unknown {t a b op s ret floor} _ _ _ _ _ hab hs := by
    obtain ⟨s',hs',heq⟩ := h.step_equal hab hs
    obtain ⟨s'',hs'',heq'⟩ := h.unknown hs'
    exact ⟨s'',(h.times b {op with unknown := true} op.call ret floor).symm ▸ hs'',h.equal_trans heq heq'⟩
  unapplied hunknown := by
    obtain ⟨s',hs',-⟩ := h.unapplied hunknown
    exact List.ne_nil_of_mem hs'
  read _ hread hs := h.equal_symm (h.read hread hs)
  fault hfault _ := h.fault_equal hfault

/-- A fault always leaves some state. -/
def Spec.FaultsLeave (sp : Spec S I O) : Prop := ∀ fault, sp.fault = some fault → ∀ s keys f, fault s keys f ≠ []

/-- A partition as the check hands it on: an unknown read is dropped, no known event is in flight across a fault, and
the horizon is after all of it. -/
structure Partition.Valid (p : Partition I O) (faults : List Fault) (horizon : ℤ) : Prop where
  ordered : ∀ e ∈ p.events, e.call ≤ e.ret
  within : ∀ e ∈ p.events, e.ret < horizon
  writes : ∀ e ∈ p.events, e.unknown → e.write
  faults_ordered : ∀ f ∈ faults, f.start ≤ f.stop
  faults_within : ∀ f ∈ faults, f.stop < horizon
  quiescent : ∀ f ∈ faults, ∀ e ∈ p.events, e.unknown = false → ¬(e.call ≤ f.stop ∧ f.start ≤ e.ret)

/-! ## Sets of states -/

namespace Spec

variable {sp : Spec S I O} {allows : ℤ → S → S → Prop} {t u : ℤ}

def Covers (allows : ℤ → S → S → Prop) (t : ℤ) (set set' : List S) : Prop := ∀ s' ∈ set', ∃ s ∈ set, allows t s' s

theorem makeSet_subset {states : List S} {s : S} (h : s ∈ sp.makeSet states) : s ∈ states := by
  have hloop : ∀ (l acc : List S), s ∈ l.foldl (fun set s =>
      if set.any fun other => sp.hash other == sp.hash s && sp.equal other s then set else set ++ [s]) acc →
      s ∈ acc ∨ s ∈ l := by
    intro l
    induction l with
    | nil => exact fun acc h => Or.inl h
    | cons x l ih =>
      intro acc h
      rw [List.foldl_cons] at h
      split at h
      · exact (ih acc h).imp_right (List.mem_cons_of_mem _)
      · rcases ih _ h with h | h
        · rcases List.mem_append.mp h with h | h
          · exact Or.inl h
          · exact Or.inr (List.mem_cons.mpr (Or.inl (List.mem_singleton.mp h)))
        · exact Or.inr (List.mem_cons_of_mem _ h)
  exact (hloop states [] h).resolve_left List.not_mem_nil

theorem makeSet_covers (hc : sp.Contract allows) (states : List S) : Covers allows t (sp.makeSet states) states := by
  have hloop : ∀ (l acc : List S), Covers allows t (l.foldl (fun set s =>
      if set.any fun other => sp.hash other == sp.hash s && sp.equal other s then set else set ++ [s]) acc) (acc ++ l) := by
    intro l
    induction l with
    | nil =>
      intro acc s hs
      rw [List.append_nil] at hs
      exact ⟨s,hs,hc.refl⟩
    | cons x l ih =>
      intro acc s hs
      rw [List.foldl_cons]
      split
      · next hdup =>
        rcases List.mem_append.mp hs with hs | hs
        · exact ih acc s (List.mem_append_left _ hs)
        · rcases List.mem_cons.mp hs with rfl | hs
          · obtain ⟨other,hother,heq⟩ := List.any_eq_true.mp hdup
            rw [Bool.and_eq_true] at heq
            obtain ⟨s',hs',heq'⟩ := ih acc other (List.mem_append_left _ hother)
            exact ⟨s',hs',hc.trans (hc.equal heq.2) heq'⟩
          · exact ih acc s (List.mem_append_right _ hs)
      · refine ih _ s ?_
        rw [List.append_assoc]
        exact hs
  exact hloop states []

theorem makeSet_ne_nil (hc : sp.Contract allows) {states : List S} (h : states ≠ []) : sp.makeSet states ≠ [] := by
  obtain ⟨s,hs⟩ := List.exists_mem_of_ne_nil _ h
  obtain ⟨s',hs',-⟩ := @makeSet_covers _ _ _ sp allows 0 hc states s hs
  exact List.ne_nil_of_mem hs'

variable {keys : List String} {set set' next next' : List S} {a b : Operation I O}

theorem modelStep_eq_some : sp.modelStep keys set a = some next ↔
    (set.flatMap fun s => sp.after keys s a) ≠ [] ∧ next = sp.makeSet (set.flatMap fun s => sp.after keys s a) := by
  unfold modelStep
  dsimp only
  split
  · next hempty =>
    rw [List.isEmpty_iff] at hempty
    simp [hempty]
  · next hempty =>
    rw [List.isEmpty_iff] at hempty
    simp only [Option.some.injEq,ne_eq,hempty,not_false_eq_true,true_and]
    exact eq_comm

theorem modelStep_of_mem (hc : sp.Contract allows) {s s' : S} (hs : s ∈ set) (hs' : s' ∈ sp.after keys s a) :
    ∃ next, sp.modelStep keys set a = some next ∧ next ≠ [] := by
  have hne : (set.flatMap fun s => sp.after keys s a) ≠ [] := List.ne_nil_of_mem (List.mem_flatMap.mpr ⟨s,hs,hs'⟩)
  exact ⟨_,modelStep_eq_some.mpr ⟨hne,rfl⟩,makeSet_ne_nil hc hne⟩

theorem run_ne_nil (hc : sp.Contract allows) {operations : List (Operation I O)} (hset : set ≠ [])
    (h : operations.foldlM (sp.modelStep keys) set = some set') : set' ≠ [] := by
  induction operations generalizing set with
  | nil =>
    cases h
    exact hset
  | cons op operations ih =>
    rw [List.foldlM_cons] at h
    obtain ⟨next,hnext,h⟩ := Option.bind_eq_some_iff.mp h
    obtain ⟨hne,rfl⟩ := modelStep_eq_some.mp hnext
    exact ih (makeSet_ne_nil hc hne) h

theorem covers_of_read (hc : sp.Contract allows) (hcovers : Covers allows t set set') {o : Op I O} (hvalid : o.Valid)
    (hread : o.write = false) (h : sp.modelStep keys set' (.op o) = some next') : Covers allows (max t o.floor) set next' := by
  obtain ⟨-,rfl⟩ := modelStep_eq_some.mp h
  intro x hx
  obtain ⟨s',hs',hx⟩ := List.mem_flatMap.mp (makeSet_subset hx)
  obtain ⟨s,hs,hallows⟩ := hcovers s' hs'
  exact ⟨s,hs,hc.trans (hc.later (le_max_right _ _) (hc.read hvalid hread hx)) (hc.later (le_max_left _ _) hallows)⟩

end Spec

/-! ## Looser operations -/

/-- An operation as another history has it: with another floor, or with an outcome that is not known yet. -/
inductive Looser : Operation I O → Operation I O → Prop
  | op {o : Op I O} {floor : ℤ} (h : o.Valid) (hfloor : floor ≤ o.call) : Looser (.op o) (.op {o with floor := floor})
  | unknown {o : Op I O} {ret floor : ℤ} (h : o.Valid) (hknown : o.unknown = false) (hret : o.ret ≤ ret)
    (hfloor : floor ≤ o.call) : Looser (.op o) (.op {o with unknown := true, ret := ret, floor := floor})
  | fault (f : Fault) : Looser (.fault f) (.fault f)

theorem Looser.times {a b : Operation I O} (h : Looser a b) : a.call = b.call ∧ a.ret ≤ b.ret := by
  cases h with
  | op => exact ⟨rfl,le_refl _⟩
  | unknown _ _ hret => exact ⟨rfl,hret⟩
  | fault => exact ⟨rfl,le_refl _⟩

/-- From when on the states that an operation leaves stand for others, if those before it did from `t` on. -/
def Operation.since (t : ℤ) : Operation I O → ℤ
  | .op o => max t o.floor
  | .fault _ => t

theorem Operation.since_le {t c : ℤ} {a : Operation I O} (ht : t ≤ c) (h : ∀ o, a = .op o → o.floor ≤ c) : a.since t ≤ c := by
  cases a with
  | op o => exact max_le ht (h o rfl)
  | fault => exact ht

namespace Spec

variable {sp : Spec S I O} {allows : ℤ → S → S → Prop} {t u : ℤ} {keys : List String} {set set' next' : List S}
  {a b : Operation I O}

theorem after_looser (hc : sp.Contract allows) (h : Looser a b) (ht : t ≤ b.call) {s s' x : S} (hs : allows t s' s)
    (hx : x ∈ sp.after keys s' a) : ∃ y ∈ sp.after keys s b, allows (b.since (a.since t)) x y := by
  cases h with
  | op hvalid hfloor =>
    obtain ⟨y,hy,hxy⟩ := hc.step hvalid hfloor ht hs hx
    rw [← max_assoc] at hxy
    exact ⟨y,hy,hxy⟩
  | unknown hvalid hknown hret hfloor =>
    obtain ⟨y,hy,hxy⟩ := hc.unknown hvalid hknown hret hfloor ht hs hx
    rw [← max_assoc] at hxy
    exact ⟨y,hy,hxy⟩
  | fault f =>
    unfold after at hx ⊢
    cases hfault : sp.fault with
    | none =>
      rw [hfault] at hx
      obtain rfl := List.mem_singleton.mp hx
      exact ⟨s,List.mem_cons_self,hs⟩
    | some fault =>
      rw [hfault] at hx
      exact hc.fault hfault ht hs hx

theorem modelStep_looser (hc : sp.Contract allows) (h : Looser a b) (ht : t ≤ b.call) (hcovers : Covers allows t set set')
    (hnext : sp.modelStep keys set' a = some next') :
    ∃ next, sp.modelStep keys set b = some next ∧ next ≠ [] ∧ Covers allows (b.since (a.since t)) next next' := by
  obtain ⟨hne,rfl⟩ := modelStep_eq_some.mp hnext
  have hall : Covers allows (b.since (a.since t)) (set.flatMap fun s => sp.after keys s b)
      (set'.flatMap fun s => sp.after keys s a) := by
    intro x hx
    obtain ⟨s',hs',hx⟩ := List.mem_flatMap.mp hx
    obtain ⟨s,hs,hallows⟩ := hcovers s' hs'
    obtain ⟨y,hy,hxy⟩ := after_looser hc h ht hallows hx
    exact ⟨y,List.mem_flatMap.mpr ⟨s,hs,hy⟩,hxy⟩
  have hne' : (set.flatMap fun s => sp.after keys s b) ≠ [] := by
    obtain ⟨x,hx⟩ := List.exists_mem_of_ne_nil _ hne
    obtain ⟨y,hy,-⟩ := hall x hx
    exact List.ne_nil_of_mem hy
  refine ⟨_,modelStep_eq_some.mpr ⟨hne',rfl⟩,makeSet_ne_nil hc hne',fun x hx => ?_⟩
  obtain ⟨y,hy,hxy⟩ := hall x (makeSet_subset hx)
  obtain ⟨z,hz,hyz⟩ := makeSet_covers hc _ y hy
  exact ⟨z,hz,hc.trans hxy hyz⟩

/-- An operation that can always follow: one of unknown outcome, and a fault if faults leave some state. -/
def Open (sp : Spec S I O) (a : Operation I O) : Prop := (∃ o, a = .op o ∧ o.unknown) ∨ (∃ f, a = .fault f) ∧ sp.FaultsLeave

theorem modelStep_open (hc : sp.Contract allows) (h : sp.Open a) (hset : set ≠ []) :
    ∃ next, sp.modelStep keys set a = some next ∧ next ≠ [] := by
  obtain ⟨s,hs⟩ := List.exists_mem_of_ne_nil _ hset
  have hafter : sp.after keys s a ≠ [] := by
    rcases h with ⟨o,rfl,hunknown⟩ | ⟨⟨f,rfl⟩,hleave⟩
    · exact hc.unapplied hunknown
    · unfold after
      dsimp only
      split
      · exact List.cons_ne_nil _ _
      · next fault hfault => exact hleave fault hfault s keys f
  obtain ⟨s',hs'⟩ := List.exists_mem_of_ne_nil _ hafter
  exact modelStep_of_mem hc hs hs'

theorem accepts_open (hc : sp.Contract allows) {operations : List (Operation I O)} (hopen : ∀ a ∈ operations, sp.Open a)
    (hset : set ≠ []) : (operations.foldlM (sp.modelStep keys) set).isSome := by
  induction operations generalizing set with
  | nil => rfl
  | cons a operations ih =>
    obtain ⟨next,hnext,hne⟩ := @modelStep_open _ _ _ sp allows keys set a hc (hopen a List.mem_cons_self) hset
    rw [List.foldlM_cons,hnext]
    exact ih (fun b hb => hopen b (List.mem_cons_of_mem _ hb)) hne

/-- An order whose items are read as `f` says, read as `g` says: looser, without some reads, and from the first late item
on only with what can always follow. -/
theorem accepts_looser {ι : Type} (hc : sp.Contract allows) {f g : ι → Option (Operation I O)} (late : ι → Prop)
    {order : List ι} (hold : ∀ x ∈ order, ∀ b, g x = some b → ∃ a, f x = some a ∧ Looser a b)
    (hnew : ∀ x ∈ order, ∀ a, f x = some a → g x = none → late x ∨ ∃ o, a = .op o ∧ o.Valid ∧ o.write = false)
    (hafter : order.Pairwise fun x y => ∀ b, g y = some b → (∀ o, f x = some (.op o) → o.floor ≤ b.call) ∧
      (∀ o, g x = some (.op o) → o.floor ≤ b.call) ∧ ((f x).isSome → late x → sp.Open b))
    (ht : ∀ x ∈ order, ∀ b, g x = some b → t ≤ b.call) (hcovers : Covers allows t set set') (hset : set ≠ [])
    (h : ((order.filterMap f).foldlM (sp.modelStep keys) set').isSome) :
    ((order.filterMap g).foldlM (sp.modelStep keys) set).isSome := by
  -- the one set covers the other until something late comes
  induction order generalizing t set set' with
  | nil => rfl
  | cons x order ih =>
    obtain ⟨hfirst,hafter⟩ := List.pairwise_cons.mp hafter
    have hrest := fun {t set set'} => @ih t set set' (fun y hy => hold y (List.mem_cons_of_mem _ hy))
      (fun y hy => hnew y (List.mem_cons_of_mem _ hy)) hafter
    have hthen : ∀ y ∈ order, ∀ b, g y = some b → t ≤ b.call := fun y hy => ht y (List.mem_cons_of_mem _ hy)
    cases hf : f x with
    | none =>
      have hg : g x = none := by
        by_contra hsome
        obtain ⟨b,hb⟩ := Option.ne_none_iff_exists'.mp hsome
        obtain ⟨a,ha,-⟩ := hold x List.mem_cons_self b hb
        rw [hf] at ha
        cases ha
      rw [List.filterMap_cons_none hf] at h
      rw [List.filterMap_cons_none hg]
      exact hrest hthen hcovers hset h
    | some a =>
      rw [List.filterMap_cons_some hf,List.foldlM_cons] at h
      obtain ⟨final,hfinal⟩ := Option.isSome_iff_exists.mp h
      obtain ⟨next',hnext',hfinal⟩ := Option.bind_eq_some_iff.mp hfinal
      have hrun : ((order.filterMap f).foldlM (sp.modelStep keys) next').isSome := Option.isSome_iff_exists.mpr ⟨final,hfinal⟩
      cases hg : g x with
      | some b =>
        obtain ⟨a',ha',hlooser⟩ := hold x List.mem_cons_self b hg
        obtain rfl := Option.some.inj (hf.symm.trans ha')
        obtain ⟨next,hnext,hne,hcovers'⟩ := modelStep_looser hc hlooser (ht x List.mem_cons_self b hg) hcovers hnext'
        rw [List.filterMap_cons_some hg,List.foldlM_cons,hnext]
        refine hrest (fun y hy c hy' => ?_) hcovers' hne hrun
        obtain ⟨hknown,hloose,-⟩ := hfirst y hy c hy'
        refine Operation.since_le (Operation.since_le (hthen y hy c hy') fun o ho => ?_) fun o ho => ?_
        · exact hknown o (by rw [hf,ho])
        · exact hloose o (by rw [hg,ho])
      | none =>
        rw [List.filterMap_cons_none hg]
        rcases hnew x List.mem_cons_self a hf hg with hlate | ⟨o,rfl,hvalid,hread⟩
        · refine accepts_open hc (fun b hb => ?_) hset
          obtain ⟨y,hy,hb⟩ := List.mem_filterMap.mp hb
          exact (hfirst y hy b hb).2.2 (by rw [hf]; rfl) hlate
        · refine hrest (fun y hy c hy' => ?_) (covers_of_read hc hcovers hvalid hread hnext') hset hrun
          exact max_le (hthen y hy c hy') ((hfirst y hy c hy').1 o hf)

end Spec

/-! ## The operations of the history up to a time -/

def items (p : Partition I O) (faults : List Fault) : List (Event I O ⊕ Fault) :=
  p.events.map Sum.inl ++ faults.map Sum.inr

def callOf : Event I O ⊕ Fault → ℤ
  | .inl e => e.call
  | .inr f => f.start

theorem mem_items_inl {p : Partition I O} {faults : List Fault} {e : Event I O} (h : Sum.inl e ∈ items p faults) :
    e ∈ p.events := by
  simpa [items] using h

theorem mem_items_inr {p : Partition I O} {faults : List Fault} {f : Fault} (h : Sum.inr f ∈ items p faults) : f ∈ faults := by
  simpa [items] using h

namespace Spec

variable (sp : Spec S I O) (p : Partition I O) (faults : List Fault) (horizon : ℤ)

/-- The floor of an operation called at `c`. -/
def floorIn (c : ℤ) : ℤ := floorOf ((sp.spans p faults horizon).insertionSort fun a b => a.ret ≤ b.ret) c

theorem buildOps_eq : sp.buildOps p faults horizon =
    p.events.map (fun e => sp.operation horizon e (sp.floorIn p faults horizon e.call)) ++ faults.map .fault := by
  have hfloors : computeFloors (sp.spans p faults horizon) = p.events.map (fun e => sp.floorIn p faults horizon e.call) ++
      faults.map fun f => sp.floorIn p faults horizon f.start := by
    unfold computeFloors
    dsimp only
    nth_rewrite 2 [spans]
    rw [List.map_append,List.map_map,List.map_map]
    rfl
  unfold buildOps
  rw [hfloors,← List.append_nil p.events,List.zipWith_append (by simp),List.append_nil,List.zipWith_nil_left,List.append_nil,
    List.zipWith_map_right,List.zipWith_self]

theorem floorIn_le {b : Operation I O} (hb : b ∈ sp.buildOps p faults horizon) {c : ℤ} (hc : c ≤ b.ret) :
    sp.floorIn p faults horizon c ≤ b.call := by
  refine floorOf_le (y := ⟨b.call,b.ret⟩) ((List.mem_insertionSort _).mpr ?_) hc
  rw [buildOps_eq] at hb
  rcases List.mem_append.mp hb with hb | hb
  · obtain ⟨e,he,rfl⟩ := List.mem_map.mp hb
    exact List.mem_append_left _ (List.mem_map.mpr ⟨e,he,rfl⟩)
  · obtain ⟨f,hf,rfl⟩ := List.mem_map.mp hb
    exact List.mem_append_right _ (List.mem_map.mpr ⟨f,hf,rfl⟩)

def operationAt (t : ℤ) : Event I O ⊕ Fault → Option (Operation I O)
  | .inl e => (e.prefixAt t).map fun e =>
    sp.operation horizon e (sp.floorIn (prefixAt p faults t).1 (prefixAt p faults t).2 horizon e.call)
  | .inr f => if f.start ≤ t then some (.fault f) else none

/-- An order of the items respects real time in the history up to `t`. -/
def InTime (t : ℤ) (order : List (Event I O ⊕ Fault)) : Prop :=
  order.Pairwise fun x y => ∀ a, sp.operationAt p faults horizon t x = some a → ∀ b,
    sp.operationAt p faults horizon t y = some b → ¬b.ret < a.call

def runAt (t : ℤ) (order : List (Event I O ⊕ Fault)) : Option (List S) :=
  (order.filterMap (sp.operationAt p faults horizon t)).foldlM (sp.modelStep p.keys) (sp.makeSet [sp.init p.keys])

theorem buildOps_prefixAt (t : ℤ) : sp.buildOps (prefixAt p faults t).1 (prefixAt p faults t).2 horizon =
    (items p faults).filterMap (sp.operationAt p faults horizon t) := by
  rw [buildOps_eq]
  unfold items
  rw [List.filterMap_append,List.filterMap_map,List.filterMap_map]
  congr 1
  · unfold prefixAt
    dsimp only
    rw [List.map_filterMap]
    rfl
  · unfold prefixAt
    dsimp only
    rw [← List.filterMap_eq_map,List.filterMap_filter]
    apply List.filterMap_congr
    intro f _
    simp [operationAt]

variable {sp p faults horizon} {allows : ℤ → S → S → Prop} {t u : ℤ} {x y : Event I O ⊕ Fault} {a b : Operation I O}

theorem legalUpTo_iff : sp.LegalUpTo p faults horizon t ↔ ∃ order : List (Event I O ⊕ Fault), order.Perm (items p faults) ∧
    sp.InTime p faults horizon t order ∧ (sp.runAt p faults horizon t order).isSome := by
  unfold LegalUpTo Legal Accepts InTime runAt
  rw [sp.buildOps_prefixAt]
  constructor
  · rintro ⟨order,hperm,hreal,hsome⟩
    obtain ⟨order',hperm',rfl⟩ := exists_perm_of_perm_filterMap hperm
    exact ⟨order',hperm',List.pairwise_filterMap.mp hreal,hsome⟩
  · rintro ⟨order,hperm,hreal,hsome⟩
    exact ⟨_,hperm.filterMap _,List.pairwise_filterMap.mpr hreal,hsome⟩

theorem prefixAt_eq_some {e e' : Event I O} : Event.prefixAt t e = some e' ↔
    e.call ≤ t ∧ (e.ret ≤ t ∧ e' = e ∨ t < e.ret ∧ e.write ∧ e' = {e with unknown := true}) := by
  unfold Event.prefixAt
  rw [Option.ite_none_left_eq_some,not_lt]
  refine and_congr_right fun _ => ?_
  by_cases hret : t < e.ret
  · simp only [hret,not_le.mpr hret,if_true,false_and,false_or,true_and,Option.ite_none_right_eq_some,Option.some.injEq]
    exact and_congr_right fun _ => eq_comm
  · simp only [hret,not_lt.mp hret,if_false,true_and,false_and,or_false,Option.some.injEq]
    exact eq_comm

theorem prefixAt_times {e e' : Event I O} (h : Event.prefixAt t e = some e') :
    e'.call = e.call ∧ e'.ret = e.ret ∧ e.call ≤ t := by
  obtain ⟨hcall,⟨-,rfl⟩ | ⟨-,-,rfl⟩⟩ := prefixAt_eq_some.mp h
  · exact ⟨rfl,rfl,hcall⟩
  · exact ⟨rfl,rfl,hcall⟩

theorem callOf_operationAt (h : sp.operationAt p faults horizon t x = some a) : a.call = callOf x ∧ callOf x ≤ t := by
  cases x with
  | inl e =>
    obtain ⟨e',he',rfl⟩ := Option.map_eq_some_iff.mp h
    obtain ⟨hcall,-,hle⟩ := prefixAt_times he'
    exact ⟨hcall,hle⟩
  | inr f =>
    obtain ⟨hstart,h⟩ := Option.ite_none_right_eq_some.mp h
    cases h
    exact ⟨rfl,hstart⟩

theorem ret_le_windowEnd {e : Event I O} (h : e.ret < horizon) : e.ret ≤ sp.windowEnd horizon e := by
  unfold windowEnd
  split
  · split
    · exact le_min h.le (le_max_left _ _)
    · exact h.le
  · exact le_refl _

theorem floor_le_call (hy : y ∈ items p faults) {o : Op I O} (ho : sp.operationAt p faults horizon t x = some (.op o))
    (hb : sp.operationAt p faults horizon t y = some b) (hreal : ¬b.ret < o.call) : o.floor ≤ b.call := by
  cases x with
  | inl e =>
    obtain ⟨e',-,heq⟩ := Option.map_eq_some_iff.mp ho
    cases heq
    refine floorIn_le _ _ _ _ ?_ (not_lt.mp hreal)
    rw [sp.buildOps_prefixAt]
    exact List.mem_filterMap.mpr ⟨y,hy,hb⟩
  | inr f =>
    obtain ⟨-,h⟩ := Option.ite_none_right_eq_some.mp ho
    cases h

theorem call_le_ret (hv : p.Valid faults horizon) (hx : x ∈ items p faults)
    (ha : sp.operationAt p faults horizon t x = some a) : a.call ≤ a.ret := by
  cases x with
  | inl e =>
    have he := mem_items_inl hx
    obtain ⟨e',he',rfl⟩ := Option.map_eq_some_iff.mp ha
    obtain ⟨hcall,hret,-⟩ := prefixAt_times he'
    have hordered := hv.ordered e he
    have hwithin := hv.within e he
    have hwindow : e'.ret ≤ sp.windowEnd horizon e' := ret_le_windowEnd (by omega)
    show e'.call ≤ sp.windowEnd horizon e'
    omega
  | inr f =>
    obtain ⟨-,h⟩ := Option.ite_none_right_eq_some.mp ha
    cases h
    exact hv.faults_ordered f (mem_items_inr hx)

theorem operationAt_valid (hv : p.Valid faults horizon) (hx : x ∈ items p faults) {o : Op I O}
    (ho : sp.operationAt p faults horizon t x = some (.op o)) : o.Valid := by
  have hle : o.call ≤ o.ret := call_le_ret hv hx ho
  exact ⟨floor_le_call hx ho ho (not_lt.mpr hle),hle⟩

/-- An item of the shorter history is one of the longer: called alike, no longer, and allowing no more. -/
theorem operationAt_mono (hv : p.Valid faults horizon) (htu : t ≤ u) (hx : x ∈ items p faults)
    (hb : sp.operationAt p faults horizon t x = some b) : ∃ a, sp.operationAt p faults horizon u x = some a ∧ Looser a b := by
  cases x with
  | inr f =>
    obtain ⟨hstart,h⟩ := Option.ite_none_right_eq_some.mp hb
    cases h
    exact ⟨_,if_pos (hstart.trans htu),.fault f⟩
  | inl e =>
    obtain ⟨e',he',rfl⟩ := Option.map_eq_some_iff.mp hb
    have hfloor := (operationAt_valid hv hx hb).floor_le
    have hat : ∀ e', Event.prefixAt u e = some e' → sp.operationAt p faults horizon u (.inl e) = some
        (sp.operation horizon e' (sp.floorIn (prefixAt p faults u).1 (prefixAt p faults u).2 horizon e'.call)) :=
      fun e' he' => by rw [operationAt,he',Option.map_some]
    obtain ⟨hcall,⟨hret,rfl⟩ | ⟨hflight,hwrite,rfl⟩⟩ := prefixAt_eq_some.mp he'
    · have ha := hat e' (prefixAt_eq_some.mpr ⟨hcall.trans htu,Or.inl ⟨hret.trans htu,rfl⟩⟩)
      exact ⟨_,ha,.op (operationAt_valid hv hx ha) hfloor⟩
    · by_cases hlater : u < e.ret
      · have ha := hat _ (prefixAt_eq_some.mpr ⟨hcall.trans htu,Or.inr ⟨hlater,hwrite,rfl⟩⟩)
        exact ⟨_,ha,.op (operationAt_valid hv hx ha) hfloor⟩
      · have ha := hat e (prefixAt_eq_some.mpr ⟨hcall.trans htu,Or.inl ⟨not_lt.mp hlater,rfl⟩⟩)
        refine ⟨_,ha,?_⟩
        cases hunknown : e.unknown with
        | true =>
          have heq : ({e with unknown := true} : Event I O) = e := by rw [← hunknown]
          rw [heq] at hfloor ⊢
          exact .op (operationAt_valid hv hx ha) hfloor
        | false =>
          have hret : sp.windowEnd horizon e = e.ret := by simp [windowEnd,hunknown]
          refine .unknown (operationAt_valid hv hx ha) hunknown ?_ hfloor
          show sp.windowEnd horizon e ≤ _
          rw [hret]
          exact @ret_le_windowEnd _ _ _ sp horizon {e with unknown := true} (hv.within e (mem_items_inl hx))

/-- What the longer history has beside the shorter was called later, or is a read that was in flight. -/
theorem operationAt_new (hb : sp.operationAt p faults horizon t x = none) (ha : sp.operationAt p faults horizon u x = some a) :
    t < callOf x ∨ ∃ o, a = .op o ∧ o.write = false := by
  cases x with
  | inr f =>
    left
    by_contra hstart
    have hsome : sp.operationAt p faults horizon t (.inr f) = some (.fault f) := if_pos (not_lt.mp hstart)
    rw [hsome] at hb
    cases hb
  | inl e =>
    obtain ⟨e',he',rfl⟩ := Option.map_eq_some_iff.mp ha
    have hnone : ∀ e', Event.prefixAt t e ≠ some e' := by
      rw [Option.map_eq_none_iff.mp hb]
      exact fun _ => nofun
    refine or_iff_not_imp_left.mpr fun hcall => ⟨_,rfl,?_⟩
    have hflight : t < e.ret := not_le.mp fun hret => hnone e (prefixAt_eq_some.mpr ⟨not_lt.mp hcall,Or.inl ⟨hret,rfl⟩⟩)
    have hread : ¬e.write := fun hwrite => hnone _ (prefixAt_eq_some.mpr ⟨not_lt.mp hcall,Or.inr ⟨hflight,hwrite,rfl⟩⟩)
    obtain ⟨-,⟨-,rfl⟩ | ⟨-,hwrite,-⟩⟩ := prefixAt_eq_some.mp he'
    · simpa using hread
    · exact absurd hwrite hread

theorem open_of_late (hs : sp.FaultsLeave ∨
      ∀ f ∈ faults, ∀ x ∈ items p faults, f.start ≤ t → t < callOf x → callOf x ≤ u → f.stop < callOf x)
    (hx : x ∈ items p faults) (hy : y ∈ items p faults) {a' : Operation I O} (htu : t ≤ u)
    (ha : sp.operationAt p faults horizon u x = some a) (ha' : sp.operationAt p faults horizon u y = some a')
    (hreal : ¬a'.ret < a.call) (hlate : t < callOf x) (hb : sp.operationAt p faults horizon t y = some b) : sp.Open b := by
  obtain ⟨hcall,hle⟩ := callOf_operationAt ha
  cases y with
  | inr f =>
    obtain ⟨hstart,h⟩ := Option.ite_none_right_eq_some.mp hb
    cases h
    obtain ⟨-,h⟩ := Option.ite_none_right_eq_some.mp ha'
    cases h
    have hstop : ¬f.stop < a.call := hreal
    rcases hs with hleave | hquiet
    · exact Or.inr ⟨⟨f,rfl⟩,hleave⟩
    · have hended := hquiet f (mem_items_inr hy) x hx hstart hlate hle
      omega
  | inl e =>
    obtain ⟨e',he',rfl⟩ := Option.map_eq_some_iff.mp hb
    obtain ⟨e'',he'',rfl⟩ := Option.map_eq_some_iff.mp ha'
    refine Or.inl ⟨_,rfl,?_⟩
    obtain ⟨-,⟨hret,rfl⟩ | ⟨-,-,rfl⟩⟩ := prefixAt_eq_some.mp he'
    · -- a known response by `t` is before all that is called later
      by_contra hknown
      obtain ⟨-,⟨-,rfl⟩ | ⟨hflight,-⟩⟩ := prefixAt_eq_some.mp he''
      · have hend : sp.windowEnd horizon e'' = e''.ret := if_neg hknown
        have hreal : ¬sp.windowEnd horizon e'' < a.call := hreal
        omega
      · omega
    · rfl

/-- An order that the history up to `t` accepts, read up to `u`: looser, without some reads, and from the first late item
on only with what can always follow. -/
theorem runAt_looser (hc : sp.Contract allows) {order : List (Event I O ⊕ Fault)} (late : Event I O ⊕ Fault → Prop)
    (hmem : ∀ x ∈ order, x ∈ items p faults) (hv : p.Valid faults horizon)
    (hold : ∀ x ∈ order, ∀ b, sp.operationAt p faults horizon u x = some b →
      ∃ a, sp.operationAt p faults horizon t x = some a ∧ Looser a b)
    (hnew : ∀ x ∈ order, ∀ a, sp.operationAt p faults horizon t x = some a → sp.operationAt p faults horizon u x = none →
      late x ∨ ∃ o, a = .op o ∧ o.write = false)
    (ht : sp.InTime p faults horizon t order) (hu : sp.InTime p faults horizon u order)
    (hlate : ∀ x ∈ order, ∀ y ∈ order, late x → ∀ a a', sp.operationAt p faults horizon t x = some a →
      sp.operationAt p faults horizon t y = some a' → ¬a'.ret < a.call → ∀ b, sp.operationAt p faults horizon u y = some b →
      sp.Open b)
    (h : (sp.runAt p faults horizon t order).isSome) : (sp.runAt p faults horizon u order).isSome := by
  obtain ⟨m,hm⟩ := (((items p faults).map fun x => -callOf x).toFinset).exists_le
  refine accepts_looser (t := -m) hc late hold (fun x hx a ha hnone => ?_) ?_ (fun x hx b hb => ?_)
    (fun s hs => ⟨s,hs,hc.refl⟩) (makeSet_ne_nil hc (List.cons_ne_nil _ _)) h
  · refine (hnew x hx a ha hnone).imp_right ?_
    rintro ⟨o,rfl,hread⟩
    exact ⟨o,rfl,operationAt_valid hv (hmem x hx) ha,hread⟩
  · refine (ht.and hu).imp_of_mem fun {x y} hx hy hxy b hb => ?_
    obtain ⟨b',hb',hlooser⟩ := hold y hy b hb
    refine ⟨fun o ho => ?_,fun o ho => floor_le_call (hmem y hy) ho hb (hxy.2 _ ho b hb),fun hactive hx' => ?_⟩
    · rw [← hlooser.times.1]
      exact floor_le_call (hmem y hy) ho hb' (hxy.1 _ ho b' hb')
    · obtain ⟨a,ha⟩ := Option.isSome_iff_exists.mp hactive
      exact hlate x hx y hy hx' a b' ha hb' (hxy.1 a ha b' hb') b hb
  · have hle := hm (-callOf x) (List.mem_toFinset.mpr (List.mem_map.mpr ⟨x,hmem x hx,rfl⟩))
    rw [(callOf_operationAt hb).1]
    omega

end Spec

end Vibesys.Explain
