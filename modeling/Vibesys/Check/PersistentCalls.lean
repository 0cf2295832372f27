import Vibesys.Library.Run
import Vibesys.Check.Persistent

/-!
# Calls on persistent maps

Each call is made on any of the maps there are and makes a further one. The maps stand for plain finite maps.
-/
namespace Vibesys.Check

open Library

variable {V : Type}

structure Maps (V : Type) where
  bases : Memory V := []
  maps : List (PMap V) := [{}]

inductive Call (V : Type)
  | set (source : ℕ) (k : String) (v : V)
  | mapRecent (source : ℕ) (f : V → V)

/-- A call on one of the maps makes a further one. -/
def Maps.step (c : Value V) (s : Maps V) : Call V → Maps V
  | .set source k v =>
    match s.maps[source]? with
    | none => s
    | some p => ⟨(p.Set c s.bases k v).1,s.maps ++ [(p.Set c s.bases k v).2]⟩
  | .mapRecent source f =>
    match s.maps[source]? with
    | none => s
    | some p => ⟨s.bases,s.maps ++ [p.MapRecent c f]⟩

/-- A plain finite map, and the keys that were set since the last compaction. -/
structure Plain (V : Type) where
  contents : Table String V := ∅
  recent : Finset String := ∅

namespace Plain

def set (m : Plain V) (k : String) (v : V) : Plain V where
  contents := m.contents.insert k v
  recent := if overlayMax < (insert k m.recent).card then ∅ else insert k m.recent

def mapRecent (m : Plain V) (g : V → V) : Plain V :=
  { m with contents := m.contents.mapWith fun k v => if k ∈ m.recent then g v else v }

end Plain

/-- The same calls on plain maps, where `change` says what a function does to a recent value. -/
def plainStep (change : (V → V) → V → V) (ms : List (Plain V)) : Call V → List (Plain V)
  | .set source k v => ms ++ (ms[source]?.map fun m => m.set k v).toList
  | .mapRecent source f => ms ++ (ms[source]?.map fun m => m.mapRecent (change f)).toList

variable {c : Value V}

structure Stands (c : Value V) (bases : Memory V) (p : PMap V) (m : Plain V) : Prop where
  ok : p.Ok c bases
  contents : p.merged bases = m.contents
  recent : p.overlay.keys.toFinset = m.recent

theorem Stands.append {bases : Memory V} {p : PMap V} {m : Plain V} (h : Stands c bases p m) (more : Memory V) :
    Stands c (bases ++ more) p m :=
  ⟨h.ok.append more,(PMap.merged_append h.ok.base more).trans h.contents,h.recent⟩

theorem Stands.set {bases : Memory V} {p : PMap V} {m : Plain V} (h : Stands c bases p m) (k : String) (v : V) :
    Stands c (p.Set c bases k v).1 (p.Set c bases k v).2 (m.set k v) := by
  obtain ⟨more,-,hok,hmerged,hoverlay⟩ := h.ok.set k v
  refine ⟨hok,by rw [hmerged,h.contents]; rfl,?_⟩
  have hkeys : (p.overlay.insert k v).keys.toFinset = insert k m.recent := by
    ext k'
    rw [List.mem_toFinset,Table.mem_keys,Finset.mem_insert,← h.recent,List.mem_toFinset,Table.mem_keys]
    by_cases hk : k' = k
    · subst hk
      simp
    · simp [Table.find?_insert_ne _ _ hk,hk]
  have hcard : (p.overlay.insert k v).keys.length = (insert k m.recent).card := by
    rw [← hkeys,List.toFinset_card_of_nodup (Table.nodup_keys _)]
  rw [hoverlay,hcard]
  unfold Plain.set
  dsimp only
  split_ifs
  · rfl
  · exact hkeys

theorem Stands.mapRecent {bases : Memory V} {p : PMap V} {m : Plain V} (h : Stands c bases p m) (f : V → V) :
    Stands c bases (p.MapRecent c f) (m.mapRecent (PMap.pruned c f)) := by
  refine ⟨h.ok.mapRecent f,Table.ext fun k => ?_,?_⟩
  · rw [PMap.find?_mapRecent,h.contents]
    unfold Plain.mapRecent
    rw [Table.find?_mapWith,← h.recent]
    by_cases hk : k ∈ p.overlay.keys
    · simp [hk]
    · cases m.contents.find? k <;> simp [hk]
  · refine Eq.trans ?_ h.recent
    show (List.map Sigma.fst (List.map _ p.overlay.items)).toFinset = (List.map Sigma.fst p.overlay.items).toFinset
    rw [List.map_map]
    rfl

lemma rel_getElem? {α β : Type} {R : α → β → Prop} {l : List α} {l' : List β} (h : List.Forall₂ R l l') (i : ℕ) :
    Option.Rel R l[i]? l'[i]? := by
  induction h generalizing i with
  | nil => exact .none
  | cons hab _ ih =>
    cases i with
    | zero => exact .some hab
    | succ i => exact ih i

lemma forall₂_trans {α β γ : Type} {R : α → β → Prop} {S : β → γ → Prop} {T : α → γ → Prop}
    (h : ∀ a b d, R a b → S b d → T a d) {l : List α} {l' : List β} {l'' : List γ} (hR : List.Forall₂ R l l')
    (hS : List.Forall₂ S l' l'') : List.Forall₂ T l l'' := by
  induction hR generalizing l'' with
  | nil =>
    cases hS
    exact .nil
  | cons hab _ ih =>
    cases hS with
    | cons hbd hS => exact .cons (h _ _ _ hab hbd) (ih hS)

/-- Every map stands for the plain map at its place. A call changes no map that was there and no base. -/
theorem stand_step {s : Maps V} {ms : List (Plain V)} (h : List.Forall₂ (Stands c s.bases) s.maps ms) (x : Call V) :
    List.Forall₂ (Stands c (s.step c x).bases) (s.step c x).maps (plainStep (PMap.pruned c) ms x) ∧
      s.maps <+: (s.step c x).maps ∧ ∃ more, (s.step c x).bases = s.bases ++ more := by
  cases x with
  | set source k v =>
    have hget := rel_getElem? h source
    unfold Maps.step plainStep
    dsimp only
    cases hp : s.maps[source]? <;> cases hm : ms[source]? <;> rw [hp,hm] at hget <;> cases hget
    · exact ⟨by simpa using h,List.prefix_rfl,[],by simp⟩
    · rename_i p m hstands
      obtain ⟨more,hmore,-⟩ := hstands.ok.set k v
      refine ⟨?_,List.prefix_append _ _,more,hmore⟩
      show List.Forall₂ (Stands c (p.Set c s.bases k v).1) (s.maps ++ [_]) (ms ++ [_])
      refine List.rel_append (h.imp fun q n hqn => ?_) (.cons (hstands.set k v) .nil)
      rw [hmore]
      exact hqn.append more
  | mapRecent source f =>
    have hget := rel_getElem? h source
    unfold Maps.step plainStep
    dsimp only
    cases hp : s.maps[source]? <;> cases hm : ms[source]? <;> rw [hp,hm] at hget <;> cases hget
    · exact ⟨by simpa using h,List.prefix_rfl,[],by simp⟩
    · rename_i p m hstands
      exact ⟨List.rel_append h (.cons (hstands.mapRecent f) .nil),List.prefix_append _ _,[],by simp⟩

theorem stand_run (calls : List (Call V)) {s : Maps V} {ms : List (Plain V)} (h : List.Forall₂ (Stands c s.bases) s.maps ms) :
    List.Forall₂ (Stands c (run (Maps.step c) s calls).bases) (run (Maps.step c) s calls).maps
        (run (plainStep (PMap.pruned c)) ms calls) ∧
      s.maps <+: (run (Maps.step c) s calls).maps ∧ ∃ more, (run (Maps.step c) s calls).bases = s.bases ++ more := by
  induction calls generalizing s ms with
  | nil => exact ⟨h,List.prefix_rfl,[],by simp⟩
  | cons x calls ih =>
    obtain ⟨hstep,hmaps,more,hmore⟩ := stand_step h x
    obtain ⟨hrun,hmaps',more',hmore'⟩ := ih hstep
    refine ⟨hrun,hmaps.trans hmaps',more ++ more',?_⟩
    rw [run_cons,hmore',hmore,List.append_assoc]

/-! ## Functions that respect equality -/

/-- A function that gives equal values for equal ones. -/
def Call.Respects (c : Value V) : Call V → Prop
  | .set .. => True
  | .mapRecent _ f => ∀ v w, c.Equal v w = true → c.Equal (f v) (f w) = true

/-- Plain maps with the same keys, the same recent ones, and equal values. -/
def Plain.Alike (c : Value V) (m m' : Plain V) : Prop := m.recent = m'.recent ∧ PMap.Same c m.contents m'.contents

section Alike

variable (hrefl : ∀ v, c.Equal v v = true) (hsymm : ∀ v w, c.Equal v w = true → c.Equal w v = true)
  (htrans : ∀ u v w, c.Equal u v = true → c.Equal v w = true → c.Equal u w = true)

include hrefl in
theorem Plain.Alike.set {m m' : Plain V} (h : m.Alike c m') (k : String) (v : V) : (m.set k v).Alike c (m'.set k v) := by
  refine ⟨by simp only [Plain.set,h.1],fun k' => ?_⟩
  show Option.Rel _ ((m.contents.insert k v).find? k') ((m'.contents.insert k v).find? k')
  by_cases hk : k' = k
  · subst hk
    rw [Table.find?_insert_self,Table.find?_insert_self]
    exact .some (hrefl v)
  · rw [Table.find?_insert_ne _ _ hk,Table.find?_insert_ne _ _ hk]
    exact h.2 k'

include hsymm htrans in
theorem Plain.Alike.mapRecent {m m' : Plain V} (h : m.Alike c m') {f : V → V}
    (hf : ∀ v w, c.Equal v w = true → c.Equal (f v) (f w) = true) :
    (m.mapRecent (PMap.pruned c f)).Alike c (m'.mapRecent f) := by
  refine ⟨h.1,fun k => ?_⟩
  unfold Plain.mapRecent
  rw [Table.find?_mapWith,Table.find?_mapWith,h.1]
  have hk := h.2 k
  revert hk
  cases m.contents.find? k <;> cases m'.contents.find? k <;> intro hk <;> cases hk
  · exact .none
  · rename_i v w hvw
    refine .some ?_
    split_ifs
    · show c.Equal (PMap.pruned c f v) (f w) = true
      unfold PMap.pruned
      split_ifs with hequal
      · exact htrans _ _ _ (hsymm _ _ hequal) (hf v w hvw)
      · exact hf v w hvw
    · exact hvw

include hrefl hsymm htrans in
theorem alike_run (calls : List (Call V)) (hcalls : ∀ x ∈ calls, x.Respects c) {ms ms' : List (Plain V)}
    (h : List.Forall₂ (Plain.Alike c) ms ms') :
    List.Forall₂ (Plain.Alike c) (run (plainStep (PMap.pruned c)) ms calls) (run (plainStep fun f => f) ms' calls) := by
  induction calls generalizing ms ms' with
  | nil => exact h
  | cons x calls ih =>
    refine ih (fun x hx => hcalls x (List.mem_cons_of_mem _ hx)) ?_
    have hx := hcalls x List.mem_cons_self
    cases x with
    | set source k v =>
      refine List.rel_append h ?_
      have hget := rel_getElem? h source
      cases hm : ms[source]? <;> cases hm' : ms'[source]? <;> rw [hm,hm'] at hget <;> cases hget
      · exact .nil
      · rename_i halike
        exact .cons (halike.set hrefl k v) .nil
    | mapRecent source f =>
      refine List.rel_append h ?_
      have hget := rel_getElem? h source
      cases hm : ms[source]? <;> cases hm' : ms'[source]? <;> rw [hm,hm'] at hget <;> cases hget
      · exact .nil
      · rename_i halike
        exact .cons (halike.mapRecent hsymm htrans hx) .nil

end Alike

/-- After every sequence of calls, each on any map made so far: every map answers as the plain map at its place, on which a
`MapRecent` replaces the values of recent keys by those that are not equal to them; later calls change no map; where
equality is reflexive and hashes agree with it, `Equal` holds exactly of maps with the same keys and equal values there,
and these have the same hash. Where equality is an equivalence that every function of a `MapRecent` respects, the plain
maps may as well take what the function gives. -/
theorem the_persistent_map_is_a_map (c : Value V) (calls : List (Call V)) :
    let s := run (Maps.step c) {} calls
    List.Forall₂ (fun p m => (∀ k, p.Get s.bases k = m.contents.find? k) ∧ p.Len s.bases = m.contents.keys.length ∧
        p.Range s.bases = m.contents.items.map fun e => (e.1,e.2))
      s.maps (run (plainStep (PMap.pruned c)) [{}] calls) ∧
    (∀ more, s.maps <+: (run (Maps.step c) {} (calls ++ more)).maps ∧ ∀ p ∈ s.maps, ∀ k,
      p.Get (run (Maps.step c) {} (calls ++ more)).bases k = p.Get s.bases k) ∧
    ((∀ v, c.Equal v v = true) → (∀ v w, c.Equal v w = true → c.Hash v = c.Hash w) → ∀ p ∈ s.maps, ∀ o ∈ s.maps,
      (p.Equal c s.bases o = true ↔ ∀ k, Option.Rel (fun v w => c.Equal v w = true) (p.Get s.bases k) (o.Get s.bases k)) ∧
      ((∀ k, Option.Rel (fun v w => c.Equal v w = true) (p.Get s.bases k) (o.Get s.bases k)) → p.hash = o.hash)) ∧
    ((∀ v, c.Equal v v = true) → (∀ v w, c.Equal v w = true → c.Equal w v = true) →
      (∀ u v w, c.Equal u v = true → c.Equal v w = true → c.Equal u w = true) → (∀ x ∈ calls, x.Respects c) →
      List.Forall₂ (fun p m => ∀ k, Option.Rel (fun v w => c.Equal v w = true) (p.Get s.bases k) (m.contents.find? k))
        s.maps (run (plainStep fun f => f) [{}] calls)) := by
  have hstart : List.Forall₂ (Stands c ({} : Maps V).bases) ({} : Maps V).maps [{}] :=
    .cons ⟨⟨fun b hb => (by cases hb),rfl⟩,rfl,rfl⟩ .nil
  obtain ⟨hstand,-,-⟩ := stand_run calls hstart
  have hok : ∀ p ∈ (run (Maps.step c) {} calls).maps, p.Ok c (run (Maps.step c) {} calls).bases := by
    intro p hp
    obtain ⟨i,hi⟩ := List.mem_iff_getElem?.mp hp
    have hrel := rel_getElem? hstand i
    rw [hi] at hrel
    generalize (run (plainStep (PMap.pruned c)) [{}] calls)[i]? = m at hrel
    cases hrel with
    | some h => exact h.ok
  refine ⟨?_,fun more => ?_,fun hrefl hhash p hp o ho => ?_,fun hrefl hsymm htrans hcalls => ?_⟩
  · refine hstand.imp fun p m h => ⟨fun k => ?_,?_,?_⟩
    · rw [← PMap.find?_merged,h.contents]
    · rw [PMap.len_eq,h.contents]
    · rw [PMap.range_eq,h.contents]
  · obtain ⟨-,hmaps,more',hmore⟩ := stand_run more hstand
    rw [run_append]
    refine ⟨hmaps,fun p hp k => ?_⟩
    rw [← PMap.find?_merged,← PMap.find?_merged,hmore,PMap.merged_append (hok p hp).base]
  · have hequal := PMap.equal_iff hrefl hhash (hok p hp) (hok o ho)
    unfold PMap.Same at hequal
    simp only [PMap.find?_merged] at hequal
    refine ⟨hequal,fun h => ?_⟩
    rw [(hok p hp).hash,(hok o ho).hash]
    refine PMap.Same.total hhash fun k => ?_
    rw [PMap.find?_merged,PMap.find?_merged]
    exact h k
  · have halike : List.Forall₂ (Plain.Alike c) [{}] [({} : Plain V)] := .cons ⟨rfl,fun k => .none⟩ .nil
    refine forall₂_trans ?_ hstand (alike_run hrefl hsymm htrans calls hcalls halike)
    intro p m m' hpm hmm' k
    rw [← PMap.find?_merged,hpm.contents]
    exact hmm'.2 k

namespace Sample

def firsts : Value (ℕ × ℕ) := ⟨fun v w => v.1 = w.1,fun v => v.1.toUInt64⟩

def calls : List (Call (ℕ × ℕ)) := [.set 0 "k" (1,7),.mapRecent 1 fun v => (v.1,v.2+1),.mapRecent 2 fun v => (v.2,0)]

/-- Each call sets a key of its own in the newest map; after seventeen there is a base. -/
def manyKeys : List (Call (ℕ × ℕ)) := (List.range 18).map fun i => .set i (String.ofList (List.replicate i 'k')) (i,0)

theorem the_persistent_map_is_a_map_firsts :
    let s := run (Maps.step firsts) {} manyKeys
    s.bases ≠ [] ∧ ∀ p ∈ s.maps, ∀ o ∈ s.maps, (p.Equal firsts s.bases o = true ↔
      ∀ k, Option.Rel (fun v w => firsts.Equal v w = true) (p.Get s.bases k) (o.Get s.bases k)) ∧
      ((∀ k, Option.Rel (fun v w => firsts.Equal v w = true) (p.Get s.bases k) (o.Get s.bases k)) → p.hash = o.hash) :=
  ⟨by decide +kernel,
    (the_persistent_map_is_a_map firsts manyKeys).2.2.1 (by simp [firsts]) (by simp +contextual [firsts])⟩

/-- The map keeps a value that the first function replaces by an equal one, and the second function then gives a value
that is not equal to what it gives of the replaced one. -/
theorem equal_value_is_not_replaced :
    (run (Maps.step firsts) {} calls).maps.map (fun p => p.Get (run (Maps.step firsts) {} calls).bases "k") =
      [none,some (1,7),some (1,7),some (7,0)] ∧
    (run (plainStep fun f => f) [{}] calls).map (fun m => m.contents.find? "k") =
      [none,some (1,7),some (1,8),some (8,0)] ∧ firsts.Equal (7,0) (8,0) = false := by decide +kernel

end Sample

end Vibesys.Check
