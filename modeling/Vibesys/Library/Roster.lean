import Mathlib.Data.List.Nodup

/-!
# Rosters

A roster is a list of items in the order they came, no two with the same key, where the key is
part of the item. `find` is the whole of what a roster says about a key, and every operation is
described by what `find` gives after it.
-/
namespace Vibesys.Library

variable {α κ : Type*}

structure Roster (key : α → κ) where
  items : List α
  nodup : (items.map key).Nodup

namespace Roster

variable [DecidableEq κ] {key : α → κ}

instance : EmptyCollection (Roster key) := ⟨⟨[],List.nodup_nil⟩⟩

def find (r : Roster key) (k : κ) : Option α := r.items.find? fun a => key a = k

/-- Changes every item, each keeping its key. -/
def map (r : Roster key) (f : α → α) (hf : ∀ a, key (f a) = key a) : Roster key where
  items := r.items.map f
  nodup := by
    have h : (r.items.map f).map key = r.items.map key := by
      rw [List.map_map]
      exact List.map_congr_left fun a _ => hf a
    rw [h]
    exact r.nodup

/-- Replaces the item with the key of `v` where it stands, if there is one. -/
def put (r : Roster key) (v : α) : Roster key :=
  r.map (fun a => if key a = key v then v else a) fun a => by by_cases ha : key a = key v <;> simp [ha]

def filter (r : Roster key) (p : α → Bool) : Roster key where
  items := r.items.filter p
  nodup := r.nodup.sublist (List.filter_sublist.map key)

def remove (r : Roster key) (k : κ) : Roster key := r.filter fun a => key a ≠ k

/-- Adds an item at the end, in the place of any with its key. -/
def push (r : Roster key) (v : α) : Roster key where
  items := (r.remove (key v)).items ++ [v]
  nodup := by
    rw [List.map_append,List.map_singleton]
    refine List.nodup_append.mpr ⟨(r.remove (key v)).nodup,List.nodup_singleton _,?_⟩
    rintro k hk k' hk' rfl
    obtain ⟨a,ha,rfl⟩ := List.mem_map.mp hk
    have := (List.mem_filter.mp ha).2
    simp [List.mem_singleton.mp hk'] at this

theorem find_eq_some_iff {r : Roster key} {k : κ} {a : α} : r.find k = some a ↔ a ∈ r.items ∧ key a = k := by
  constructor
  · intro h
    exact ⟨List.mem_of_find?_eq_some h,by simpa using List.find?_some h⟩
  · rintro ⟨ha,rfl⟩
    cases h : r.find (key a) with
    | none => simpa using List.find?_eq_none.mp h a ha
    | some b =>
      have hb : key b = key a := by simpa using List.find?_some h
      rw [List.inj_on_of_nodup_map r.nodup (List.mem_of_find?_eq_some h) ha hb]

theorem key_of_find {r : Roster key} {k : κ} {a : α} (h : r.find k = some a) : key a = k :=
  (find_eq_some_iff.mp h).2

theorem mem_iff {r : Roster key} {a : α} : a ∈ r.items ↔ r.find (key a) = some a := by
  simp [find_eq_some_iff]

theorem filter_key (r : Roster key) (k : κ) : (r.items.filter fun a => key a = k) = (r.find k).toList := by
  obtain ⟨items,h⟩ := r
  unfold find
  induction items with
  | nil => rfl
  | cons a items ih =>
    obtain ⟨hnotin,hrest⟩ := List.nodup_cons.mp h
    by_cases ha : key a = k
    · subst ha
      have hnil : (items.filter fun b => key b = key a) = [] := by
        refine List.filter_eq_nil_iff.mpr fun b hb hk => hnotin ?_
        exact List.mem_map.mpr ⟨b,hb,by simpa using hk⟩
      simp [hnil]
    · simp [ha,ih hrest]

@[simp] theorem find_empty (k : κ) : (∅ : Roster key).find k = none := rfl

theorem find_map (r : Roster key) (f : α → α) (hf : ∀ a, key (f a) = key a) (k : κ) :
    (r.map f hf).find k = (r.find k).map f := by
  rw [find,map,List.find?_map]
  simp only [Function.comp_def,hf]
  rfl

theorem find_put (r : Roster key) (v : α) (k : κ) :
    (r.put v).find k = if key v = k then (r.find k).map fun _ => v else r.find k := by
  rw [put,find_map]
  cases h : r.find k with
  | none => simp
  | some a =>
    rw [Option.map_some,key_of_find h]
    by_cases hv : key v = k
    · simp [hv]
    · simp [hv,Ne.symm hv]

theorem find_filter (r : Roster key) (p : α → Bool) (k : κ) :
    (r.filter p).find k = (r.find k).filter p := by
  ext a
  simp [find_eq_some_iff,filter,Option.filter_eq_some_iff]
  tauto

theorem find_remove (r : Roster key) (k' k : κ) :
    (r.remove k').find k = if k' = k then none else r.find k := by
  rw [remove,find_filter]
  by_cases hk : k' = k
  · rw [if_pos hk,Option.filter_eq_none_iff]
    intro a ha
    simp [key_of_find ha,hk]
  · rw [if_neg hk]
    cases h : r.find k with
    | none => rfl
    | some a => simp [Option.filter,key_of_find h,Ne.symm hk]

theorem find_push (r : Roster key) (v : α) (k : κ) :
    (r.push v).find k = if key v = k then some v else r.find k := by
  by_cases hk : key v = k
  · subst hk
    rw [if_pos rfl,find_eq_some_iff]
    exact ⟨List.mem_append_right _ (List.mem_singleton.mpr rfl),rfl⟩
  · have h := find_remove r (key v) k
    rw [if_neg hk] at h ⊢
    rw [← h,find,push,List.find?_append]
    simp [find,hk]

end Roster
end Vibesys.Library
