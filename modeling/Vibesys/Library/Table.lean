import Mathlib.Data.List.Sigma
import Mathlib.Order.Lattice

/-!
# Tables

A table is a finite map kept as a list in strictly ascending order of its keys, so two tables that
answer every lookup alike are equal, and going through a table is going through it in key order.
`find?` is the whole of what a table says, and every operation is described by what `find?` gives
after it.
-/
namespace Vibesys.Library

structure Table (κ α : Type*) [LinearOrder κ] where
  items : List (Σ _ : κ, α)
  sorted : items.Pairwise fun a b => a.1 < b.1
  deriving DecidableEq

namespace Table

variable {κ α β : Type*} [LinearOrder κ]

instance : EmptyCollection (Table κ α) := ⟨⟨[],List.Pairwise.nil⟩⟩

instance : Inhabited (Table κ α) := ⟨∅⟩

def find? (t : Table κ α) (k : κ) : Option α := t.items.dlookup k

def keys (t : Table κ α) : List κ := t.items.keys

def values (t : Table κ α) : List α := t.items.map Sigma.snd

/-- The list with an entry put in its place, instead of any with its key. -/
def insertItem (k : κ) (a : α) : List (Σ _ : κ, α) → List (Σ _ : κ, α)
  | [] => [⟨k,a⟩]
  | e :: rest =>
    if k = e.1 then ⟨k,a⟩ :: rest
    else if k < e.1 then ⟨k,a⟩ :: e :: rest
    else e :: insertItem k a rest

theorem mem_insertItem {k : κ} {a : α} {e : Σ _ : κ, α} {l : List (Σ _ : κ, α)}
    (h : e ∈ insertItem k a l) : e = ⟨k,a⟩ ∨ e ∈ l := by
  induction l with
  | nil => simpa [insertItem] using h
  | cons e' rest ih =>
    rw [insertItem] at h
    split_ifs at h <;> grind

theorem sorted_insertItem (k : κ) (a : α) {l : List (Σ _ : κ, α)} (h : l.Pairwise fun a b => a.1 < b.1) :
    (insertItem k a l).Pairwise fun a b => a.1 < b.1 := by
  induction l with
  | nil => simp [insertItem]
  | cons e rest ih =>
    obtain ⟨hhead,hrest⟩ := List.pairwise_cons.mp h
    rw [insertItem]
    split_ifs with heq hlt
    · exact List.pairwise_cons.mpr ⟨fun b hb => heq ▸ hhead b hb,hrest⟩
    · refine List.pairwise_cons.mpr ⟨fun b hb => ?_,h⟩
      rcases List.mem_cons.mp hb with rfl | hb
      · exact hlt
      · exact lt_trans hlt (hhead b hb)
    · refine List.pairwise_cons.mpr ⟨fun b hb => ?_,ih hrest⟩
      rcases mem_insertItem hb with rfl | hb
      · exact lt_of_le_of_ne (not_lt.mp hlt) (Ne.symm heq)
      · exact hhead b hb

def insert (t : Table κ α) (k : κ) (a : α) : Table κ α := ⟨insertItem k a t.items,sorted_insertItem k a t.sorted⟩

def erase (t : Table κ α) (k : κ) : Table κ α := ⟨t.items.kerase k,t.sorted.sublist (List.kerase_sublist k _)⟩

def filter (t : Table κ α) (p : κ → α → Bool) : Table κ α :=
  ⟨t.items.filter fun e => p e.1 e.2,t.sorted.sublist List.filter_sublist⟩

theorem nodupKeys (t : Table κ α) : t.items.NodupKeys :=
  List.nodupKeys_iff_pairwise.mpr (t.sorted.imp ne_of_lt)

@[ext] theorem ext {t t' : Table κ α} (h : ∀ k, t.find? k = t'.find? k) : t = t' := by
  have hperm : t.items.Perm t'.items :=
    List.lookup_ext t.nodupKeys t'.nodupKeys fun k a => by
      have := h k
      simp only [find?] at this
      rw [this]
  have hitems : t.items = t'.items :=
    List.Perm.eq_of_pairwise (fun a b _ _ hab hba => absurd hab (lt_asymm hba)) t.sorted t'.sorted hperm
  cases t
  cases t'
  simpa using hitems

@[simp] theorem find?_empty (k : κ) : (∅ : Table κ α).find? k = none := rfl

theorem find?_eq_some {t : Table κ α} {k : κ} {a : α} : t.find? k = some a ↔ ⟨k,a⟩ ∈ t.items :=
  List.mem_dlookup_iff t.nodupKeys

theorem dlookup_insertItem (k k' : κ) (a : α) (l : List (Σ _ : κ, α)) :
    (insertItem k a l).dlookup k' = if k' = k then some a else l.dlookup k' := by
  induction l with
  | nil =>
    by_cases h : k' = k
    · subst h
      simp [insertItem]
    · rw [insertItem,List.dlookup_cons_ne _ _ h,if_neg h]
  | cons e rest ih =>
    obtain ⟨ke,ae⟩ := e
    rw [insertItem]
    by_cases heq : k = ke
    · subst heq
      rw [if_pos rfl]
      by_cases h : k' = k
      · subst h
        simp
      · rw [List.dlookup_cons_ne _ _ h,List.dlookup_cons_ne _ _ h,if_neg h]
    · rw [if_neg heq]
      by_cases hlt : k < ke
      · rw [if_pos hlt]
        by_cases h : k' = k
        · subst h
          simp
        · rw [List.dlookup_cons_ne _ _ h,if_neg h]
      · rw [if_neg hlt]
        by_cases he : k' = ke
        · subst he
          simp [Ne.symm heq]
        · rw [List.dlookup_cons_ne _ _ he,List.dlookup_cons_ne _ _ he,ih]

@[grind =] theorem find?_insert (t : Table κ α) (k k' : κ) (a : α) :
    (t.insert k a).find? k' = if k' = k then some a else t.find? k' :=
  dlookup_insertItem k k' a t.items

@[simp] theorem find?_insert_self (t : Table κ α) (k : κ) (a : α) : (t.insert k a).find? k = some a := by
  rw [find?_insert,if_pos rfl]

theorem find?_insert_ne (t : Table κ α) {k k' : κ} (a : α) (h : k' ≠ k) : (t.insert k a).find? k' = t.find? k' := by
  rw [find?_insert,if_neg h]

@[grind =] theorem find?_erase (t : Table κ α) (k k' : κ) :
    (t.erase k).find? k' = if k' = k then none else t.find? k' := by
  by_cases h : k' = k
  · subst h
    simpa [find?,erase] using List.dlookup_kerase k' t.nodupKeys
  · rw [if_neg h]
    exact List.dlookup_kerase_ne h

@[grind =] theorem find?_filter (t : Table κ α) (p : κ → α → Bool) (k : κ) :
    (t.filter p).find? k = (t.find? k).filter (p k) := by
  ext a
  simp only [find?_eq_some,filter,List.mem_filter,Option.filter_eq_some_iff]

theorem mem_keys {t : Table κ α} {k : κ} : k ∈ t.keys ↔ ∃ a, t.find? k = some a := by
  simp only [keys,List.mem_keys,find?_eq_some]

theorem mem_values {t : Table κ α} {a : α} : a ∈ t.values ↔ ∃ k, t.find? k = some a := by
  simp only [values,List.mem_map,find?_eq_some]
  constructor
  · rintro ⟨⟨k,b⟩,h,rfl⟩
    exact ⟨k,h⟩
  · rintro ⟨k,h⟩
    exact ⟨⟨k,a⟩,h,rfl⟩

theorem nodup_keys (t : Table κ α) : t.keys.Nodup := t.nodupKeys

@[simp] theorem keys_empty : (∅ : Table κ α).keys = [] := rfl

@[simp] theorem values_empty : (∅ : Table κ α).values = [] := rfl

theorem insert_of_find? {t : Table κ α} {k : κ} {a : α} (h : t.find? k = some a) : t.insert k a = t := by
  ext1 k'
  grind

theorem items_insert_perm (t : Table κ α) (k : κ) (a : α) : (t.insert k a).items.Perm (⟨k,a⟩ :: (t.erase k).items) := by
  have hnodup : (⟨k,a⟩ :: (t.erase k).items : List (Σ _ : κ, α)).NodupKeys :=
    List.nodupKeys_cons.mpr ⟨List.notMem_keys_kerase k t.nodupKeys,(t.erase k).nodupKeys⟩
  refine List.lookup_ext (t.insert k a).nodupKeys hnodup fun k' b => ?_
  have hleft : (t.insert k a).items.dlookup k' = if k' = k then some a else t.find? k' := find?_insert t k k' a
  rw [hleft]
  by_cases h : k' = k
  · subst h
    simp
  · have herase : (t.erase k).items.dlookup k' = t.find? k' := by
      have := find?_erase t k k'
      rwa [if_neg h] at this
    rw [if_neg h,List.dlookup_cons_ne _ _ h,herase]

theorem items_perm {t : Table κ α} {k : κ} {a : α} (h : t.find? k = some a) : t.items.Perm (⟨k,a⟩ :: (t.erase k).items) := by
  have := items_insert_perm t k a
  rwa [insert_of_find? h] at this

theorem length_keys (t : Table κ α) : t.keys.length = t.items.length := List.length_map _

theorem length_keys_erase_le (t : Table κ α) (k : κ) : (t.erase k).keys.length ≤ t.keys.length := by
  rw [length_keys,length_keys]
  exact (List.kerase_sublist k t.items).length_le

theorem length_keys_insert (t : Table κ α) (k : κ) (a : α) :
    (t.insert k a).keys.length = (t.erase k).keys.length+1 := by
  rw [length_keys,length_keys,(items_insert_perm t k a).length_eq,List.length_cons]

theorem length_keys_insert_of_find? {t : Table κ α} {k : κ} {b : α} (h : t.find? k = some b) (a : α) :
    (t.insert k a).keys.length = t.keys.length := by
  rw [length_keys_insert,length_keys,length_keys,(items_perm h).length_eq,List.length_cons]

theorem erase_of_find? {t : Table κ α} {k : κ} (h : t.find? k = none) : t.erase k = t := by
  ext1 k'
  grind

section Map

variable {β : Type*}

def mapWith (f : κ → α → β) (t : Table κ α) : Table κ β :=
  ⟨t.items.map fun e => ⟨e.1,f e.1 e.2⟩,List.pairwise_map.mpr t.sorted⟩

@[simp] theorem find?_mapWith (f : κ → α → β) (t : Table κ α) (k : κ) :
    (t.mapWith f).find? k = (t.find? k).map (f k) := by
  have hitems : ∀ l : List (Σ _ : κ, α),
      (l.map fun e => (⟨e.1,f e.1 e.2⟩ : Σ _ : κ, β)).dlookup k = (l.dlookup k).map (f k) := by
    intro l
    induction l with
    | nil => rfl
    | cons e l ih =>
      obtain ⟨k',a⟩ := e
      by_cases h : k = k'
      · subst h
        simp
      · rw [List.map_cons,List.dlookup_cons_ne _ _ h,List.dlookup_cons_ne _ _ h,ih]
  exact hitems t.items

def map (f : α → β) (t : Table κ α) : Table κ β :=
  ⟨t.items.map fun e => ⟨e.1,f e.2⟩,List.pairwise_map.mpr t.sorted⟩

@[simp] theorem find?_map (f : α → β) (t : Table κ α) (k : κ) : (t.map f).find? k = (t.find? k).map f :=
  find?_mapWith (fun _ => f) t k

end Map

/-!
## Tables read entry by entry

A table may be computed from another by going through its entries in the order of the keys: an entry is
refused, passed over, or gives what the new table holds under its key. A table whose keys so far are all
smaller than a new one gets the new entry at its end.
-/

variable {γ : Type*}

/-- One entry: `none` refuses the whole, `some none` passes over the entry. -/
def collectItem (f : κ → α → Option (Option γ)) (t : Table κ γ) (e : Σ _ : κ, α) : Option (Table κ γ) :=
  match f e.1 e.2 with
  | none => none
  | some none => some t
  | some (some c) => some (t.insert e.1 c)

def collect (f : κ → α → Option (Option γ)) (t : Table κ α) : Option (Table κ γ) :=
  t.items.foldlM (collectItem f) ∅

section Collect

variable {f : κ → α → Option (Option γ)}

lemma collectItem_eq {t : Table κ γ} {e : Σ _ : κ, α} (h : (f e.1 e.2).isSome) :
    ∃ t', collectItem f t e = some t' ∧
      ∀ k, t'.find? k = if k = e.1 then (f e.1 e.2).join.or (t.find? k) else t.find? k := by
  obtain ⟨r,hr⟩ := Option.isSome_iff_exists.mp h
  cases r with
  | none =>
    refine ⟨t,by simp [collectItem,hr],fun k => ?_⟩
    simp [hr]
  | some c =>
    refine ⟨t.insert e.1 c,by simp [collectItem,hr],fun k => ?_⟩
    rw [find?_insert]
    simp [hr]

lemma foldlM_collectItem {l : List (Σ _ : κ, α)} (hl : l.NodupKeys) (h : ∀ e ∈ l, (f e.1 e.2).isSome)
    (t : Table κ γ) (ht : ∀ k ∈ l.keys, t.find? k = none) :
    ∃ t', l.foldlM (collectItem f) t = some t' ∧
      ∀ k, t'.find? k = ((l.dlookup k).bind fun a => (f k a).join).or (t.find? k) := by
  induction l generalizing t with
  | nil => exact ⟨t,rfl,fun k => by simp⟩
  | cons e l ih =>
    obtain ⟨ke,a⟩ := e
    obtain ⟨hnew,hrest⟩ := List.nodupKeys_cons.mp hl
    obtain ⟨t₁,ht₁,hfind₁⟩ := collectItem_eq (t := t) (h ⟨ke,a⟩ List.mem_cons_self)
    have hne : ∀ k ∈ l.keys, k ≠ ke := fun k hk heq => hnew (heq ▸ hk)
    have ht₁none : ∀ k ∈ l.keys, t₁.find? k = none := by
      intro k hk
      rw [hfind₁,if_neg (hne k hk)]
      exact ht k (by simp [hk])
    obtain ⟨t',ht',hfind'⟩ := ih hrest (fun e he => h e (List.mem_cons_of_mem _ he)) t₁ ht₁none
    refine ⟨t',by simp [List.foldlM_cons,ht₁,ht'],fun k => ?_⟩
    rw [hfind',hfind₁]
    by_cases hk : k = ke
    · subst hk
      have hnone : l.dlookup k = none := List.dlookup_eq_none.mpr hnew
      simp [hnone]
    · rw [if_neg hk,List.dlookup_cons_ne _ _ hk]

theorem collect_eq {t : Table κ α} (h : ∀ k a, t.find? k = some a → (f k a).isSome) :
    ∃ t', t.collect f = some t' ∧ ∀ k, t'.find? k = (t.find? k).bind fun a => (f k a).join := by
  obtain ⟨t',ht',hfind⟩ := foldlM_collectItem (f := f) t.nodupKeys
    (fun e he => h e.1 e.2 (find?_eq_some.mpr he)) ∅ fun k _ => find?_empty k
  exact ⟨t',ht',fun k => by rw [hfind,find?_empty,Option.or_none]; rfl⟩

end Collect

lemma insertItem_of_lt {k : κ} {a : α} {l : List (Σ _ : κ, α)} (h : ∀ e ∈ l, e.1 < k) :
    insertItem k a l = l ++ [⟨k,a⟩] := by
  induction l with
  | nil => rfl
  | cons e l ih =>
    have he : e.1 < k := h e List.mem_cons_self
    rw [insertItem,if_neg (ne_of_gt he),if_neg (lt_asymm he),ih fun e he => h e (List.mem_cons_of_mem _ he)]
    rfl

theorem items_insert_of_lt {t : Table κ α} {k : κ} (h : ∀ e ∈ t.items, e.1 < k) (a : α) :
    (t.insert k a).items = t.items ++ [⟨k,a⟩] :=
  insertItem_of_lt h

end Table
end Vibesys.Library
