import Mathlib.Data.String.Basic
import Mathlib.Data.UInt
import Mathlib.Algebra.BigOperators.Group.List.Basic
import Mathlib.Tactic.Abel
import Vibesys.Library.Table

/-!
# The persistent map of model states

A map is a base that it may share with other maps and an overlay that overrides it. Bases are at addresses of a memory
that only grows, so that comparing their addresses has its meaning here. The hash is kept as the entries change.
-/
namespace Vibesys.Check

open Library

structure Value (V : Type) where
  Equal : V → V → Bool
  Hash : V → UInt64

def mix64 (x : UInt64) : UInt64 :=
  let x := (x ^^^ (x >>> 33))*0xff51afd7ed558ccd
  let x := (x ^^^ (x >>> 33))*0xc4ceb9fe1a85ec53
  x ^^^ (x >>> 33)

def entryHash (k : String) (h : UInt64) : UInt64 :=
  let x := k.toUTF8.toList.foldl (fun x b => (x ^^^ b.toUInt64)*1099511628211) 14695981039346656037
  mix64 (x ^^^ mix64 h)

def overlayMax : ℕ := 16

structure PMap (V : Type) where
  base : Option ℕ := none
  overlay : Table String V := ∅
  hash : UInt64 := 0

/-- The bases that were made, at their addresses. -/
abbrev Memory (V : Type) := List (Table String V)

variable {V : Type}

namespace PMap

def baseMap (bases : Memory V) (p : PMap V) : Table String V := (p.base.bind fun b => bases[b]?).getD ∅

def Get (bases : Memory V) (p : PMap V) (k : String) : Option V :=
  match p.overlay.find? k with
  | some v => some v
  | none => (p.baseMap bases).find? k

def merged (bases : Memory V) (p : PMap V) : Table String V :=
  p.overlay.items.foldl (fun m e => m.insert e.1 e.2) (p.baseMap bases)

def compact (bases : Memory V) (p : PMap V) : Memory V × PMap V :=
  (bases ++ [p.merged bases],{ base := some bases.length, hash := p.hash })

def Set (c : Value V) (bases : Memory V) (p : PMap V) (k : String) (v : V) : Memory V × PMap V :=
  let h := match p.Get bases k with
    | some old => p.hash-entryHash k (c.Hash old)
    | none => p.hash
  let n : PMap V := { base := p.base, overlay := p.overlay.insert k v, hash := h+entryHash k (c.Hash v) }
  if n.overlay.keys.length > overlayMax then n.compact bases else (bases,n)

def Len (bases : Memory V) (p : PMap V) : ℕ :=
  p.overlay.keys.length+(p.baseMap bases).keys.length-
    (p.overlay.keys.filter fun k => k ∈ (p.baseMap bases).keys).length

def Range (bases : Memory V) (p : PMap V) : List (String × V) :=
  let keys := p.overlay.keys ++ (p.baseMap bases).keys.filter fun k => k ∉ p.overlay.keys
  (keys.insertionSort (· ≤ ·)).filterMap fun k => (p.Get bases k).map fun v => (k,v)

/-- The value that stays in the overlay: the old one if it is equal. -/
def pruned (c : Value V) (f : V → V) (v : V) : V := if c.Equal (f v) v then v else f v

def MapRecent (c : Value V) (p : PMap V) (f : V → V) : PMap V :=
  { p with
    overlay := p.overlay.map (pruned c f)
    hash := p.overlay.items.foldl (fun h e => if c.Equal (f e.2) e.2 then h
      else h+(entryHash e.1 (c.Hash (f e.2))-entryHash e.1 (c.Hash e.2))) p.hash }

def sameOverlay (c : Value V) (l l' : List (Σ _ : String, V)) : Bool :=
  l.length = l'.length && (l.zip l').all fun x => x.1.1 = x.2.1 && c.Equal x.1.2 x.2.2

def Equal (c : Value V) (bases : Memory V) (p o : PMap V) : Bool :=
  if p.hash ≠ o.hash then false
  else if p.base = o.base && sameOverlay c p.overlay.items o.overlay.items then true
  else if p.Len bases ≠ o.Len bases then false
  else (p.Range bases).all fun x => (o.Get bases x.1).any fun w => c.Equal x.2 w

/-! ## The contents of a map -/

variable {c : Value V} {bases : Memory V} {p o : PMap V}

lemma find?_foldl_insert {l : List (Σ _ : String, V)} (hl : l.NodupKeys) (m : Table String V) (k : String) :
    (l.foldl (fun m e => m.insert e.1 e.2) m).find? k = (l.dlookup k).or (m.find? k) := by
  induction l generalizing m with
  | nil => rfl
  | cons e l ih =>
    obtain ⟨hnew,hl⟩ := List.nodupKeys_cons.mp hl
    rw [List.foldl_cons,ih hl]
    by_cases hk : e.1 = k
    · subst hk
      rw [List.dlookup_eq_none.mpr hnew,List.dlookup_cons_eq,Table.find?_insert_self]
      rfl
    · rw [List.dlookup_cons_ne _ _ (fun h => hk h.symm),Table.find?_insert_ne _ _ (fun h => hk h.symm)]

theorem find?_merged (k : String) : (p.merged bases).find? k = p.Get bases k := by
  unfold merged Get
  rw [find?_foldl_insert p.overlay.nodupKeys]
  change (p.overlay.find? k).or _ = _
  cases p.overlay.find? k <;> rfl

def beneath (bases : Memory V) (p : PMap V) : Table String V := (p.baseMap bases).filter fun k _ => k ∉ p.overlay.keys

lemma keys_beneath : (p.beneath bases).keys = (p.baseMap bases).keys.filter fun k => k ∉ p.overlay.keys := by
  unfold beneath Table.filter Table.keys List.keys
  rw [List.filter_map]
  rfl

lemma find?_beneath (k : String) :
    (p.beneath bases).find? k = if k ∈ p.overlay.keys then none else (p.baseMap bases).find? k := by
  unfold beneath
  rw [Table.find?_filter]
  by_cases hk : k ∈ p.overlay.keys
  · simp [hk]
  · cases (p.baseMap bases).find? k <;> simp [hk]

theorem items_merged : (p.merged bases).items.Perm (p.overlay.items ++ (p.beneath bases).items) := by
  have hnodup : (p.overlay.items ++ (p.beneath bases).items).NodupKeys := by
    unfold List.NodupKeys List.keys
    rw [List.map_append]
    refine List.nodup_append.mpr ⟨p.overlay.nodupKeys,(p.beneath bases).nodupKeys,?_⟩
    rintro a ha b hb rfl
    have hnot : a ∈ (p.beneath bases).keys := hb
    rw [keys_beneath] at hnot
    simpa using (List.mem_filter.mp hnot).2 |> fun h => (of_decide_eq_true h) ha
  refine List.lookup_ext (Table.nodupKeys _) hnodup fun k v => ?_
  rw [List.dlookup_append]
  change v ∈ (p.merged bases).find? k ↔ v ∈ (p.overlay.find? k).or ((p.beneath bases).find? k)
  rw [find?_merged,Get,find?_beneath]
  cases hk : p.overlay.find? k with
  | some w => rfl
  | none =>
    have hnot : k ∉ p.overlay.keys := fun h => by
      obtain ⟨a,ha⟩ := Table.mem_keys.mp h
      rw [hk] at ha
      cases ha
    rw [if_neg hnot]
    rfl

lemma keys_merged : (p.merged bases).keys.Perm (p.overlay.keys ++ (p.beneath bases).keys) := by
  have := (@items_merged V bases p).map Sigma.fst
  rwa [List.map_append] at this

theorem len_eq : p.Len bases = (p.merged bases).keys.length := by
  have hsplit := List.length_eq_length_filter_add (l := (p.baseMap bases).keys) fun k => decide (k ∈ p.overlay.keys)
  have hboth : (p.overlay.keys.filter fun k => k ∈ (p.baseMap bases).keys).length =
      ((p.baseMap bases).keys.filter fun k => k ∈ p.overlay.keys).length := by
    refine List.Perm.length_eq ((List.perm_ext_iff_of_nodup ?_ ?_).mpr fun k => ?_)
    · exact p.overlay.nodup_keys.filter _
    · exact (p.baseMap bases).nodup_keys.filter _
    · simp only [List.mem_filter,decide_eq_true_eq]
      exact and_comm
  have hbeneath : (p.beneath bases).keys.length =
      ((p.baseMap bases).keys.filter fun k => !decide (k ∈ p.overlay.keys)).length := by
    rw [keys_beneath]
    simp
  rw [keys_merged.length_eq,List.length_append,Len,hboth,hbeneath]
  omega

theorem range_eq : p.Range bases = (p.merged bases).items.map fun e => (e.1,e.2) := by
  have hkeys : (p.overlay.keys ++ (p.baseMap bases).keys.filter fun k => k ∉ p.overlay.keys).insertionSort (· ≤ ·) =
      (p.merged bases).keys := by
    refine List.Perm.eq_of_pairwise (fun a b _ _ => le_antisymm) (List.pairwise_insertionSort _ _) ?_ ?_
    · exact List.pairwise_map.mpr ((p.merged bases).sorted.imp le_of_lt)
    · rw [← keys_beneath]
      exact (List.perm_insertionSort _ _).trans keys_merged.symm
  unfold Range
  dsimp only
  rw [hkeys]
  unfold Table.keys List.keys
  rw [List.filterMap_map,← List.filterMap_eq_map]
  refine List.filterMap_congr fun e he => ?_
  have hfind : (p.merged bases).find? e.1 = some e.2 := Table.find?_eq_some.mpr he
  rw [find?_merged] at hfind
  simp [hfind]

/-! ## The hash -/

def total (c : Value V) (t : Table String V) : UInt64 := (t.items.map fun e => entryHash e.1 (c.Hash e.2)).sum

theorem total_insert (t : Table String V) (k : String) (v : V) :
    total c (t.insert k v) = (match t.find? k with
      | some old => total c t-entryHash k (c.Hash old)
      | none => total c t)+entryHash k (c.Hash v) := by
  have hnew : total c (t.insert k v) = entryHash k (c.Hash v)+total c (t.erase k) := by
    unfold total
    rw [((Table.items_insert_perm t k v).map _).sum_eq,List.map_cons,List.sum_cons]
  cases hfind : t.find? k with
  | some old =>
    have hold : total c t = entryHash k (c.Hash old)+total c (t.erase k) := by
      unfold total
      rw [((Table.items_perm hfind).map _).sum_eq,List.map_cons,List.sum_cons]
    rw [hnew,hold]
    abel
  | none =>
    rw [hnew,Table.erase_of_find? hfind]
    exact add_comm _ _

/-- What stays true of a map: its base is in the memory, and its hash is that of its entries. -/
structure Ok (c : Value V) (bases : Memory V) (p : PMap V) : Prop where
  base : ∀ b ∈ p.base, b < bases.length
  hash : p.hash = total c (p.merged bases)

theorem merged_append (h : ∀ b ∈ p.base, b < bases.length) (more : Memory V) : p.merged (bases ++ more) = p.merged bases := by
  have hbase : p.baseMap (bases ++ more) = p.baseMap bases := by
    unfold baseMap
    cases hb : p.base with
    | none => rfl
    | some b =>
      rw [Option.bind_some,Option.bind_some,List.getElem?_append_left (h b hb)]
  unfold merged
  rw [hbase]

theorem Ok.append (h : p.Ok c bases) (more : Memory V) : p.Ok c (bases ++ more) := by
  refine ⟨fun b hb => ?_,?_⟩
  · rw [List.length_append]
    exact Nat.lt_add_right _ (h.base b hb)
  · rw [merged_append h.base]
    exact h.hash

theorem merged_compact : (p.compact bases).2.merged (p.compact bases).1 = p.merged bases := by
  have hbase : (p.compact bases).2.baseMap (p.compact bases).1 = p.merged bases := by simp [compact,baseMap]
  refine Table.ext fun k => ?_
  rw [find?_merged]
  show (match (∅ : Table String V).find? k with
    | some v => some v
    | none => ((p.compact bases).2.baseMap (p.compact bases).1).find? k) = _
  rw [Table.find?_empty,hbase]

def put (c : Value V) (bases : Memory V) (p : PMap V) (k : String) (v : V) : PMap V where
  base := p.base
  overlay := p.overlay.insert k v
  hash := (match p.Get bases k with
    | some old => p.hash-entryHash k (c.Hash old)
    | none => p.hash)+entryHash k (c.Hash v)

theorem merged_put (k : String) (v : V) : (p.put c bases k v).merged bases = (p.merged bases).insert k v := by
  refine Table.ext fun k' => ?_
  rw [find?_merged]
  unfold Get put
  by_cases hk : k' = k
  · subst hk
    simp
  · simp only [Table.find?_insert_ne _ _ hk]
    rw [find?_merged]
    rfl

theorem Ok.put (h : p.Ok c bases) (k : String) (v : V) : (p.put c bases k v).Ok c bases := by
  refine ⟨h.base,?_⟩
  rw [merged_put,total_insert,find?_merged,← h.hash]
  rfl

/-- A set gives the contents with the key set, whether or not it compacts. -/
theorem Ok.set (h : p.Ok c bases) (k : String) (v : V) :
    ∃ more, (p.Set c bases k v).1 = bases ++ more ∧ (p.Set c bases k v).2.Ok c (p.Set c bases k v).1 ∧
      (p.Set c bases k v).2.merged (p.Set c bases k v).1 = (p.merged bases).insert k v ∧
      (p.Set c bases k v).2.overlay = if overlayMax < (p.overlay.insert k v).keys.length then ∅ else p.overlay.insert k v := by
  have hput := h.put k v
  have hset : p.Set c bases k v = if (p.overlay.insert k v).keys.length > overlayMax
      then (p.put c bases k v).compact bases else (bases,p.put c bases k v) := rfl
  rw [hset]
  split_ifs with hlen
  · refine ⟨[(p.put c bases k v).merged bases],rfl,⟨?_,?_⟩,?_,rfl⟩
    · rintro b hb
      obtain rfl := Option.some.inj hb
      simp [compact]
    · rw [merged_compact]
      exact hput.hash
    · rw [merged_compact,merged_put]
  · exact ⟨[],(List.append_nil _).symm,hput,merged_put k v,rfl⟩

lemma foldl_hash (f : V → V) (l : List (Σ _ : String, V)) (h : UInt64) :
    l.foldl (fun h e => if c.Equal (f e.2) e.2 then h
        else h+(entryHash e.1 (c.Hash (f e.2))-entryHash e.1 (c.Hash e.2))) h+
      (l.map fun e => entryHash e.1 (c.Hash e.2)).sum =
      h+(l.map fun e => entryHash e.1 (c.Hash (pruned c f e.2))).sum := by
  induction l generalizing h with
  | nil => simp
  | cons e l ih =>
    rw [List.foldl_cons,List.map_cons,List.map_cons,List.sum_cons,List.sum_cons,add_left_comm,ih,pruned]
    generalize (l.map fun e => entryHash e.1 (c.Hash (pruned c f e.2))).sum = rest
    by_cases hequal : c.Equal (f e.2) e.2 = true
    · rw [if_pos hequal,if_pos hequal]
      exact add_left_comm _ _ _
    · rw [if_neg hequal,if_neg hequal]
      generalize entryHash e.1 (c.Hash (f e.2)) = new
      generalize entryHash e.1 (c.Hash e.2) = old
      abel

theorem find?_mapRecent (f : V → V) (k : String) :
    ((p.MapRecent c f).merged bases).find? k =
      if k ∈ p.overlay.keys then ((p.merged bases).find? k).map (pruned c f) else (p.merged bases).find? k := by
  rw [find?_merged,find?_merged]
  unfold Get MapRecent
  rw [Table.find?_map]
  by_cases hk : k ∈ p.overlay.keys
  · obtain ⟨v,hv⟩ := Table.mem_keys.mp hk
    simp [hk,hv]
  · have hnone : p.overlay.find? k = none := by
      cases hfind : p.overlay.find? k with
      | none => rfl
      | some v => exact absurd (Table.mem_keys.mpr ⟨v,hfind⟩) hk
    simp only [hnone,Option.map_none,if_neg hk]
    rfl

theorem Ok.mapRecent (h : p.Ok c bases) (f : V → V) : (p.MapRecent c f).Ok c bases := by
  refine ⟨h.base,?_⟩
  have hkeys : (p.MapRecent c f).overlay.keys = p.overlay.keys := by
    simp [MapRecent,Table.map,Table.keys,List.keys]
  have hbeneath : (p.MapRecent c f).beneath bases = p.beneath bases := by
    unfold beneath
    rw [hkeys]
    rfl
  have hsplit : ∀ q : PMap V, total c (q.merged bases) = (q.overlay.items.map fun e => entryHash e.1 (c.Hash e.2)).sum+
      ((q.beneath bases).items.map fun e => entryHash e.1 (c.Hash e.2)).sum := by
    intro q
    unfold total
    rw [(items_merged.map _).sum_eq,List.map_append,List.sum_append]
  have hnew : ((p.MapRecent c f).overlay.items.map fun e => entryHash e.1 (c.Hash e.2)) =
      p.overlay.items.map fun e => entryHash e.1 (c.Hash (pruned c f e.2)) := by
    simp [MapRecent,Table.map]
  have hfold := foldl_hash (c := c) f p.overlay.items p.hash
  rw [hsplit,hbeneath,hnew]
  show p.overlay.items.foldl _ p.hash = _
  rw [← eq_sub_iff_add_eq] at hfold
  rw [hfold,h.hash,hsplit]
  abel

/-! ## Equality -/

def Same (c : Value V) (t t' : Table String V) : Prop :=
  ∀ k, Option.Rel (fun v w => c.Equal v w = true) (t.find? k) (t'.find? k)

variable (hrefl : ∀ v, c.Equal v v = true) (hhash : ∀ v w, c.Equal v w = true → c.Hash v = c.Hash w)

lemma Same.keys {t t' : Table String V} (h : Same c t t') : t.keys = t'.keys := by
  have hmem : ∀ k, k ∈ t.keys ↔ k ∈ t'.keys := by
    intro k
    rw [Table.mem_keys,Table.mem_keys]
    have hk := h k
    revert hk
    cases t.find? k <;> cases t'.find? k <;> intro hk <;> cases hk <;> simp
  have hsorted : ∀ t : Table String V, t.keys.Pairwise (· < ·) := fun t => List.pairwise_map.mpr t.sorted
  exact List.Perm.eq_of_pairwise (fun a b _ _ hab hba => absurd hab (lt_asymm hba)) (hsorted t) (hsorted t')
    ((List.perm_ext_iff_of_nodup t.nodup_keys t'.nodup_keys).mpr hmem)

lemma total_eq_keys (t : Table String V) :
    total c t = (t.keys.map fun k => (t.find? k).elim 0 fun v => entryHash k (c.Hash v)).sum := by
  unfold total Table.keys List.keys
  rw [List.map_map]
  refine congrArg List.sum (List.map_congr_left fun e he => ?_)
  have hfind : t.find? e.1 = some e.2 := Table.find?_eq_some.mpr he
  simp [hfind]

include hhash in
theorem Same.total {t t' : Table String V} (h : Same c t t') : total c t = total c t' := by
  rw [total_eq_keys,total_eq_keys,h.keys]
  refine congrArg List.sum (List.map_congr_left fun k _ => ?_)
  have hk := h k
  revert hk
  cases t.find? k <;> cases t'.find? k <;> intro hk <;> cases hk
  · rfl
  · rename_i v w hvw
    simp [hhash v w hvw]

lemma sameOverlay_iff {l l' : List (Σ _ : String, V)} :
    sameOverlay c l l' = true ↔ List.Forall₂ (fun e e' => e.1 = e'.1 ∧ c.Equal e.2 e'.2 = true) l l' := by
  unfold sameOverlay
  rw [List.forall₂_iff_zip]
  simp only [Bool.and_eq_true,decide_eq_true_eq,List.all_eq_true,Prod.forall]

lemma dlookup_of_forall₂ {l l' : List (Σ _ : String, V)}
    (h : List.Forall₂ (fun e e' => e.1 = e'.1 ∧ c.Equal e.2 e'.2 = true) l l') (k : String) :
    Option.Rel (fun v w => c.Equal v w = true) (l.dlookup k) (l'.dlookup k) := by
  induction h with
  | nil => exact .none
  | @cons e e' l l' he _ ih =>
    obtain ⟨hkey,hvalue⟩ := he
    obtain ⟨k₁,v⟩ := e
    obtain ⟨k₂,w⟩ := e'
    obtain rfl : k₁ = k₂ := hkey
    by_cases hk : k = k₁
    · subst hk
      rw [List.dlookup_cons_eq,List.dlookup_cons_eq]
      exact .some hvalue
    · rw [List.dlookup_cons_ne _ _ hk,List.dlookup_cons_ne _ _ hk]
      exact ih

include hrefl in
lemma same_of_overlay (hbase : p.base = o.base) (h : sameOverlay c p.overlay.items o.overlay.items = true) :
    Same c (p.merged bases) (o.merged bases) := by
  intro k
  have hk := dlookup_of_forall₂ (sameOverlay_iff.mp h) k
  change Option.Rel _ (p.overlay.find? k) (o.overlay.find? k) at hk
  rw [find?_merged,find?_merged]
  have hsame : p.baseMap bases = o.baseMap bases := by rw [baseMap,baseMap,hbase]
  unfold Get
  rw [hsame]
  revert hk
  cases p.overlay.find? k <;> cases o.overlay.find? k <;> intro hk <;> cases hk
  · cases (o.baseMap bases).find? k with
    | none => exact .none
    | some v => exact .some (hrefl v)
  · rename_i hvw
    exact .some hvw

include hrefl hhash in
theorem equal_iff (hp : p.Ok c bases) (ho : o.Ok c bases) :
    p.Equal c bases o = true ↔ Same c (p.merged bases) (o.merged bases) := by
  unfold Equal
  constructor
  · intro h
    split_ifs at h with _ hfast hlen
    · obtain ⟨hbase,hoverlay⟩ := Bool.and_eq_true_iff.mp hfast
      exact same_of_overlay hrefl (of_decide_eq_true hbase) hoverlay
    · rw [range_eq,List.all_map,List.all_eq_true] at h
      have hsome : ∀ k v, (p.merged bases).find? k = some v → ∃ w, (o.merged bases).find? k = some w ∧ c.Equal v w = true := by
        intro k v hv
        have := h ⟨k,v⟩ (Table.find?_eq_some.mp hv)
        obtain ⟨w,hw,hvw⟩ := (Option.any_eq_true _ _).mp this
        exact ⟨w,by rw [find?_merged]; exact hw,hvw⟩
      -- as many keys, so no others
      have hsub : (p.merged bases).keys ⊆ (o.merged bases).keys := by
        intro k hk
        obtain ⟨v,hv⟩ := Table.mem_keys.mp hk
        obtain ⟨w,hw,-⟩ := hsome k v hv
        exact Table.mem_keys.mpr ⟨w,hw⟩
      rw [len_eq,len_eq,not_not] at hlen
      have hperm := (List.subperm_of_subset (Table.nodup_keys _) hsub).perm_of_length_le hlen.ge
      intro k
      cases hv : (p.merged bases).find? k with
      | some v =>
        obtain ⟨w,hw,hvw⟩ := hsome k v hv
        rw [hw]
        exact .some hvw
      | none =>
        cases hw : (o.merged bases).find? k with
        | none => exact .none
        | some w =>
          obtain ⟨v,hv'⟩ := Table.mem_keys.mp (hperm.mem_iff.mpr (Table.mem_keys.mpr ⟨w,hw⟩))
          rw [hv] at hv'
          cases hv'
  · intro h
    rw [if_neg (not_not.mpr (by rw [hp.hash,ho.hash,h.total hhash])),
      if_neg (c := p.Len bases ≠ o.Len bases) (not_not.mpr (by rw [len_eq,len_eq,h.keys]))]
    split_ifs
    · rfl
    · rw [range_eq,List.all_map,List.all_eq_true]
      intro e he
      have hk := h e.1
      rw [Table.find?_eq_some.mpr he,find?_merged] at hk
      show (o.Get bases e.1).any _ = true
      generalize o.Get bases e.1 = w at hk ⊢
      cases hk with
      | some hvw => exact hvw

end PMap

end Vibesys.Check
