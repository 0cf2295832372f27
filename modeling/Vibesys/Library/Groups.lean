import Mathlib.Algebra.BigOperators.Group.List.Basic

/-!
# Sums over groups

The rows of a list fall into groups by a key. Adding up each group and then the groups is adding up the rows, and a
group that adds nothing may be left out.
-/
namespace Vibesys.Library

variable {α κ M : Type*} [DecidableEq κ] [AddCommMonoid M]

def groupSum (group : α → κ) (f : α → M) (rows : List α) (k : κ) : M := ((rows.filter fun a => group a = k).map f).sum

variable {group : α → κ} {f : α → M} {rows : List α} {keys : List κ}

@[simp] theorem groupSum_nil (k : κ) : groupSum group f [] k = 0 := rfl

theorem groupSum_cons (a : α) (rows : List α) (k : κ) :
    groupSum group f (a :: rows) k = (if group a = k then f a else 0)+groupSum group f rows k := by
  unfold groupSum
  by_cases h : group a = k
  · rw [List.filter_cons_of_pos (by simpa using h),List.map_cons,List.sum_cons,if_pos h]
  · rw [List.filter_cons_of_neg (by simpa using h),if_neg h,zero_add]

theorem sum_ite_key {k : κ} {m : M} (hnodup : keys.Nodup) (hk : k ∈ keys) : (keys.map fun k' => if k = k' then m else 0).sum = m := by
  induction keys with
  | nil => exact absurd hk List.not_mem_nil
  | cons k' keys ih =>
    obtain ⟨hnot,hnodup⟩ := List.nodup_cons.mp hnodup
    rw [List.map_cons,List.sum_cons]
    by_cases heq : k = k'
    · subst heq
      have hzero : (keys.map fun k' => if k = k' then m else 0) = keys.map fun _ => 0 :=
        List.map_congr_left fun k' hk' => if_neg fun heq : k = k' => hnot (heq ▸ hk')
      rw [if_pos rfl,hzero]
      simp
    · rw [if_neg heq,zero_add]
      exact ih hnodup ((List.mem_cons.mp hk).resolve_left heq)

theorem sum_groupSum (hnodup : keys.Nodup) (hkeys : ∀ a ∈ rows, group a ∈ keys) :
    (keys.map (groupSum group f rows)).sum = (rows.map f).sum := by
  induction rows with
  | nil =>
    have hzero : keys.map (groupSum group f []) = keys.map fun _ => 0 := List.map_congr_left fun k _ => groupSum_nil k
    rw [hzero]
    simp
  | cons a rows ih =>
    have hsplit : keys.map (groupSum group f (a :: rows)) =
        keys.map fun k => (if group a = k then f a else 0)+groupSum group f rows k :=
      List.map_congr_left fun k _ => groupSum_cons a rows k
    rw [hsplit,List.sum_map_add,sum_ite_key hnodup (hkeys a List.mem_cons_self),List.map_cons,List.sum_cons,
      ih fun a ha => hkeys a (List.mem_cons_of_mem _ ha)]

theorem groupSum_prod {κ' : Type*} [DecidableEq κ'] {group' : α → κ'} (k : κ) (k' : κ') :
    groupSum (fun a => (group a,group' a)) f rows (k,k') = groupSum group' f (rows.filter fun a => group a = k) k' := by
  unfold groupSum
  rw [List.filter_filter]
  congr 3
  funext a
  rw [Bool.eq_iff_iff]
  simp [Prod.ext_iff,and_comm]

end Vibesys.Library
