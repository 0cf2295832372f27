import Mathlib.Data.List.Sort

/-!
# Sorting by a key

A list sorted by a relation that compares keys is in order, and entries with distinct keys are in order in one way.
-/
namespace Vibesys.Library

variable {α κ : Type*} [LinearOrder κ] {key : α → κ} {r : α → α → Prop} {l l' : List α}

theorem pairwise_insertionSort_of_key [DecidableRel r] (hr : ∀ a b, r a b ↔ key a ≤ key b) (l : List α) :
    (l.insertionSort r).Pairwise r := by
  have htotal : Std.Total r := ⟨fun a b => by rw [hr,hr]; exact le_total (key a) (key b)⟩
  have htrans : IsTrans α r := ⟨fun a b c hab hbc => by rw [hr] at hab hbc ⊢; exact hab.trans hbc⟩
  exact List.pairwise_insertionSort r l

theorem eq_of_perm_of_key (hr : ∀ a b, r a b ↔ key a ≤ key b) (hperm : l.Perm l')
    (hkey : ∀ a ∈ l, ∀ b ∈ l, key a = key b → a = b) (hl : l.Pairwise r) (hl' : l'.Pairwise r) : l = l' :=
  hperm.eq_of_pairwise (fun a b ha hb hab hba =>
    hkey a ha b (hperm.mem_iff.mpr hb) (le_antisymm ((hr a b).mp hab) ((hr b a).mp hba))) hl hl'

end Vibesys.Library
