import Mathlib.Data.List.Basic

/-!
# Lists of numbered slots

A list whose items are known by their place: what is found at a place after an item is added at the
end, or put in the place of another.
-/
namespace Vibesys.Library

variable {α : Type*}

theorem getElem?_append_singleton {l : List α} {a b : α} {i : ℕ} (h : (l ++ [a])[i]? = some b) :
    l[i]? = some b ∨ i = l.length ∧ b = a := by
  rcases Nat.lt_trichotomy i l.length with hlt | rfl | hgt
  · exact .inl (by rwa [List.getElem?_append_left hlt] at h)
  · exact .inr ⟨rfl,by simpa using h.symm⟩
  · rw [List.getElem?_eq_none (by simp; omega)] at h
    cases h

theorem getElem?_set_cases {l : List α} {n i : ℕ} {a b : α} (h : (l.set n a)[i]? = some b) :
    i = n ∧ b = a ∨ l[i]? = some b := by
  by_cases hin : n = i
  · subst hin
    by_cases hlen : n < l.length
    · simp [hlen] at h
      exact .inl ⟨rfl,h.symm⟩
    · simp [hlen] at h
  · exact .inr (by rwa [List.getElem?_set_ne hin] at h)

theorem modify_eq_set {l : List α} {n : ℕ} {a : α} (h : l[n]? = some a) (f : α → α) : l.modify n f = l.set n (f a) := by
  refine List.ext_getElem? fun i => ?_
  rw [List.getElem?_modify,List.getElem?_set]
  split_ifs with hi hlt
  · subst hi
    rw [h]
    rfl
  · subst hi
    rw [List.getElem?_eq_none (by omega)]
    rfl
  · simp

end Vibesys.Library
