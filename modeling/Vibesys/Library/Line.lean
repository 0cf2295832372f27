import Mathlib.Data.List.Nodup
import Mathlib.Order.Lattice

/-!
# Lines

Whoever enters a line draws the next ticket, whoever is served is taken from its front, and some may leave
before that. Tickets tell two entries apart that look alike.
-/
namespace Vibesys.Library

structure Line (α : Type*) where
  next : ℕ := 0
  waiting : List (ℕ × α) := []
  served : List (ℕ × α) := []
  left : List (ℕ × α) := []

namespace Line

variable {α : Type*} {l : Line α}

def enter (l : Line α) (a : α) : Line α := { l with next := l.next+1, waiting := l.waiting ++ [(l.next,a)] }

def leave (l : Line α) (p : α → Bool) : Line α :=
  { l with waiting := l.waiting.filter fun e => !p e.2, left := l.left ++ l.waiting.filter fun e => p e.2 }

def serve (l : Line α) (n : ℕ) : Line α :=
  { l with waiting := l.waiting.drop n, served := l.served ++ l.waiting.take n }

/-- Those served and then those waiting are in the order of their tickets, and whoever left is not among them. -/
structure Ordered (l : Line α) : Prop where
  sorted : ((l.served ++ l.waiting).map Prod.fst).Pairwise (· < ·)
  below : ∀ e ∈ l.served ++ l.waiting ++ l.left, e.1 < l.next
  apart : ∀ e ∈ l.left, ∀ f ∈ l.served ++ l.waiting, e.1 ≠ f.1

namespace Ordered

theorem start : ({} : Line α).Ordered where
  sorted := List.Pairwise.nil
  below := by simp
  apart := by simp

theorem enter (h : l.Ordered) (a : α) : (l.enter a).Ordered where
  sorted := by
    rw [Line.enter,← List.append_assoc,List.map_append,List.pairwise_append]
    refine ⟨h.sorted,List.pairwise_singleton _ _,?_⟩
    intro t ht u hu
    obtain ⟨e,he,rfl⟩ := List.mem_map.mp ht
    obtain rfl : u = l.next := by simpa using hu
    exact h.below e (List.mem_append_left _ he)
  below e he := by
    have hcases : e ∈ l.served ++ l.waiting ++ l.left ∨ e = (l.next,a) := by
      simp only [Line.enter,List.mem_append,List.mem_singleton] at he ⊢
      tauto
    rcases hcases with he | rfl
    · exact (h.below e he).trans (Nat.lt_succ_self _)
    · exact Nat.lt_succ_self _
  apart e he f hf := by
    rw [Line.enter,← List.append_assoc] at hf
    rcases List.mem_append.mp hf with hf | hf
    · exact h.apart e he f hf
    · rw [List.mem_singleton.mp hf]
      exact (h.below e (List.mem_append_right _ he)).ne

theorem leave (h : l.Ordered) (p : α → Bool) : (l.leave p).Ordered where
  sorted := h.sorted.sublist (((List.Sublist.refl l.served).append List.filter_sublist).map _)
  below e he := by
    refine h.below e ?_
    simp only [Line.leave,List.mem_append,List.mem_filter] at he ⊢
    tauto
  apart e he f hf := by
    have hf' : f ∈ l.served ++ l.waiting := by
      simp only [Line.leave,List.mem_append,List.mem_filter] at hf ⊢
      tauto
    rcases List.mem_append.mp he with he | he
    · exact h.apart e he f hf'
    · -- Tickets are drawn once, so one who leaves has no ticket of one who stays.
      obtain ⟨hin,hp⟩ := List.mem_filter.mp he
      intro heq
      have hinj := List.inj_on_of_nodup_map (h.sorted.imp ne_of_lt) (List.mem_append_right l.served hin) hf' heq
      subst hinj
      rcases List.mem_append.mp hf with hs | hw
      · have hdisjoint := (List.pairwise_append.mp (List.map_append ▸ h.sorted)).2.2
        exact lt_irrefl _ (hdisjoint e.1 (List.mem_map_of_mem hs) e.1 (List.mem_map_of_mem hin))
      · have := (List.mem_filter.mp hw).2
        simp [hp] at this

theorem serve (h : l.Ordered) (n : ℕ) : (l.serve n).Ordered := by
  have hsame : (l.serve n).served ++ (l.serve n).waiting = l.served ++ l.waiting := by
    simp [Line.serve]
  refine ⟨?_,?_,?_⟩
  · rw [hsame]
    exact h.sorted
  · rw [hsame]
    exact h.below
  · rw [hsame]
    exact h.apart

end Ordered
end Line
end Vibesys.Library
