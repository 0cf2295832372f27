import Mathlib.Algebra.Order.Field.Rat
import Mathlib.Data.UInt
import Vibesys.Orchestrator.Vocabulary

/-!
# Usages add up

A figure that neither side reports stays missing, and counts of tokens wrap. So usages are a commutative monoid, whose
zero reports nothing.
-/
namespace Vibesys.Orchestrator

namespace Usage

variable {α : Type}

@[simp] theorem sum_none_left [Add α] (a : Option α) : sum none a = a := by cases a <;> rfl

@[simp] theorem sum_none_right [Add α] (a : Option α) : sum a none = a := by cases a <;> rfl

@[simp] theorem sum_some_some [Add α] (a b : α) : sum (some a) (some b) = some (a+b) := rfl

theorem sum_comm [AddCommMonoid α] (a b : Option α) : sum a b = sum b a := by
  cases a <;> cases b <;> simp [add_comm]

theorem sum_assoc [AddCommMonoid α] (a b c : Option α) : sum (sum a b) c = sum a (sum b c) := by
  cases a <;> cases b <;> cases c <;> simp [add_assoc]

theorem getD_sum [AddCommMonoid α] (a b : Option α) : (sum a b).getD 0 = a.getD 0+b.getD 0 := by
  cases a <;> cases b <;> simp

instance : Add Usage := ⟨Plus⟩

instance : Zero Usage := ⟨{}⟩

theorem add_def (u o : Usage) : u+o = u.Plus o := rfl

theorem zero_def : (0 : Usage) = {} := rfl

instance : AddCommMonoid Usage where
  add_assoc a b c := by simp only [add_def,Plus,sum_assoc]
  zero_add a := by simp only [add_def,zero_def,Plus,sum_none_left]
  add_zero a := by simp only [add_def,zero_def,Plus,sum_none_right]
  add_comm a b := by
    simp only [add_def,Plus]
    rw [sum_comm a.inputTokens,sum_comm a.cacheReadTokens,sum_comm a.cacheCreationTokens,sum_comm a.outputTokens,
      sum_comm a.reasoningTokens,sum_comm a.costUSD]
  nsmul := nsmulRec

end Usage

end Vibesys.Orchestrator
