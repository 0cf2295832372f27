import Mathlib.Algebra.Order.Group.Int
import Mathlib.Data.List.Perm.Basic

/-!
# Orders of a history

An operation lasts from its call to its return. An order of operations respects real time if none stands before one
that had returned when it was called. A model accepts a history if it can step through such an order of it.
-/
namespace Vibesys.Library

variable {α β σ : Type*}

def RealTime (call ret : α → ℤ) (order : List α) : Prop := order.Pairwise fun a b => ¬ret b < call a

def Accepts (call ret : α → ℤ) (step : σ → α → Option σ) (init : σ) (ops : List α) : Prop :=
  ∃ order, order.Perm ops ∧ RealTime call ret order ∧ (order.foldlM step init).isSome

theorem exists_perm_of_perm_map {f : α → β} {l : List β} {m : List α} (h : l.Perm (m.map f)) :
    ∃ l' : List α, l'.Perm m ∧ l'.map f = l := by
  induction l generalizing m with
  | nil =>
    have hm : m = [] := List.map_eq_nil_iff.mp (List.nil_perm.mp h)
    exact ⟨[],hm ▸ List.Perm.refl _,rfl⟩
  | cons x l ih =>
    obtain ⟨a,ha,rfl⟩ := List.mem_map.mp (h.subset List.mem_cons_self)
    obtain ⟨m₁,m₂,rfl⟩ := List.append_of_mem ha
    have hmid : (m₁ ++ a :: m₂).Perm (a :: (m₁ ++ m₂)) := List.perm_middle
    obtain ⟨l',hl',rfl⟩ := ih ((h.trans (hmid.map f)).cons_inv)
    exact ⟨a :: l',(hl'.cons a).trans hmid.symm,rfl⟩

theorem exists_perm_of_perm_filterMap {f : α → Option β} {l : List β} {m : List α} (h : l.Perm (m.filterMap f)) :
    ∃ m' : List α, m'.Perm m ∧ m'.filterMap f = l := by
  induction l generalizing m with
  | nil => exact ⟨m,List.Perm.refl _,List.nil_perm.mp h⟩
  | cons x l ih =>
    obtain ⟨a,ha,hx⟩ := List.mem_filterMap.mp (h.subset List.mem_cons_self)
    obtain ⟨m₁,m₂,rfl⟩ := List.append_of_mem ha
    have hmid : (m₁ ++ a :: m₂).Perm (a :: (m₁ ++ m₂)) := List.perm_middle
    have hrest := h.trans (hmid.filterMap f)
    rw [List.filterMap_cons_some hx] at hrest
    obtain ⟨m',hm',rfl⟩ := ih hrest.cons_inv
    exact ⟨a :: m',(hm'.cons a).trans hmid.symm,List.filterMap_cons_some hx⟩

theorem accepts_map {call ret : β → ℤ} {step : σ → β → Option σ} {init : σ} {f : α → β} {ops : List α} :
    Accepts call ret step init (ops.map f) ↔
      Accepts (fun a => call (f a)) (fun a => ret (f a)) (fun s a => step s (f a)) init ops := by
  constructor
  · rintro ⟨order,hperm,hreal,hsome⟩
    obtain ⟨order',hperm',rfl⟩ := exists_perm_of_perm_map hperm
    refine ⟨order',hperm',List.pairwise_map.mp hreal,?_⟩
    rwa [List.foldlM_map] at hsome
  · rintro ⟨order,hperm,hreal,hsome⟩
    refine ⟨order.map f,hperm.map f,List.pairwise_map.mpr hreal,?_⟩
    rwa [List.foldlM_map]

/-- If each of two operations has a part in the order, and the parts last as the operations do, the operations follow
each other as their parts do. -/
theorem RealTime.flatMap {call ret : α → ℤ} {call' ret' : β → ℤ} {parts : α → List β} {order : List α}
    (h : RealTime call ret order) (hvalid : ∀ a ∈ order, call a ≤ ret a)
    (hparts : ∀ a ∈ order, ∀ b ∈ parts a, call' b = call a ∧ ret' b = ret a) :
    RealTime call' ret' (order.flatMap parts) := by
  refine List.pairwise_flatMap.mpr ⟨fun a ha => ?_,?_⟩
  · refine List.pairwise_of_forall_mem_list fun x hx y hy => ?_
    rw [(hparts a ha x hx).1,(hparts a ha y hy).2]
    exact not_lt.mpr (hvalid a ha)
  · refine List.Pairwise.imp_of_mem (fun {a b} ha hb hab x hx y hy => ?_) h
    rw [(hparts a ha x hx).1,(hparts b hb y hy).2]
    exact hab

theorem countP_flatMap_eq {p : β → Bool} {c : α → Bool} {parts : α → List β} {l : List α}
    (h : ∀ a ∈ l, (parts a).countP p = if c a then 1 else 0) : (l.flatMap parts).countP p = l.countP c := by
  induction l with
  | nil => rfl
  | cons a l ih =>
    rw [List.flatMap_cons,List.countP_append,List.countP_cons,h a List.mem_cons_self,
      ih fun b hb => h b (List.mem_cons_of_mem _ hb),Nat.add_comm]

end Vibesys.Library
