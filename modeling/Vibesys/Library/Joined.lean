import Mathlib.Data.List.TakeWhile

/-!
# Joined encodings

Fields whose encodings end themselves can be joined without separators, and so can blocks of fields that each begin
with a field of a kind no other of its fields has: what was joined can be read back in one way.
-/
namespace Vibesys.Library

variable {φ β : Type*}

/-- No encoding is empty, and where one ends is seen from its start. -/
structure SelfDelimiting (enc : φ → List β) : Prop where
  nonempty : ∀ f, enc f ≠ []
  split : ∀ f g s t, enc f ++ s = enc g ++ t → f = g ∧ s = t

theorem SelfDelimiting.flatMap_injective {enc : φ → List β} (h : SelfDelimiting enc) {fs gs : List φ}
    (heq : fs.flatMap enc = gs.flatMap enc) : fs = gs := by
  induction fs generalizing gs with
  | nil =>
    cases gs with
    | nil => rfl
    | cons g gs =>
      rw [List.flatMap_nil,List.flatMap_cons] at heq
      exact absurd (List.append_eq_nil_iff.mp heq.symm).1 (h.nonempty g)
  | cons f fs ih =>
    cases gs with
    | nil =>
      rw [List.flatMap_nil,List.flatMap_cons] at heq
      exact absurd (List.append_eq_nil_iff.mp heq).1 (h.nonempty f)
    | cons g gs =>
      rw [List.flatMap_cons,List.flatMap_cons] at heq
      obtain ⟨rfl,hrest⟩ := h.split f g _ _ heq
      rw [ih hrest]

/-- The first field of a block is the only one of its kind. -/
structure Block (head : φ → Bool) (fs : List φ) : Prop where
  first : ∃ f, fs.head? = some f ∧ head f = true
  rest : ∀ f ∈ fs.tail, head f = false

variable {head : φ → Bool}

theorem takeWhile_append_flatten {rest : List φ} {blocks : List (List φ)} (hrest : ∀ f ∈ rest, head f = false)
    (hblocks : ∀ b ∈ blocks, Block head b) : (rest ++ blocks.flatten).takeWhile (fun f => !head f) = rest := by
  have hnone : blocks.flatten.takeWhile (fun f => !head f) = [] := by
    cases blocks with
    | nil => rfl
    | cons b blocks =>
      obtain ⟨f,hf,hhead⟩ := (hblocks b List.mem_cons_self).first
      obtain ⟨fs,rfl⟩ := List.head?_eq_some_iff.mp hf
      rw [List.flatten_cons,List.cons_append,List.takeWhile_cons_of_neg (by simp [hhead])]
  rw [List.takeWhile_append_of_pos fun f hf => by rw [hrest f hf]; rfl,hnone,List.append_nil]

theorem Block.flatten_injective {bs cs : List (List φ)} (hbs : ∀ b ∈ bs, Block head b) (hcs : ∀ c ∈ cs, Block head c)
    (heq : bs.flatten = cs.flatten) : bs = cs := by
  induction bs generalizing cs with
  | nil =>
    cases cs with
    | nil => rfl
    | cons c cs =>
      obtain ⟨f,hf,-⟩ := (hcs c List.mem_cons_self).first
      obtain ⟨fs,rfl⟩ := List.head?_eq_some_iff.mp hf
      cases heq
  | cons b bs ih =>
    have hb := hbs b List.mem_cons_self
    obtain ⟨f,hf,-⟩ := hb.first
    obtain ⟨fs,rfl⟩ := List.head?_eq_some_iff.mp hf
    cases cs with
    | nil => cases heq
    | cons c cs =>
      have hc := hcs c List.mem_cons_self
      obtain ⟨g,hg,-⟩ := hc.first
      obtain ⟨gs,rfl⟩ := List.head?_eq_some_iff.mp hg
      rw [List.flatten_cons,List.flatten_cons,List.cons_append,List.cons_append] at heq
      obtain ⟨rfl,hrest⟩ := List.cons.inj heq
      have hbs' : ∀ b ∈ bs, Block head b := fun b hb => hbs b (List.mem_cons_of_mem _ hb)
      have hcs' : ∀ c ∈ cs, Block head c := fun c hc => hcs c (List.mem_cons_of_mem _ hc)
      -- the other fields of the block go up to the next first field
      have hfields : fs = gs := by
        have hfs : (fs ++ bs.flatten).takeWhile (fun f => !head f) = fs := takeWhile_append_flatten hb.rest hbs'
        have hgs : (gs ++ cs.flatten).takeWhile (fun f => !head f) = gs := takeWhile_append_flatten hc.rest hcs'
        rw [← hfs,hrest,hgs]
      subst hfields
      rw [ih hbs' hcs' (List.append_cancel_left hrest)]

end Vibesys.Library
