import Mathlib.Data.List.Basic
import Mathlib.Algebra.Group.Nat.Defs
import Mathlib.Data.Nat.Basic

/-!
# Self-delimiting byte strings

A number in base 128 with a continuation bit, a byte string with its length before it, and a 32-bit number
in four bytes each say where they end, so what follows one can be told apart from it.
-/
namespace Vibesys.Library.Wire

abbrev Bytes := List UInt8

/-- A number in base 128, lowest digit first, each byte but the last with its top bit set. -/
def uvarint (n : ℕ) : Bytes :=
  if n < 128 then [n.toUInt8] else (n%128+128).toUInt8 :: uvarint (n/128)
termination_by n

theorem uvarint_of_lt {n : ℕ} (h : n < 128) : uvarint n = [n.toUInt8] := by
  rw [uvarint,if_pos h]

theorem uvarint_of_ge {n : ℕ} (h : 128 ≤ n) : uvarint n = (n%128+128).toUInt8 :: uvarint (n/128) := by
  rw [uvarint,if_neg (by omega)]

theorem toUInt8_inj {m n : ℕ} (hm : m < 256) (hn : n < 256) (h : m.toUInt8 = n.toUInt8) : m = n := by
  have hnat := congrArg UInt8.toNat h
  simpa [Nat.mod_eq_of_lt hm,Nat.mod_eq_of_lt hn] using hnat

theorem uvarint_append_inj {m n : ℕ} {a b : Bytes} (h : uvarint m ++ a = uvarint n ++ b) : m = n ∧ a = b := by
  induction m using Nat.strong_induction_on generalizing n with
  | h m ih =>
    by_cases hm : m < 128
    · rw [uvarint_of_lt hm] at h
      by_cases hn : n < 128
      · rw [uvarint_of_lt hn] at h
        obtain ⟨hmn,hab⟩ := List.cons.inj h
        exact ⟨toUInt8_inj (by omega) (by omega) hmn,hab⟩
      · rw [uvarint_of_ge (by omega)] at h
        have := toUInt8_inj (by omega) (by omega) (List.cons.inj h).1
        omega
    · rw [uvarint_of_ge (by omega)] at h
      by_cases hn : n < 128
      · rw [uvarint_of_lt hn] at h
        have := toUInt8_inj (by omega) (by omega) (List.cons.inj h).1
        omega
      · rw [uvarint_of_ge (n := n) (by omega)] at h
        obtain ⟨hdigit,hrest⟩ := List.cons.inj h
        obtain ⟨hquot,hab⟩ := ih (m/128) (by omega) hrest
        have := toUInt8_inj (by omega) (by omega) hdigit
        exact ⟨by omega,hab⟩

/-- A byte string with its length before it. -/
def framed (s : Bytes) : Bytes := uvarint s.length ++ s

theorem framed_append_inj {s s' a b : Bytes} (h : framed s ++ a = framed s' ++ b) : s = s' ∧ a = b := by
  unfold framed at h
  rw [List.append_assoc,List.append_assoc] at h
  obtain ⟨hlength,hrest⟩ := uvarint_append_inj h
  exact List.append_inj hrest hlength

theorem framed_ne_nil (s : Bytes) : framed s ≠ [] := by
  intro h
  have hnil := (List.append_eq_nil_iff.mp h).1
  rw [uvarint] at hnil
  split_ifs at hnil

theorem frames_inj {l l' : List Bytes} (h : l.flatMap framed = l'.flatMap framed) : l = l' := by
  induction l generalizing l' with
  | nil =>
    cases l' with
    | nil => rfl
    | cons s' l' =>
      rw [List.flatMap_nil,List.flatMap_cons] at h
      exact absurd (List.append_eq_nil_iff.mp h.symm).1 (framed_ne_nil s')
  | cons s l ih =>
    cases l' with
    | nil =>
      rw [List.flatMap_nil,List.flatMap_cons] at h
      exact absurd (List.append_eq_nil_iff.mp h).1 (framed_ne_nil s)
    | cons s' l' =>
      rw [List.flatMap_cons,List.flatMap_cons] at h
      obtain ⟨rfl,hrest⟩ := framed_append_inj h
      rw [ih hrest]

def be32 (n : UInt32) : Bytes :=
  [(n.toNat/2^24).toUInt8,(n.toNat/2^16%256).toUInt8,(n.toNat/2^8%256).toUInt8,(n.toNat%256).toUInt8]

theorem be32_append_inj {m n : UInt32} {a b : Bytes} (h : be32 m ++ a = be32 n ++ b) : m = n ∧ a = b := by
  have hm := m.toNat_lt
  have hn := n.toNat_lt
  simp only [be32,List.cons_append,List.nil_append,List.cons.injEq] at h
  obtain ⟨h3,h2,h1,h0,hab⟩ := h
  have h3' := toUInt8_inj (by omega) (by omega) h3
  have h2' := toUInt8_inj (by omega) (by omega) h2
  have h1' := toUInt8_inj (by omega) (by omega) h1
  have h0' := toUInt8_inj (by omega) (by omega) h0
  exact ⟨UInt32.toNat_inj.mp (by omega),hab⟩

theorem pairs_inj {α : Type*} {l l' : List (α × α)} (h : l.flatMap (fun p => [p.1,p.2]) = l'.flatMap fun p => [p.1,p.2]) :
    l = l' := by
  induction l generalizing l' with
  | nil =>
    cases l' with
    | nil => rfl
    | cons p l' => simp at h
  | cons p l ih =>
    cases l' with
    | nil => simp at h
    | cons p' l' =>
      simp only [List.flatMap_cons,List.cons_append,List.nil_append,List.cons.injEq] at h
      obtain ⟨h1,h2,hrest⟩ := h
      rw [Prod.ext h1 h2,ih hrest]

end Vibesys.Library.Wire
