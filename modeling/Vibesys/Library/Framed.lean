import Mathlib.Data.List.Infix
import Mathlib.Data.List.Flatten

/-!
# Logs of self-delimiting frames

Records are written one after the other as frames that say where they end. A log that is cut anywhere is whole
frames and a torn one, and a reader finds exactly the records of the whole frames in it.
-/
namespace Vibesys.Library

/-- What a reader finds at the front of a log. -/
inductive Found (ρ α : Type*)
  | ended
  | torn
  | corrupt (why : String)
  | got (r : ρ) (rest : List α)

/-- How records are written and read. The laws are about the records that may be written. -/
structure Framing (ρ α : Type*) where
  Ok : ρ → Prop
  frame : ρ → List α
  read : List α → Found ρ α
  frame_ne_nil : ∀ {r}, Ok r → frame r ≠ []
  read_nil : read [] = .ended
  read_frame : ∀ {r}, Ok r → ∀ rest, read (frame r ++ rest) = .got r rest
  read_torn : ∀ {r t}, Ok r → t <+: frame r → t ≠ frame r → t ≠ [] → read t = .torn

inductive Stop
  | ended
  | torn
  | corrupt (why : String)
  deriving DecidableEq

/-- The records read, why the reader stopped, and where. -/
structure Scan (ρ : Type*) where
  records : List ρ
  stop : Stop
  offset : ℕ

namespace Framing

variable {ρ α : Type*} (F : Framing ρ α)

/-- Reads on from an offset. Every frame has a symbol, so that as many rounds as there are symbols and one more are
enough. -/
def scan : ℕ → ℕ → List α → Scan ρ
  | 0, offset, _ => ⟨[],.ended,offset⟩
  | fuel+1, offset, l =>
    match F.read l with
    | .ended => ⟨[],.ended,offset⟩
    | .torn => ⟨[],.torn,offset⟩
    | .corrupt why => ⟨[],.corrupt why,offset⟩
    | .got r rest =>
      let s := scan fuel (offset+(l.length-rest.length)) rest
      { s with records := r :: s.records }

def frames (rs : List ρ) : List α := rs.flatMap F.frame

/-- What is left of a frame that was not written whole. -/
def Torn (t : List α) : Prop := t = [] ∨ ∃ r, F.Ok r ∧ t <+: F.frame r ∧ t ≠ F.frame r

variable {F} {r : ρ} {rs : List ρ} {t : List α}

@[simp] theorem frames_nil : F.frames [] = [] := rfl

theorem frames_cons (r : ρ) (rs : List ρ) : F.frames (r :: rs) = F.frame r ++ F.frames rs := List.flatMap_cons

theorem frames_append (rs rs' : List ρ) : F.frames (rs ++ rs') = F.frames rs ++ F.frames rs' := List.flatMap_append

theorem frames_concat (rs : List ρ) (r : ρ) : F.frames (rs ++ [r]) = F.frames rs ++ F.frame r := by
  rw [frames_append,frames_cons,frames_nil,List.append_nil]

theorem torn_nil : F.Torn [] := .inl rfl

theorem torn_take (h : F.Ok r) {n : ℕ} (hn : n < (F.frame r).length) : F.Torn ((F.frame r).take n) := by
  refine .inr ⟨r,h,List.take_prefix _ _,fun heq => ?_⟩
  have hlength := congrArg List.length heq
  rw [List.length_take] at hlength
  omega

theorem Torn.take (h : F.Torn t) (n : ℕ) : F.Torn (t.take n) := by
  rcases h with rfl | ⟨r,hr,ht,hne⟩
  · exact .inl List.take_nil
  · refine .inr ⟨r,hr,(List.take_prefix _ _).trans ht,fun heq => hne (ht.eq_of_length_le ?_)⟩
    rw [← heq]
    exact (List.take_prefix n t).length_le

theorem length_frames_take_le (k : ℕ) : (F.frames (rs.take k)).length ≤ (F.frames rs).length := by
  conv_rhs => rw [← List.take_append_drop k rs,frames_append,List.length_append]
  exact Nat.le_add_right _ _

/-- A reader finds the records of the whole frames, and stops at the torn one. -/
theorem scan_frames (hrs : ∀ r ∈ rs, F.Ok r) (ht : F.Torn t) {fuel : ℕ} (hfuel : rs.length < fuel) (offset : ℕ) :
    (F.scan fuel offset (F.frames rs ++ t)).records = rs ∧
      (F.scan fuel offset (F.frames rs ++ t)).offset = offset+(F.frames rs).length ∧
      ((F.scan fuel offset (F.frames rs ++ t)).stop = .ended ∧ t = [] ∨
        (F.scan fuel offset (F.frames rs ++ t)).stop = .torn) := by
  induction rs generalizing fuel offset with
  | nil =>
    obtain ⟨fuel,rfl⟩ := Nat.exists_eq_add_of_lt hfuel
    rw [frames_nil,List.nil_append]
    by_cases hnil : t = []
    · subst hnil
      simp [scan,F.read_nil]
    · rcases ht with rfl | ⟨r,hr,hpre,hne⟩
      · exact absurd rfl hnil
      · simp [scan,F.read_torn hr hpre hne hnil]
  | cons r rs ih =>
    cases fuel with
    | zero => omega
    | succ fuel =>
      have hr := hrs r List.mem_cons_self
      obtain ⟨hrecords,hoffset,hstop⟩ := ih (fun r' hr' => hrs r' (List.mem_cons_of_mem _ hr')) (Nat.lt_of_succ_lt_succ hfuel)
        (offset+((F.frame r ++ (F.frames rs ++ t)).length-(F.frames rs ++ t).length))
      rw [frames_cons,List.append_assoc]
      simp only [scan,F.read_frame hr]
      refine ⟨by rw [hrecords],?_,hstop⟩
      rw [hoffset]
      simp only [List.length_append]
      omega

/-- A log cut anywhere keeps the whole frames before the cut. -/
theorem take_frames (hrs : ∀ r ∈ rs, F.Ok r) (ht : F.Torn t) (n : ℕ) :
    ∃ m t', m ≤ rs.length ∧ (F.frames rs ++ t).take n = F.frames (rs.take m) ++ t' ∧ F.Torn t' ∧
      ∀ k ≤ rs.length, (F.frames (rs.take k)).length ≤ n → k ≤ m := by
  induction rs generalizing n with
  | nil => exact ⟨0,t.take n,le_rfl,by simp,ht.take n,fun k hk _ => hk⟩
  | cons r rs ih =>
    have hr := hrs r List.mem_cons_self
    rw [frames_cons,List.append_assoc]
    by_cases hn : n < (F.frame r).length
    · -- the cut is within the first frame
      refine ⟨0,(F.frame r).take n,Nat.zero_le _,?_,torn_take hr hn,fun k _ hlength => ?_⟩
      · rw [List.take_append_of_le_length hn.le]
        simp
      · cases k with
        | zero => exact le_rfl
        | succ k =>
          rw [List.take_succ_cons,frames_cons,List.length_append] at hlength
          omega
    · obtain ⟨m,t',hm,heq,ht',hlast⟩ := ih (fun r' hr' => hrs r' (List.mem_cons_of_mem _ hr')) (n-(F.frame r).length)
      refine ⟨m+1,t',Nat.succ_le_succ hm,?_,ht',fun k hk hlength => ?_⟩
      · rw [List.take_append,heq,List.take_of_length_le (not_lt.mp hn),List.take_succ_cons,frames_cons,List.append_assoc]
      · cases k with
        | zero => exact Nat.zero_le _
        | succ k =>
          rw [List.take_succ_cons,frames_cons,List.length_append] at hlength
          refine Nat.succ_le_succ (hlast k (Nat.le_of_succ_le_succ hk) ?_)
          omega

end Framing
end Vibesys.Library
