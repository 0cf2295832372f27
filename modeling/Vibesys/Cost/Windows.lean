import Mathlib.Tactic.Linarith
import Vibesys.Cost.Views

/-!
# The buckets of a series

A series has one bucket, or a width of at least two that cuts the span in at most 48 buckets. The sum of a 64-bit span
and its width can exceed the largest integer; the series then has one bucket. A turn is in the bucket its end falls in.
-/
namespace Vibesys.Cost

open Library
open Vibesys.Core (Time)
open Orchestrator (AgentRole Usage)

/-! ## The width -/

theorem tdiv_nonpos_of_nonpos_of_nonneg {a b : ℤ} (ha : a ≤ 0) (hb : 0 ≤ b) : a.tdiv b ≤ 0 := by
  have hneg : (-a).tdiv b = -a.tdiv b := Int.neg_tdiv a b
  have hnonneg : 0 ≤ (-a).tdiv b := Int.tdiv_nonneg (by omega) hb
  omega

theorem tdiv_nonpos_of_nonneg_of_nonpos {a b : ℤ} (ha : 0 ≤ a) (hb : b ≤ 0) : a.tdiv b ≤ 0 := by
  have hneg : a.tdiv (-b) = -a.tdiv b := Int.tdiv_neg a b
  have hnonneg : 0 ≤ a.tdiv (-b) := Int.tdiv_nonneg ha (by omega)
  omega

/-- A width that cuts the span, without the sums of the source wrapping. -/
structure Cuts (span width : ℤ) : Prop where
  wide : 2 ≤ width
  fits : span+width ≤ 2^63
  most : span ≤ 48*width

theorem ladder_bounds {w : ℤ} (h : w ∈ ladder) : 2 ≤ w ∧ w ≤ beyondLadder := by
  have hall : ∀ w ∈ ladder, 2 ≤ w ∧ w ≤ beyondLadder := by decide
  exact hall w h

theorem cuts_or_none {span : ℤ} (h : 0 ≤ span) (h' : span < 2^63) :
    Cuts span (WidthFor span) ∨ (wrap (span+WidthFor span-1)).tdiv (WidthFor span) ≤ 0 := by
  have hweek : beyondLadder = 604800000000000 := by decide
  have hmax : MaxBuckets = 48 := rfl
  unfold WidthFor
  cases hfind : ladder.find? fun w => decide (span ≤ w*MaxBuckets) with
  | some w =>
    obtain ⟨hlow,hhigh⟩ := ladder_bounds (List.mem_of_find?_eq_some hfind)
    have hspan : span ≤ w*MaxBuckets := by simpa using List.find?_some hfind
    rw [hmax] at hspan
    rw [hweek] at hhigh
    exact Or.inl ⟨hlow,by dsimp only; omega,by dsimp only; omega⟩
  | none =>
    have hlong : ¬ span ≤ beyondLadder*MaxBuckets := by
      have hnone := List.find?_eq_none.mp hfind beyondLadder (by decide)
      simpa using hnone
    rw [hweek,hmax] at hlong
    dsimp only
    rw [hweek,hmax]
    rcases lt_or_ge (span+48*604800000000000-1) (2^63) with hfits | hover
    · -- the number of weeks is rounded up
      rw [wrap_of_fits (by omega) hfits,Int.tdiv_eq_ediv_of_nonneg (by omega)]
      generalize hweeks : (span+48*604800000000000-1)/(48*604800000000000) = weeks
      have hceil : span ≤ 48*(weeks*604800000000000) ∧ 1 ≤ weeks ∧ weeks*604800000000000 < 2^63 := by omega
      rw [wrap_of_fits (by omega) hceil.2.2]
      rcases lt_or_ge (span+weeks*604800000000000-1) (2^63) with hsum | hsum
      · exact Or.inl ⟨by omega,by omega,hceil.1⟩
      · right
        have hwrapped : wrap (span+weeks*604800000000000-1) = span+weeks*604800000000000-1-2^64 := by
          unfold wrap
          omega
        rw [hwrapped]
        exact tdiv_nonpos_of_nonpos_of_nonneg (by omega) (by omega)
    · -- the sum wraps, and the width is negative
      have hwrapped : wrap (span+48*604800000000000-1) = span+48*604800000000000-1-2^64 := by
        unfold wrap
        omega
      rw [hwrapped]
      have hneg : (span+48*604800000000000-1-2^64).tdiv (48*604800000000000) = -((2^64-(span+48*604800000000000-1))/(48*604800000000000)) := by
        rw [← Int.tdiv_eq_ediv_of_nonneg (by omega),← Int.neg_tdiv]
        congr 1
        omega
      rw [hneg]
      generalize hweeks : (2^64-(span+48*604800000000000-1))/(48*604800000000000) = weeks
      have hbounds : 300 ≤ weeks ∧ weeks ≤ 320 := by omega
      right
      rw [wrap_of_fits (n := -weeks*604800000000000) (by omega) (by omega),wrap_of_fits (by omega) (by omega)]
      exact tdiv_nonpos_of_nonneg_of_nonpos (by omega) (by omega)

theorem bucketCount_cases {span : ℤ} (h : 0 ≤ span) (h' : span < 2^63) :
    bucketCount span = 1 ∨ Cuts span (WidthFor span) ∧ 2 ≤ bucketCount span ∧ bucketCount span ≤ 48 ∧
      ((bucketCount span : ℤ)-1)*WidthFor span < span := by
  rcases cuts_or_none h h' with hcuts | hnone
  · have hwidth := hcuts.wide
    have hfits := hcuts.fits
    have hmost := hcuts.most
    have hcount : bucketCount span = (max 1 ((span+WidthFor span-1)/WidthFor span)).toNat := by
      unfold bucketCount
      rw [wrap_of_fits (by omega) (by omega),Int.tdiv_eq_ediv_of_nonneg (by omega)]
    rw [hcount]
    generalize WidthFor span = width at *
    have hle : (span+width-1)/width ≤ 48 := by
      refine Int.lt_add_one_iff.mp (Int.ediv_lt_of_lt_mul (by omega) ?_)
      omega
    have hmul : (span+width-1)/width*width ≤ span+width-1 := Int.ediv_mul_le _ (by omega)
    generalize (span+width-1)/width = q at *
    rcases le_or_gt q 1 with hq | hq
    · left
      omega
    · right
      have hn : ((max 1 q).toNat : ℤ) = q := by omega
      refine ⟨hcuts,by omega,by omega,?_⟩
      rw [hn,sub_mul,one_mul]
      omega
  · left
    unfold bucketCount
    omega

theorem bucketCount_bounds {span : ℤ} (h : 0 ≤ span) (h' : span < 2^63) : 1 ≤ bucketCount span ∧ bucketCount span ≤ 48 := by
  rcases bucketCount_cases h h' with hone | ⟨-,hlow,hhigh,-⟩
  · omega
  · omega

/-! ## The bucket of a turn -/

/-- The end falls in the bucket, where the first and the last take what is before and after. -/
def InBucket (start width : ℤ) (n i : ℕ) (t : ℤ) : Prop :=
  (i = 0 ∨ start+i*width ≤ t) ∧ (i+1 = n ∨ t < start+(i+1)*width)

instance (start width : ℤ) (n i : ℕ) (t : ℤ) : Decidable (InBucket start width n i t) :=
  inferInstanceAs (Decidable (_ ∧ _))

theorem span_bounds {start asOf : ℤ} (h : start ≤ asOf) : 0 ≤ Sub asOf start ∧ Sub asOf start < 2^63 := by
  unfold Sub
  omega

theorem bucketOf_lt {start width : ℤ} {n : ℕ} {t : ℤ} (h : 0 < n) : bucketOf start width n t < n := by
  unfold bucketOf
  omega

theorem bucketOf_eq_iff {start asOf t : ℤ} {i : ℕ} (h : start ≤ asOf) (ht : t ≤ asOf) (hi : i < bucketCount (Sub asOf start)) :
    bucketOf start (WidthFor (Sub asOf start)) (bucketCount (Sub asOf start)) t = i ↔
      InBucket start (WidthFor (Sub asOf start)) (bucketCount (Sub asOf start)) i t := by
  obtain ⟨hnonneg,hlt⟩ := span_bounds h
  have hspan : Sub asOf start < 2^63-1 → t-start ≤ Sub asOf start := by
    unfold Sub
    omega
  rcases bucketCount_cases hnonneg hlt with hone | ⟨hcuts,hlow,-,-⟩
  · rw [hone] at hi ⊢
    obtain rfl : i = 0 := by omega
    refine ⟨fun _ => ⟨Or.inl rfl,Or.inl rfl⟩,fun _ => ?_⟩
    have hzero : bucketOf start (WidthFor (Sub asOf start)) 1 t < 1 := bucketOf_lt one_pos
    omega
  · have hwidth := hcuts.wide
    have hfits := hcuts.fits
    have hle := hspan (by omega)
    generalize WidthFor (Sub asOf start) = width at *
    generalize bucketCount (Sub asOf start) = n at *
    unfold bucketOf InBucket
    -- before the start the quotient is at most zero, and from it on it is the number of whole widths
    have hquotient : max ((Sub t start).tdiv width) 0 = max (t-start) 0/width := by
      rcases le_or_gt 0 (t-start) with hpos | hneg
      · have hsub : Sub t start = t-start := by
          unfold Sub
          omega
        rw [hsub,Int.tdiv_eq_ediv_of_nonneg hpos,max_eq_left hpos,max_eq_left (Int.ediv_nonneg hpos (by omega))]
      · have hsub : Sub t start ≤ 0 := by
          unfold Sub
          omega
        rw [max_eq_right (tdiv_nonpos_of_nonpos_of_nonneg hsub (by omega)),max_eq_right hneg.le,Int.zero_ediv]
    rw [hquotient]
    have hge : (i : ℤ) ≤ max (t-start) 0/width ↔ i = 0 ∨ start+i*width ≤ t := by
      rw [Int.le_ediv_iff_mul_le (by omega)]
      rcases Nat.eq_zero_or_pos i with rfl | hpos
      · simp
      · have hprod : 0 < (i : ℤ)*width := Int.mul_pos (by omega) (by omega)
        omega
    have hless : max (t-start) 0/width < (i : ℤ)+1 ↔ t < start+(i+1)*width := by
      rw [Int.ediv_lt_iff_lt_mul (by omega)]
      have hprod : 0 < ((i : ℤ)+1)*width := Int.mul_pos (by omega) (by omega)
      omega
    rw [← hge,← hless]
    have hq : 0 ≤ max (t-start) 0/width := Int.ediv_nonneg (le_max_right _ _) (by omega)
    generalize max (t-start) 0/width = q at hq ⊢
    omega

theorem start_of_bucket {start asOf : ℤ} {i : ℕ} (h : start ≤ asOf) (hi : i < bucketCount (Sub asOf start)) :
    wrap (i*WidthFor (Sub asOf start)) = i*WidthFor (Sub asOf start) := by
  obtain ⟨hnonneg,hlt⟩ := span_bounds h
  rcases bucketCount_cases hnonneg hlt with hone | ⟨hcuts,-,-,hlast⟩
  · obtain rfl : i = 0 := by omega
    rw [Nat.cast_zero,zero_mul]
    rfl
  · have hwidth := hcuts.wide
    have hle : (i : ℤ)*WidthFor (Sub asOf start) ≤ ((bucketCount (Sub asOf start) : ℤ)-1)*WidthFor (Sub asOf start) :=
      Int.mul_le_mul_of_nonneg_right (by omega) (by omega)
    have hpos : 0 ≤ (i : ℤ)*WidthFor (Sub asOf start) := Int.mul_nonneg (by omega) (by omega)
    exact wrap_of_fits (by omega) (by omega)

/-!
## The spend of a window

The turns of a window are those of its halves, so what they add up to is the sum, in total and for each type of agent.
-/

variable {rows rows' : List Row} {role : AgentRole}

def tallyOf (rows : List Row) (role : AgentRole) : Option Tally :=
  if role ∈ rows.map (rowGroup AgentInfo.role) then some (groupTally AgentInfo.role rows role) else none

theorem groupTally_of_not_mem (h : role ∉ rows.map (rowGroup AgentInfo.role)) : groupTally AgentInfo.role rows role = 0 := by
  have hnone : (rows.filter fun row => rowGroup AgentInfo.role row = role) = [] := by
    refine List.filter_eq_nil_iff.mpr fun row hrow hgroup => h ?_
    exact List.mem_map.mpr ⟨row,hrow,of_decide_eq_true hgroup⟩
  unfold groupTally groupSum
  rw [hnone]
  rfl

theorem tallyOf_cons (row : Row) (rows : List Row) :
    tallyOf (row :: rows) role = Usage.sum (if row.2.role = role then some (rowTally row) else none) (tallyOf rows role) := by
  have hsum : groupTally AgentInfo.role (row :: rows) role =
      (if row.2.role = role then rowTally row else 0)+groupTally AgentInfo.role rows role := groupSum_cons row rows role
  have hmem : role ∈ (row :: rows).map (rowGroup AgentInfo.role) ↔ row.2.role = role ∨ role ∈ rows.map (rowGroup AgentInfo.role) := by
    rw [List.map_cons,List.mem_cons,eq_comm]
    rfl
  unfold tallyOf
  rw [hsum]
  by_cases hrole : row.2.role = role
  · rw [if_pos hrole,if_pos hrole,if_pos (hmem.mpr (Or.inl hrole))]
    split
    · rw [Usage.sum_some_some]
    · rename_i habsent
      rw [groupTally_of_not_mem habsent,add_zero,Usage.sum_none_right]
  · rw [if_neg hrole,if_neg hrole,zero_add,Usage.sum_none_left]
    simp only [hmem,hrole,false_or]

theorem foldl_roleTallies (m : AgentRole → Option Tally) :
    (rows.foldl (fun (m : AgentRole → Option Tally) row =>
        Function.update m row.2.role (some (((m row.2.role).getD {}).add row.1.usage))) m) role =
      Usage.sum (m role) (tallyOf rows role) := by
  induction rows generalizing m with
  | nil => rw [List.foldl_nil,tallyOf,if_neg (by simp),Usage.sum_none_right]
  | cons row rows ih =>
    rw [List.foldl_cons,ih,tallyOf_cons,← Usage.sum_assoc]
    congr 1
    by_cases hrole : row.2.role = role
    · subst hrole
      rw [Function.update_self,if_pos rfl,Tally.add_eq]
      cases m row.2.role with
      | none => exact congrArg some (zero_add _)
      | some t => rfl
    · rw [Function.update_of_ne (Ne.symm hrole),if_neg hrole,Usage.sum_none_right]

theorem roleTallies_eq : roleTallies rows role = tallyOf rows role := by
  unfold roleTallies
  rw [foldl_roleTallies,Usage.sum_none_left]

theorem tallyOf_append (rows rows' : List Row) : tallyOf (rows ++ rows') role = Usage.sum (tallyOf rows role) (tallyOf rows' role) := by
  have hsplit : roleTallies (rows ++ rows') role = Usage.sum (roleTallies rows role) (tallyOf rows' role) := by
    unfold roleTallies
    rw [List.foldl_append,foldl_roleTallies]
  rw [roleTallies_eq,roleTallies_eq] at hsplit
  exact hsplit

theorem tallyOf_perm (h : rows.Perm rows') : tallyOf rows role = tallyOf rows' role := by
  have hsum : groupTally AgentInfo.role rows role = groupTally AgentInfo.role rows' role :=
    ((h.filter _).map rowTally).sum_eq
  unfold tallyOf
  rw [hsum]
  simp only [(h.map (rowGroup AgentInfo.role)).mem_iff]

/-! ## Windows -/

def Spend.of (s : Spend) (role : AgentRole) : Option Tally := (s.roles.find? fun r => r.role = role).map RoleSpend.tally

def windowRows (rows : List Row) (from_ until_ : Time) : List Row :=
  rows.filter fun row => !(decide (row.1.end_ < from_) || !decide (row.1.end_ < until_))

theorem mem_allRoles (role : AgentRole) : role ∈ allRoles := by cases role <;> decide

theorem find?_filterMap {m : AgentRole → Option Tally} (order : List AgentRole) :
    ((order.filterMap fun role => (m role).map fun t => (⟨role,t⟩ : RoleSpend)).find? fun r => r.role = role).map RoleSpend.tally =
      if role ∈ order then m role else none := by
  induction order with
  | nil => rfl
  | cons role' order ih =>
    rw [List.filterMap_cons]
    cases hm : m role' with
    | none =>
      rw [Option.map_none,ih]
      by_cases hrole : role = role'
      · subst hrole
        rw [if_pos List.mem_cons_self,hm]
        split <;> rfl
      · simp only [List.mem_cons,hrole,false_or]
    | some t =>
      rw [Option.map_some]
      dsimp only
      by_cases hrole : role' = role
      · subst hrole
        rw [List.find?_cons_of_pos (by simp),if_pos List.mem_cons_self,hm]
        rfl
      · rw [List.find?_cons_of_neg (by simpa using hrole),ih]
        simp only [List.mem_cons,Ne.symm hrole,false_or]

theorem spend_eq {l : Ledger} (hrows : l.rows = some rows) (from_ until_ : Time) :
    ∃ s, l.spend from_ until_ = some s ∧ s.tally = ((windowRows rows from_ until_).map rowTally).sum ∧
      ∀ role, s.of role = tallyOf (windowRows rows from_ until_) role := by
  unfold Ledger.spend
  rw [hrows]
  refine ⟨_,rfl,?_,fun role => ?_⟩
  · show (windowRows rows from_ until_).foldl _ _ = _
    rw [foldl_add]
    exact zero_add _
  · unfold Spend.of
    rw [find?_filterMap]
    change (if role ∈ (allRoles.filter fun role => (roleTallies (windowRows rows from_ until_) role).isSome).insertionSort _ then
      roleTallies (windowRows rows from_ until_) role else none) = _
    simp only [List.mem_insertionSort,List.mem_filter,roleTallies_eq]
    cases htally : tallyOf (windowRows rows from_ until_) role with
    | none => rw [ite_self]
    | some t => rw [if_pos ⟨mem_allRoles role,rfl⟩]

theorem windowRows_perm {a b c : Time} (hab : a ≤ b) (hbc : b ≤ c) :
    (windowRows rows a c).Perm (windowRows rows a b ++ windowRows rows b c) := by
  have hperm := List.filter_append_perm (fun row : Row => decide (row.1.end_ < b)) (windowRows rows a c)
  unfold windowRows at hperm ⊢
  rw [List.filter_filter,List.filter_filter] at hperm
  have hleft : (fun row : Row => decide (row.1.end_ < b) && !(decide (row.1.end_ < a) || !decide (row.1.end_ < c))) =
      fun row => !(decide (row.1.end_ < a) || !decide (row.1.end_ < b)) := by
    funext row
    rw [Bool.eq_iff_iff]
    simp only [Bool.and_eq_true,Bool.not_eq_true',Bool.or_eq_false_iff,Bool.not_eq_false',decide_eq_true_eq,decide_eq_false_iff_not]
    exact ⟨fun h => ⟨h.2.1,h.1⟩,fun h => ⟨h.2,h.1,h.2.trans_le hbc⟩⟩
  have hright : (fun row : Row => (!decide (row.1.end_ < b)) && !(decide (row.1.end_ < a) || !decide (row.1.end_ < c))) =
      fun row => !(decide (row.1.end_ < b) || !decide (row.1.end_ < c)) := by
    funext row
    rw [Bool.eq_iff_iff]
    simp only [Bool.and_eq_true,Bool.not_eq_true',Bool.or_eq_false_iff,Bool.not_eq_false',decide_eq_true_eq,decide_eq_false_iff_not]
    exact ⟨fun h => ⟨h.1,h.2.2⟩,fun h => ⟨h.1,fun hlt => h.1 (hlt.trans_le hab),h.2⟩⟩
  rw [hleft,hright] at hperm
  exact hperm.symm

theorem spend_add {l : Ledger} (hrows : l.rows = some rows) {a b c : Time} (hab : a ≤ b) (hbc : b ≤ c) :
    ∃ first second whole, l.spend a b = some first ∧ l.spend b c = some second ∧ l.spend a c = some whole ∧
      whole.tally = first.tally+second.tally ∧ ∀ role, whole.of role = Usage.sum (first.of role) (second.of role) := by
  obtain ⟨first,hfirst,hfirstTally,hfirstOf⟩ := spend_eq hrows a b
  obtain ⟨second,hsecond,hsecondTally,hsecondOf⟩ := spend_eq hrows b c
  obtain ⟨whole,hwhole,hwholeTally,hwholeOf⟩ := spend_eq hrows a c
  have hperm : (windowRows rows a c).Perm _ := windowRows_perm hab hbc
  refine ⟨first,second,whole,hfirst,hsecond,hwhole,?_,fun role => ?_⟩
  · rw [hwholeTally,hfirstTally,hsecondTally,(hperm.map rowTally).sum_eq,List.map_append,List.sum_append]
  · rw [hwholeOf,hfirstOf,hsecondOf,tallyOf_perm hperm,tallyOf_append]

end Vibesys.Cost
