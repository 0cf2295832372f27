import Vibesys.Benchmark.Protocol

/-!
# Reading records

A stream is read as the list of its records: what each check lets pass, what becomes of a stream without a hello first,
and what may stand after a hello.
-/
namespace Vibesys.Benchmark

open Library

variable {V : Type} {quote : String → String} {parseLine : Bytes → ℕ → Except Rejection (Rec V)}

/-! ## The checks -/

structure HelloFits (protocol : ℕ) (metrics : Table String Bool) : Prop where
  version : protocol = ProtocolVersion
  nonempty : metrics.keys ≠ []
  wellFormed : ∀ name ∈ metrics.keys, (name.isEmpty || name.toList.any isSpace) = false

theorem checkHello_eq_ok {protocol : ℕ} {metrics : Table String Bool} :
    checkHello quote protocol metrics = .ok () ↔ HelloFits protocol metrics := by
  unfold checkHello
  by_cases hversion : protocol = ProtocolVersion
  · rw [if_neg (not_not.mpr hversion)]
    by_cases hempty : metrics.keys = []
    · rw [if_pos hempty]
      constructor
      · intro h
        cases h
      · intro h
        exact absurd hempty h.nonempty
    · rw [if_neg hempty]
      cases hbad : metrics.keys.find? fun name => name.isEmpty || name.toList.any isSpace with
      | none =>
        refine ⟨fun _ => ⟨hversion,hempty,fun name hname => ?_⟩,fun _ => rfl⟩
        exact Bool.eq_false_iff.mpr (List.find?_eq_none.mp hbad name hname)
      | some name =>
        constructor
        · intro h
          cases h
        · intro h
          have hgood := h.wellFormed name (List.mem_of_find?_eq_some hbad)
          have hspace := List.find?_some hbad
          rw [hgood] at hspace
          cases hspace
  · rw [if_pos hversion]
    constructor
    · intro h
      cases h
    · intro h
      exact absurd h.version hversion

structure ResultFits (declared : Table String Bool) (label : String) (values : Option (Table String V)) : Prop where
  unlabelled : label = ""
  known : ∀ name ∈ names values, ∃ required, declared.find? name = some required
  complete : ∀ name, declared.find? name = some true → name ∈ names values

theorem checkResult_eq_ok {declared : Table String Bool} {label : String} {values values' : Option (Table String V)} {position : ℕ} :
    checkResult quote declared label values position = .ok values' ↔ ResultFits declared label values ∧ values' = values := by
  unfold checkResult
  by_cases hlabel : label = ""
  · rw [if_neg (not_not.mpr hlabel)]
    dsimp only
    have hunknown : (names values).filter (fun name => (declared.find? name).isNone) = [] ↔
        ∀ name ∈ names values, ∃ required, declared.find? name = some required := by
      rw [List.filter_eq_nil_iff]
      refine forall₂_congr fun name _ => ?_
      rw [Option.isNone_iff_eq_none,← ne_eq,Option.ne_none_iff_exists']
    have hmissing : declared.keys.filter (fun name => decide (name ∉ names values) && (declared.find? name).getD false) = [] ↔
        ∀ name, declared.find? name = some true → name ∈ names values := by
      rw [List.filter_eq_nil_iff]
      constructor
      · intro h name hname
        by_contra hnot
        refine h name (Table.mem_keys.mpr ⟨true,hname⟩) ?_
        rw [hname]
        simpa using hnot
      · intro h name hname htrue
        obtain ⟨required,hfind⟩ := Table.mem_keys.mp hname
        rw [hfind,Bool.and_eq_true,decide_eq_true_eq] at htrue
        obtain ⟨hnot,rfl⟩ := htrue
        exact hnot (h name hfind)
    by_cases hu : (names values).filter (fun name => (declared.find? name).isNone) = []
    · rw [if_neg (not_not.mpr hu)]
      by_cases hm : declared.keys.filter
          (fun name => decide (name ∉ names values) && (declared.find? name).getD false) = []
      · rw [if_neg (not_not.mpr hm)]
        constructor
        · intro h
          exact ⟨⟨hlabel,hunknown.mp hu,hmissing.mp hm⟩,(Except.ok.inj h).symm⟩
        · rintro ⟨-,rfl⟩
          rfl
      · rw [if_pos hm]
        constructor
        · intro h
          cases h
        · rintro ⟨h,-⟩
          exact absurd (hmissing.mpr h.complete) hm
    · rw [if_pos hu]
      constructor
      · intro h
        cases h
      · rintro ⟨h,-⟩
        exact absurd (hunknown.mpr h.known) hu
  · rw [if_pos hlabel]
    constructor
    · intro h
      cases h
    · rintro ⟨h,-⟩
      exact absurd h.unlabelled hlabel

theorem checkHello_ne_reported {protocol : ℕ} {metrics : Table String Bool} {what : Reported} :
    checkHello quote protocol metrics ≠ .error (.reported what) := by
  unfold checkHello reject
  intro h
  split_ifs at h
  · cases h
  · cases h
  · split at h <;> cases h

theorem checkResult_ne_reported {declared : Table String Bool} {label : String} {values : Option (Table String V)} {position : ℕ}
    {what : Reported} : checkResult quote declared label values position ≠ .error (.reported what) := by
  unfold checkResult reject
  dsimp only
  intro h
  split_ifs at h <;> cases h

/-! ## Records -/

/-- What the lines that are not blank parse to. -/
def records (parseLine : Bytes → ℕ → Except Rejection (Rec V)) : ℕ → List Bytes → List (Except Rejection (Rec V))
  | _, [] => []
  | lineNo, line :: lines =>
    if isBlank line then records parseLine (lineNo+1) lines
    else parseLine line (lineNo+1) :: records parseLine (lineNo+1) lines

def Scan.readRecords (quote : String → String) : List (Except Rejection (Rec V)) → Scan V → Except Failure (Scan V)
  | [], st => .ok st
  | .error why :: _, _ => .error (.rejection why)
  | .ok record :: rest, st =>
    match Scan.take quote { st with position := st.position+1 } record with
    | .error why => .error why
    | .ok st => Scan.readRecords quote rest st

theorem Scan.readLines_eq (lines : List Bytes) (lineNo : ℕ) (st : Scan V) :
    Scan.readLines quote parseLine lines lineNo st = Scan.readRecords quote (records parseLine lineNo lines) st := by
  induction lines generalizing lineNo st with
  | nil => rfl
  | cons line lines ih =>
    unfold Scan.readLines Scan.readLine records
    by_cases hblank : isBlank line = true
    · simp only [hblank,if_true]
      exact ih (lineNo+1) st
    · simp only [hblank,Bool.false_eq_true,if_false]
      cases parseLine line (lineNo+1) with
      | error why => rfl
      | ok record =>
        simp only [Scan.readRecords]
        cases Scan.take quote { st with position := st.position+1 } record with
        | error why => rfl
        | ok st' => exact ih (lineNo+1) st'

/-! ## Without a hello first -/

theorem Scan.readRecords_lost {rs : List (Except Rejection (Rec V))} {st : Scan V} (hdeclared : st.declared = none)
    (hposition : 0 < st.position) :
    (∀ st', Scan.readRecords quote rs st = .ok st' → st'.declared = none) ∧
      ∀ what, Scan.readRecords quote rs st ≠ .error (.reported what) := by
  induction rs generalizing st with
  | nil =>
    refine ⟨fun st' h => ?_,fun what h => (by cases h)⟩
    rw [← Except.ok.inj h]
    exact hdeclared
  | cons r rest ih =>
    cases r with
    | error why => exact ⟨fun st' h => (by cases h),fun what h => (by cases h)⟩
    | ok record =>
      cases record with
      | hello protocol metrics =>
        have htake : ∃ why, Scan.take quote { st with position := st.position+1 } (.hello protocol metrics) =
            .error (.rejection why) := by
          unfold Scan.take
          simp only [hdeclared,Option.isSome_none,Bool.false_eq_true,if_false]
          rw [if_pos (by omega)]
          exact ⟨_,rfl⟩
        obtain ⟨why,hwhy⟩ := htake
        simp only [Scan.readRecords,hwhy]
        exact ⟨fun st' h => (by cases h),fun what h => (by cases h)⟩
      | error message requirement =>
        have htake : Scan.take quote { st with position := st.position+1 } (.error message requirement) =
            .ok { st with position := st.position+1 } := by
          unfold Scan.take
          simp only [hdeclared,Option.isNone_none,Bool.true_and,decide_eq_true_eq]
          rw [if_pos (by omega)]
        simp only [Scan.readRecords,htake]
        exact ih hdeclared (Nat.succ_pos _)
      | result label values =>
        have htake : Scan.take quote { st with position := st.position+1 } (.result label values) =
            .ok { st with position := st.position+1 } := by
          unfold Scan.take
          simp only [hdeclared]
        simp only [Scan.readRecords,htake]
        exact ih hdeclared (Nat.succ_pos _)

/-! ## After a hello -/

section Declared

variable {declared : Table String Bool} {held : Option (Table String V)} {position : ℕ}

/-- What may follow a hello is one result that fits it. -/
theorem Scan.take_declared_eq_ok {record : Rec V} {st : Scan V} :
    Scan.take quote ⟨some declared,held,position⟩ record = .ok st ↔
      held = none ∧ ∃ label values, record = .result label values ∧ ResultFits declared label values ∧
        st = ⟨some declared,values,position⟩ := by
  cases record with
  | hello protocol metrics => simp [Scan.take]
  | error message requirement => simp [Scan.take]
  | result label values =>
    simp only [Scan.take]
    cases held with
    | some held => simp
    | none =>
      simp only [Option.isSome_none,Bool.false_eq_true,if_false,true_and]
      cases hcheck : checkResult quote declared label values position with
      | error why =>
        constructor
        · intro h
          cases h
        · rintro ⟨label',values',heq,hfits,-⟩
          cases heq
          rw [checkResult_eq_ok.mpr ⟨hfits,rfl⟩] at hcheck
          cases hcheck
      | ok values' =>
        obtain ⟨hfits,rfl⟩ := checkResult_eq_ok.mp hcheck
        constructor
        · intro h
          exact ⟨label,values',rfl,hfits,(Except.ok.inj h).symm⟩
        · rintro ⟨label',values'',heq,-,rfl⟩
          cases heq
          rfl

theorem Scan.take_declared_reported {record : Rec V} {what : Reported} :
    Scan.take quote ⟨some declared,held,position⟩ record = .error (.reported what) ↔
      record = .error what.message what.requirement := by
  cases record with
  | hello protocol metrics => simp [Scan.take,reject]
  | error message requirement =>
    simp only [Scan.take,Option.isNone_some,Bool.false_and,Bool.false_eq_true,if_false]
    constructor
    · intro h
      cases h
      rfl
    · intro h
      cases h
      rfl
  | result label values =>
    simp only [Scan.take]
    refine ⟨fun h => ?_,fun h => (by cases h)⟩
    split_ifs at h
    · cases h
    · cases hcheck : checkResult quote declared label values position with
      | error why =>
        rw [hcheck] at h
        cases h
        exact absurd hcheck checkResult_ne_reported
      | ok values' =>
        rw [hcheck] at h
        cases h

theorem Scan.readRecords_cons_reported {record : Rec V} {rest : List (Except Rejection (Rec V))} {what : Reported} :
    Scan.readRecords quote (.ok record :: rest) ⟨some declared,held,position⟩ = .error (.reported what) ↔
      record = .error what.message what.requirement ∨
        ∃ st, Scan.take quote ⟨some declared,held,position+1⟩ record = .ok st ∧
          Scan.readRecords quote rest st = .error (.reported what) := by
  rw [← @Scan.take_declared_reported _ quote declared held (position+1)]
  simp only [Scan.readRecords]
  cases Scan.take quote ⟨some declared,held,position+1⟩ record with
  | error why => simp
  | ok st => simp

theorem Scan.readRecords_declared {rs : List (Except Rejection (Rec V))} {st : Scan V}
    (h : Scan.readRecords quote rs ⟨some declared,held,position⟩ = .ok st) : st.declared = some declared := by
  induction rs generalizing held position with
  | nil => rw [← Except.ok.inj h]
  | cons r rest ih =>
    cases r with
    | error why => cases h
    | ok record =>
      simp only [Scan.readRecords] at h
      cases htake : Scan.take quote ⟨some declared,held,position+1⟩ record with
      | error why =>
        rw [htake] at h
        cases h
      | ok st' =>
        obtain ⟨-,label,values,-,-,rfl⟩ := Scan.take_declared_eq_ok.mp htake
        rw [htake] at h
        exact ih h

theorem Scan.readRecords_full {values : Table String V} {rs : List (Except Rejection (Rec V))} :
    (∀ st, Scan.readRecords quote rs ⟨some declared,some values,position⟩ = .ok st ↔
        rs = [] ∧ st = ⟨some declared,some values,position⟩) ∧
      ∀ what, Scan.readRecords quote rs ⟨some declared,some values,position⟩ = .error (.reported what) ↔
        ∃ rest, rs = .ok (.error what.message what.requirement) :: rest := by
  have hfull : ∀ record st, Scan.take quote ⟨some declared,some values,position+1⟩ record ≠ .ok st := by
    intro record st htake
    obtain ⟨hnone,-⟩ := Scan.take_declared_eq_ok.mp htake
    cases hnone
  cases rs with
  | nil => exact ⟨fun st => by simp [Scan.readRecords,eq_comm],fun what => by simp [Scan.readRecords]⟩
  | cons r rest =>
    cases r with
    | error why => exact ⟨fun st => by simp [Scan.readRecords],fun what => by simp [Scan.readRecords]⟩
    | ok record =>
      refine ⟨fun st => ?_,fun what => ?_⟩
      · simp only [Scan.readRecords]
        cases htake : Scan.take quote ⟨some declared,some values,position+1⟩ record with
        | error why => simp
        | ok st' => exact absurd htake (hfull record st')
      · rw [Scan.readRecords_cons_reported]
        constructor
        · rintro (rfl | ⟨st',htake,-⟩)
          · exact ⟨rest,rfl⟩
          · exact absurd htake (hfull record st')
        · rintro ⟨rest',heq⟩
          cases heq
          exact Or.inl rfl

theorem Scan.readRecords_reading {scored : String} (hscored : declared.find? scored = some true)
    {rs : List (Except Rejection (Rec V))} {st : Scan V} {values : Table String V} :
    Scan.readRecords quote rs ⟨some declared,none,position⟩ = .ok st ∧ st.values = some values ↔
      rs = [.ok (.result "" (some values))] ∧ ResultFits declared "" (some values) ∧
        st = ⟨some declared,some values,position+1⟩ := by
  cases rs with
  | nil =>
    constructor
    · rintro ⟨hread,hsome⟩
      rw [← Except.ok.inj hread] at hsome
      cases hsome
    · rintro ⟨hno,-⟩
      cases hno
  | cons r rest =>
    cases r with
    | error why => simp [Scan.readRecords]
    | ok record =>
      simp only [Scan.readRecords]
      cases htake : Scan.take quote ⟨some declared,none,position+1⟩ record with
      | error why =>
        constructor
        · rintro ⟨hread,-⟩
          cases hread
        · rintro ⟨heq,hfits,-⟩
          cases heq
          rw [Scan.take_declared_eq_ok.mpr ⟨rfl,"",some values,rfl,hfits,rfl⟩] at htake
          cases htake
      | ok st' =>
        obtain ⟨-,label,found,rfl,hfits,rfl⟩ := Scan.take_declared_eq_ok.mp htake
        obtain rfl := hfits.unlabelled
        cases found with
        | none => exact absurd (hfits.complete scored hscored) List.not_mem_nil
        | some found =>
          dsimp only
          rw [Scan.readRecords_full.1]
          constructor
          · rintro ⟨⟨rfl,rfl⟩,hsome⟩
            obtain rfl := Option.some.inj hsome
            exact ⟨rfl,hfits,rfl⟩
          · rintro ⟨heq,-,rfl⟩
            cases heq
            exact ⟨⟨rfl,rfl⟩,rfl⟩

/-- What may stand between a hello and an error: nothing, or one result that fits the hello. -/
def Between (declared : Table String Bool) (rs : List (Rec V)) : Prop :=
  rs = [] ∨ ∃ label values, rs = [.result label values] ∧ ResultFits declared label values

/-- What the reader passes over after a hello: results with nil values, which leave no trace, and one with values. -/
inductive Passed (declared : Table String Bool) : List (Rec V) → Prop
  | nil : Passed declared []
  | last {values : Table String V} (h : ResultFits declared "" (some values)) : Passed declared [.result "" (some values)]
  | skipped {rs : List (Rec V)} (h : ResultFits (V := V) declared "" none) (hrs : Passed declared rs) :
    Passed declared (.result "" none :: rs)

theorem between_iff {rs : List (Rec V)} : Between declared rs ↔ Passed declared rs ∧ rs.length < 2 := by
  constructor
  · rintro (rfl | ⟨label,values,rfl,hfits⟩)
    · exact ⟨.nil,Nat.two_pos⟩
    · obtain rfl := hfits.unlabelled
      cases values with
      | none => exact ⟨.skipped hfits .nil,Nat.lt_succ_self 1⟩
      | some values => exact ⟨.last hfits,Nat.lt_succ_self 1⟩
  · rintro ⟨hpassed,hlength⟩
    cases hpassed with
    | nil => exact Or.inl rfl
    | last hfits => exact Or.inr ⟨_,_,rfl,hfits⟩
    | @skipped rs hfits hrs =>
      obtain rfl := List.length_eq_zero_iff.mp (Nat.lt_one_iff.mp (Nat.lt_of_succ_lt_succ hlength))
      exact Or.inr ⟨_,_,rfl,hfits⟩

theorem Scan.readRecords_reported {rs : List (Except Rejection (Rec V))} {what : Reported} :
    Scan.readRecords quote rs ⟨some declared,none,position⟩ = .error (.reported what) ↔
      ∃ before rest, rs = before.map .ok ++ .ok (.error what.message what.requirement) :: rest ∧ Passed declared before := by
  induction rs generalizing position with
  | nil => simp [Scan.readRecords]
  | cons r rest ih =>
    cases r with
    | error why =>
      constructor
      · intro hread
        cases hread
      · rintro ⟨before,rest',heq,-⟩
        cases before with
        | nil => cases heq
        | cons record before => cases heq
    | ok record =>
      rw [Scan.readRecords_cons_reported]
      constructor
      · rintro (rfl | ⟨st',htake,hread⟩)
        · exact ⟨[],rest,rfl,.nil⟩
        · obtain ⟨-,label,values,rfl,hfits,rfl⟩ := Scan.take_declared_eq_ok.mp htake
          obtain rfl := hfits.unlabelled
          cases values with
          | none =>
            obtain ⟨before,rest',rfl,hpassed⟩ := ih.mp hread
            exact ⟨.result "" none :: before,rest',rfl,.skipped hfits hpassed⟩
          | some values =>
            obtain ⟨rest',rfl⟩ := (Scan.readRecords_full.2 what).mp hread
            exact ⟨[.result "" (some values)],rest',rfl,.last hfits⟩
      · rintro ⟨before,rest',heq,hpassed⟩
        cases hpassed with
        | nil =>
          cases heq
          exact Or.inl rfl
        | last hfits =>
          cases heq
          refine Or.inr ⟨_,Scan.take_declared_eq_ok.mpr ⟨rfl,_,_,rfl,hfits,rfl⟩,?_⟩
          exact (Scan.readRecords_full.2 what).mpr ⟨rest',rfl⟩
        | skipped hfits hbefore =>
          cases heq
          exact Or.inr ⟨_,Scan.take_declared_eq_ok.mpr ⟨rfl,_,_,rfl,hfits,rfl⟩,ih.mpr ⟨_,rest',rfl,hbefore⟩⟩

end Declared

end Vibesys.Benchmark
