import Vibesys.Benchmark.Records

/-!
# Which streams are accepted

A reading comes from a hello and one result that fits it, and nothing else. A reported error is the first record or
follows a hello and what may stand after it. The second fails exactly when results with nil values are repeated before
the error: after such a result the reader does not know that it has read one.
-/
namespace Vibesys.Benchmark

open Library

variable {V : Type} {quote : String → String} {parseLine : Bytes → ℕ → Except Rejection (Rec V)}

def isResult : Except Rejection (Rec V) → Bool
  | .ok (.result _ _) => true
  | _ => false

/-- The records are a hello and what fits it, for this scored metric. -/
structure Valid (scored : String) (rs : List (Except Rejection (Rec V))) (declared : Table String Bool)
    (values : Option (Table String V)) : Prop where
  parses : ∀ r ∈ rs, ∃ record, r = .ok record
  first : ∃ protocol, rs.head? = some (.ok (.hello protocol declared)) ∧ HelloFits protocol declared
  oneHello : ∀ protocol metrics, .ok (.hello protocol metrics) ∉ rs.tail
  noError : ∀ message requirement, .ok (.error message requirement) ∉ rs
  oneResult : ∃ label, rs.filter isResult = [.ok (.result label values)] ∧ ResultFits declared label values
  scored : declared.find? scored = some true

theorem valid_iff {scored : String} {rs : List (Except Rejection (Rec V))} {declared : Table String Bool}
    {values : Option (Table String V)} :
    Valid scored rs declared values ↔ ∃ protocol, rs = [.ok (.hello protocol declared),.ok (.result "" values)] ∧
      HelloFits protocol declared ∧ ResultFits declared "" values ∧ declared.find? scored = some true := by
  constructor
  · intro h
    obtain ⟨protocol,hhead,hhello⟩ := h.first
    obtain ⟨label,hfilter,hfits⟩ := h.oneResult
    obtain rfl := hfits.unlabelled
    cases rs with
    | nil => cases hhead
    | cons r rest =>
      obtain rfl := Option.some.inj hhead
      have hresults : ∀ r ∈ rest, isResult r = true := by
        intro r hr
        obtain ⟨record,rfl⟩ := h.parses r (List.mem_cons_of_mem _ hr)
        cases record with
        | hello protocol' metrics => exact absurd hr (h.oneHello protocol' metrics)
        | error message requirement => exact absurd (List.mem_cons_of_mem _ hr) (h.noError message requirement)
        | result label values => rfl
      rw [List.filter_cons_of_neg (by simp [isResult]),List.filter_eq_self.mpr hresults] at hfilter
      rw [hfilter]
      exact ⟨protocol,rfl,hhello,hfits,h.scored⟩
  · rintro ⟨protocol,rfl,hhello,hfits,hscored⟩
    refine ⟨?_,⟨protocol,rfl,hhello⟩,?_,?_,⟨"",rfl,hfits⟩,hscored⟩
    · intro r hr
      rcases List.mem_cons.mp hr with rfl | hr
      · exact ⟨_,rfl⟩
      · exact ⟨_,List.mem_singleton.mp hr⟩
    · intro protocol' metrics hr
      cases List.mem_singleton.mp hr
    · intro message requirement hr
      rcases List.mem_cons.mp hr with hr | hr
      · cases hr
      · cases List.mem_singleton.mp hr

/-- The records before an error break no rule: there are none, or a hello and at most one result that fits it. -/
def Unbroken (rs : List (Rec V)) : Prop :=
  rs = [] ∨ ∃ protocol declared rest, rs = .hello protocol declared :: rest ∧ HelloFits protocol declared ∧ Between declared rest

theorem Scan.readRecords_hello {protocol : ℕ} {metrics : Table String Bool} {rest : List (Except Rejection (Rec V))}
    (h : HelloFits protocol metrics) :
    Scan.readRecords quote (.ok (.hello protocol metrics) :: rest) {} = Scan.readRecords quote rest ⟨some metrics,none,1⟩ := by
  simp only [Scan.readRecords,Scan.take,Option.isSome_none,Bool.false_eq_true,if_false,Nat.zero_add,ne_eq,not_true,
    checkHello_eq_ok.mpr h]

theorem Scan.readRecords_not_hello {protocol : ℕ} {metrics : Table String Bool} {rest : List (Except Rejection (Rec V))}
    (h : ¬HelloFits protocol metrics) :
    ∃ why, Scan.readRecords quote (.ok (.hello protocol metrics) :: rest) {} = .error (.rejection why) := by
  simp only [Scan.readRecords,Scan.take,Option.isSome_none,Bool.false_eq_true,if_false,Nat.zero_add,ne_eq,not_true]
  cases hcheck : checkHello quote protocol metrics with
  | ok _ => exact absurd (checkHello_eq_ok.mp hcheck) h
  | error why =>
    cases why with
    | rejection why => exact ⟨why,rfl⟩
    | reported what => exact absurd hcheck checkHello_ne_reported

theorem readRecords_eq_reported {rs : List (Except Rejection (Rec V))} {what : Reported} :
    Scan.readRecords quote rs {} = .error (.reported what) ↔
      ∃ before rest, rs = before.map .ok ++ .ok (.error what.message what.requirement) :: rest ∧
        (before = [] ∨ ∃ protocol declared results, before = .hello protocol declared :: results ∧
          HelloFits protocol declared ∧ Passed declared results) := by
  constructor
  · intro hread
    cases rs with
    | nil => cases hread
    | cons r rest =>
      cases r with
      | error why => cases hread
      | ok record =>
        cases record with
        | hello protocol metrics =>
          by_cases hfits : HelloFits protocol metrics
          · rw [Scan.readRecords_hello hfits] at hread
            obtain ⟨before,rest',rfl,hpassed⟩ := Scan.readRecords_reported.mp hread
            exact ⟨.hello protocol metrics :: before,rest',rfl,Or.inr ⟨protocol,metrics,before,rfl,hfits,hpassed⟩⟩
          · obtain ⟨why,hwhy⟩ := @Scan.readRecords_not_hello _ quote _ _ rest hfits
            rw [hwhy] at hread
            cases hread
        | error message requirement =>
          cases hread
          exact ⟨[],rest,rfl,Or.inl rfl⟩
        | result label found =>
          exact absurd hread
            ((@Scan.readRecords_lost _ quote rest ⟨none,none,1⟩ rfl Nat.one_pos).2 what)
  · rintro ⟨before,rest,rfl,rfl | ⟨protocol,declared,results,rfl,hfits,hpassed⟩⟩
    · rfl
    · rw [List.map_cons,List.cons_append,Scan.readRecords_hello hfits]
      exact Scan.readRecords_reported.mpr ⟨results,rest,rfl,hpassed⟩

/-- Before the first error stand a valid hello and two results or more that the reader passes over: all but the last of
them have nil values. -/
def Repeated (rs : List (Except Rejection (Rec V))) : Prop :=
  ∃ protocol declared results message requirement rest,
    rs = (Rec.hello protocol declared :: results).map .ok ++ .ok (.error message requirement) :: rest ∧
      HelloFits protocol declared ∧ Passed declared results ∧ 2 ≤ results.length

theorem unbroken_iff {before : List (Rec V)} : Unbroken before ↔ before = [] ∨ ∃ protocol declared results,
    before = .hello protocol declared :: results ∧ HelloFits protocol declared ∧ Passed declared results ∧ results.length < 2 := by
  simp only [Unbroken,between_iff]

theorem Passed.no_error {declared : Table String Bool} {rs : List (Rec V)} (h : Passed declared rs) (message requirement : String) :
    .error message requirement ∉ rs := by
  induction h with
  | nil => exact List.not_mem_nil
  | last => simp
  | skipped _ _ ih => simpa using ih

/-- The records before the first error are determined. -/
theorem before_error_unique {before before' : List (Rec V)} {m q m' q' : String} {rest rest' : List (Except Rejection (Rec V))}
    (h : ∀ message requirement, .error message requirement ∉ before)
    (h' : ∀ message requirement, .error message requirement ∉ before')
    (heq : before.map Except.ok ++ .ok (.error m q) :: rest = before'.map Except.ok ++ .ok (.error m' q') :: rest') :
    before = before' := by
  induction before generalizing before' with
  | nil =>
    cases before' with
    | nil => rfl
    | cons r before' =>
      cases heq
      exact absurd List.mem_cons_self (h' _ _)
  | cons r before ih =>
    cases before' with
    | nil =>
      cases heq
      exact absurd List.mem_cons_self (h _ _)
    | cons r' before' =>
      obtain ⟨hr,hrest⟩ := List.cons.inj heq
      obtain rfl := Except.ok.inj hr
      rw [ih (fun m q hm => h m q (List.mem_cons_of_mem _ hm)) (fun m q hm => h' m q (List.mem_cons_of_mem _ hm)) hrest]

/-- Errors are reported exactly where they break no rule, unless results are repeated. -/
theorem reports_unbroken_iff {rs : List (Except Rejection (Rec V))} :
    (∀ what, Scan.readRecords quote rs {} = .error (.reported what) ↔
      ∃ before rest, rs = before.map .ok ++ .ok (.error what.message what.requirement) :: rest ∧ Unbroken before) ↔
    ¬Repeated rs := by
  simp only [unbroken_iff]
  constructor
  · rintro hreports ⟨protocol,declared,results,message,requirement,rest,rfl,hfits,hpassed,htwo⟩
    obtain ⟨before,rest',heq,hbefore⟩ := (hreports ⟨message,requirement⟩).mp
      (readRecords_eq_reported.mpr ⟨_,rest,rfl,Or.inr ⟨protocol,declared,results,rfl,hfits,hpassed⟩⟩)
    have hnone : ∀ m q, Rec.error m q ∉ Rec.hello protocol declared :: results := by
      intro m q
      simpa using hpassed.no_error m q
    rcases hbefore with rfl | ⟨protocol',declared',results',rfl,-,hpassed',hfew⟩
    · cases before_error_unique hnone (fun _ _ => List.not_mem_nil) heq
    · have hnone' : ∀ m q, Rec.error m q ∉ Rec.hello protocol' declared' :: results' := by
        intro m q
        simpa using hpassed'.no_error m q
      cases before_error_unique hnone hnone' heq
      omega
  · intro hnot what
    rw [readRecords_eq_reported]
    refine exists₂_congr fun before rest => and_congr_right fun heq => or_congr_right ?_
    refine exists₃_congr fun protocol declared results => and_congr_right fun hbefore => and_congr_right fun hfits => ?_
    refine ⟨fun hpassed => ⟨hpassed,?_⟩,And.left⟩
    by_contra hmany
    subst hbefore
    exact hnot ⟨protocol,declared,results,_,_,rest,heq,hfits,hpassed,not_lt.mp hmany⟩

section Streams

variable [Inhabited V] {scored : String}

def readingOf (scored : String) (values : Table String V) : Reading V :=
  ⟨(values.find? scored).getD default,(values.items.filter fun e => decide (e.1 ≠ scored)).map fun e => ⟨e.1,e.2⟩⟩

theorem Scan.finish_eq_ok {st : Scan V} {reading : Reading V} :
    st.finish quote scored = .ok reading ↔
      ∃ declared values, st.declared = some declared ∧ st.values = some values ∧ declared.find? scored = some true ∧
        reading = readingOf scored values := by
  unfold Scan.finish
  cases hdeclared : st.declared with
  | none => simp
  | some declared =>
    cases hvalues : st.values with
    | none => simp
    | some values =>
      cases hfind : declared.find? scored with
      | none => simp [hfind]
      | some required =>
        cases required with
        | false => simp [hfind]
        | true => simp [hfind,readingOf,eq_comm]

theorem Scan.finish_ne_reported {st : Scan V} {what : Reported} : st.finish quote scored ≠ .error (.reported what) := by
  unfold Scan.finish reject
  intro h
  split at h
  · cases h
  · split at h
    · cases h
    · split at h <;> cases h

theorem readRecords_finish_eq_ok {rs : List (Except Rejection (Rec V))} {reading : Reading V} :
    (∃ st, Scan.readRecords quote rs {} = .ok st ∧ st.finish quote scored = .ok reading) ↔
      ∃ declared values, Valid scored rs declared (some values) ∧ reading = readingOf scored values := by
  simp only [Scan.finish_eq_ok,valid_iff]
  constructor
  · rintro ⟨st,hread,declared,values,hdeclared,hvalues,hscored,rfl⟩
    cases rs with
    | nil =>
      rw [← Except.ok.inj hread] at hdeclared
      cases hdeclared
    | cons r rest =>
      cases r with
      | error why => cases hread
      | ok record =>
        cases record with
        | hello protocol metrics =>
          by_cases hfits : HelloFits protocol metrics
          · rw [Scan.readRecords_hello hfits] at hread
            have hsame := Scan.readRecords_declared hread
            obtain rfl := Option.some.inj (hsame.symm.trans hdeclared)
            obtain ⟨rfl,hresult,-⟩ := (Scan.readRecords_reading hscored).mp ⟨hread,hvalues⟩
            exact ⟨metrics,values,⟨protocol,rfl,hfits,hresult,hscored⟩,rfl⟩
          · obtain ⟨why,hwhy⟩ := @Scan.readRecords_not_hello _ quote _ _ rest hfits
            rw [hwhy] at hread
            cases hread
        | error message requirement => cases hread
        | result label found =>
          have hnone := (@Scan.readRecords_lost _ quote rest ⟨none,none,1⟩ rfl Nat.one_pos).1 st hread
          rw [hnone] at hdeclared
          cases hdeclared
  · rintro ⟨declared,values,⟨protocol,rfl,hhello,hfits,hscored⟩,rfl⟩
    rw [Scan.readRecords_hello hhello]
    obtain ⟨hread,hvalues⟩ := (@Scan.readRecords_reading _ quote _ 1 _ hscored _ _ _).mpr ⟨rfl,hfits,rfl⟩
    exact ⟨_,hread,declared,values,rfl,rfl,hscored,rfl⟩

theorem Protocol2_eq {stream : Bytes} :
    Protocol2 quote parseLine stream scored =
      (Scan.readRecords quote (records parseLine 0 (linesOf stream)) {}).bind (Scan.finish quote scored) := by
  unfold Protocol2
  rw [Scan.readLines_eq]
  cases Scan.readRecords quote (records parseLine 0 (linesOf stream)) {} <;> rfl

theorem readingOf_spec {declared : Table String Bool} {values : Table String V} (hfits : ResultFits declared "" (some values))
    (hscored : declared.find? scored = some true) :
    values.find? scored = some (readingOf scored values).value ∧
      ((readingOf scored values).others.map Named.name).Pairwise (· < ·) ∧
      ∀ name v, ⟨name,v⟩ ∈ (readingOf scored values).others ↔ name ≠ scored ∧ values.find? name = some v := by
  obtain ⟨v,hv⟩ := Table.mem_keys.mp (hfits.complete scored hscored)
  refine ⟨?_,?_,fun name v' => ?_⟩
  · show values.find? scored = some ((values.find? scored).getD default)
    rw [hv]
    rfl
  · show (((values.items.filter fun e => decide (e.1 ≠ scored)).map fun e => (⟨e.1,e.2⟩ : Named V)).map Named.name).Pairwise (· < ·)
    rw [List.map_map,List.pairwise_map]
    exact values.sorted.sublist List.filter_sublist
  · show _ ∈ (values.items.filter fun e => decide (e.1 ≠ scored)).map (fun e => (⟨e.1,e.2⟩ : Named V)) ↔ _
    rw [Table.find?_eq_some,List.mem_map]
    constructor
    · rintro ⟨e,he,heq⟩
      cases heq
      rw [List.mem_filter,decide_eq_true_eq] at he
      exact ⟨he.2,he.1⟩
    · rintro ⟨hne,hmem⟩
      exact ⟨⟨name,v'⟩,List.mem_filter.mpr ⟨hmem,decide_eq_true hne⟩,rfl⟩

/-- The reader accepts exactly the valid streams. It reports exactly the errors that break no rule where they stand if
and only if no results are repeated before the first error. -/
theorem protocol2_accepts_exactly_valid_streams (quote : String → String) (parseLine : Bytes → ℕ → Except Rejection (Rec V))
    (stream : Bytes) (scored : String) :
    ((∃ reading, Protocol2 quote parseLine stream scored = .ok reading) ↔
        ∃ declared values, Valid scored (records parseLine 0 (linesOf stream)) declared values) ∧
      (∀ reading declared values, Protocol2 quote parseLine stream scored = .ok reading →
        Valid scored (records parseLine 0 (linesOf stream)) declared (some values) →
        values.find? scored = some reading.value ∧ (reading.others.map Named.name).Pairwise (· < ·) ∧
          ∀ name v, ⟨name,v⟩ ∈ reading.others ↔ name ≠ scored ∧ values.find? name = some v) ∧
      ((∀ what, Protocol2 quote parseLine stream scored = .error (.reported what) ↔
          ∃ before rest, records parseLine 0 (linesOf stream) =
            before.map .ok ++ .ok (.error what.message what.requirement) :: rest ∧ Unbroken before) ↔
        ¬Repeated (records parseLine 0 (linesOf stream))) := by
  rw [Protocol2_eq]
  generalize records parseLine 0 (linesOf stream) = rs
  have hok : ∀ reading, (Scan.readRecords quote rs {}).bind (Scan.finish quote scored) = .ok reading ↔
      ∃ declared values, Valid scored rs declared (some values) ∧ reading = readingOf scored values := by
    intro reading
    rw [← @readRecords_finish_eq_ok _ quote]
    cases Scan.readRecords quote rs {} <;> simp [Except.bind]
  refine ⟨?_,?_,?_⟩
  · constructor
    · rintro ⟨reading,hreading⟩
      obtain ⟨declared,values,hvalid,-⟩ := (hok reading).mp hreading
      exact ⟨declared,some values,hvalid⟩
    · rintro ⟨declared,values,hvalid⟩
      cases values with
      | none =>
        obtain ⟨-,-,-,hfits,hscored⟩ := valid_iff.mp hvalid
        exact absurd (hfits.complete scored hscored) List.not_mem_nil
      | some values => exact ⟨_,(hok _).mpr ⟨declared,values,hvalid,rfl⟩⟩
  · intro reading declared values hreading hvalid
    obtain ⟨declared',values',hvalid',rfl⟩ := (hok reading).mp hreading
    obtain ⟨protocol,rfl,-,hfits,hscored⟩ := valid_iff.mp hvalid
    obtain ⟨protocol',heq,-⟩ := valid_iff.mp hvalid'
    cases heq
    exact readingOf_spec hfits hscored
  · rw [← @reports_unbroken_iff _ quote]
    refine forall_congr' fun what => iff_congr ?_ Iff.rfl
    cases hread : Scan.readRecords quote rs {} with
    | error why => simp [Except.bind]
    | ok st =>
      simp only [Except.bind]
      exact ⟨fun h => absurd h Scan.finish_ne_reported,fun h => (by cases h)⟩

end Streams

/-! ## A small language of lines -/

namespace Sample

/-- `h` and `o` are hellos that require the metric m or not, `r` and `n` are results with it and with nil values, and `e`
is an error. -/
def parseByte : Bytes → ℕ → Except Rejection (Rec ℕ)
  | [104], _ => .ok (.hello 2 (Table.insert ∅ "m" true))
  | [111], _ => .ok (.hello 2 (Table.insert ∅ "m" false))
  | [114], _ => .ok (.result "" (some (Table.insert ∅ "m" 7)))
  | [110], _ => .ok (.result "" none)
  | [101], _ => .ok (.error "broken" "")
  | _, lineNo => .error ⟨.malformedLine,s!"line {lineNo} is not valid JSON"⟩

/-- An error after one result with nil values, and a line after it that does not parse. -/
theorem protocol2_accepts_exactly_valid_streams_reported :
    Protocol2 id parseByte [111,10,32,10,110,10,101,10,120] "m" = .error (.reported ⟨"broken",""⟩) := by
  have hrecords : records parseByte 0 (linesOf [111,10,32,10,110,10,101,10,120]) =
      [.ok (.hello 2 (Table.insert ∅ "m" false)),.ok (.result "" none),.ok (.error "broken" ""),
        .error ⟨.malformedLine,"line 5 is not valid JSON"⟩] := rfl
  have hnot : ¬Repeated (records parseByte 0 (linesOf [111,10,32,10,110,10,101,10,120])) := by
    rw [hrecords]
    rintro ⟨protocol,declared,results,message,requirement,rest,heq,-,-,htwo⟩
    match results,htwo with
    | r :: r' :: results,_ =>
      have hthird := congrArg (fun rs => rs[2]?) heq
      have hfourth := congrArg (fun rs => rs[3]?) heq
      cases results <;> simp at hthird hfourth
  refine ((protocol2_accepts_exactly_valid_streams id parseByte _ "m").2.2.mpr hnot ⟨"broken",""⟩).mpr
    ⟨[.hello 2 (Table.insert ∅ "m" false),.result "" none],_,hrecords,?_⟩
  refine Or.inr ⟨2,_,_,rfl,⟨rfl,by decide +kernel,by decide +kernel⟩,Or.inr ⟨"",none,rfl,rfl,nofun,fun name hname => ?_⟩⟩
  rw [Table.find?_insert] at hname
  split at hname <;> cases hname

/-- Two results with nil values stand before an error that is reported. -/
theorem second_result_goes_unnoticed :
    Protocol2 id parseByte [111,10,110,10,110,10,101,10] "m" = .error (.reported ⟨"broken",""⟩) := by
  decide +kernel

end Sample
end Vibesys.Benchmark
