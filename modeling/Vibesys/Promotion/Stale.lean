import Vibesys.Promotion.CrashSafe

/-!
# Measuring a stale candidate again

A refusal as stale asks for the candidate to be measured again. The age of a candidate is that of its oldest
measurement, and a measurement is never taken away, so a candidate that was refused as stale stays so however
often it is measured. The refusal goes only with the measurements from before the move.
-/
namespace Vibesys.Promotion
open Vibesys.Core

def Stale (d : Except Failure PromotionDecision) : Prop :=
  ∃ reasons, d = .ok (.refused reasons) ∧ ∃ r ∈ reasons, r.kind = .stale

/-- The result is a measurement of the candidate from before a promotion, or of the same moment. -/
def Outdated (req : PromotionRequest) (r : Result) : Prop :=
  r.commit = req.candidate ∧ r.measured.isSome ∧ ∃ p ∈ req.promotions, r.recordedAt ≤ p.at_

theorem Older.recordedAt_le {a b : Measurement} (h : Older a b) : a.recordedAt ≤ b.recordedAt := by
  rcases h with hlt | ⟨heq,-⟩
  · exact le_of_lt hlt
  · exact le_of_eq heq

instance : Std.Total Older where
  total a b := by
    rcases lt_trichotomy a.recordedAt b.recordedAt with hlt | heq | hgt
    · exact Or.inl (Or.inl hlt)
    · rcases le_total a.job b.job with hle | hle
      · exact Or.inl (Or.inr ⟨heq,hle⟩)
      · exact Or.inr (Or.inr ⟨heq.symm,hle⟩)
    · exact Or.inr (Or.inl hgt)

instance : IsTrans Measurement Older where
  trans a b c hab hbc := by
    rcases hab with hab | ⟨hab,hab'⟩ <;> rcases hbc with hbc | ⟨hbc,hbc'⟩
    · exact Or.inl (lt_trans hab hbc)
    · exact Or.inl (hbc ▸ hab)
    · exact Or.inl (hab ▸ hbc)
    · exact Or.inr ⟨hab.trans hbc,le_trans hab' hbc'⟩

theorem mem_measurementsOf {commit : Commit} {results : List Result} {m : Measurement} :
    m ∈ measurementsOf commit results ↔
      m.toResult ∈ results ∧ m.commit = commit ∧ m.measured = some m.measure := by
  rw [measurementsOf,List.mem_insertionSort,List.mem_filterMap]
  constructor
  · rintro ⟨r,hr,hm⟩
    split_ifs at hm with hcommit
    obtain ⟨outcome,houtcome,rfl⟩ := Option.map_eq_some_iff.mp hm
    exact ⟨hr,hcommit,houtcome⟩
  · rintro ⟨hr,hcommit,houtcome⟩
    exact ⟨m.toResult,hr,by rw [if_pos hcommit,houtcome]; rfl⟩

theorem oldest_measurementsOf {commit : Commit} {results : List Result} {first : Measurement} {rest : List Measurement}
    (h : measurementsOf commit results = first :: rest) {m : Measurement} (hm : m ∈ measurementsOf commit results) :
    first.recordedAt ≤ m.recordedAt := by
  have hsorted := List.pairwise_insertionSort Older (results.filterMap fun r =>
    if r.commit = commit then r.measured.map fun measure => ({ r with measure := measure } : Measurement) else none)
  rw [← measurementsOf,h] at hsorted
  rw [h] at hm
  rcases List.mem_cons.mp hm with rfl | hm
  · exact le_refl _
  · exact (List.rel_of_pairwise_cons hsorted hm).recordedAt_le

theorem kind_of_verdictRefusal {v : Verdict} {objectives : List ObjectiveVerdict} {r : Reason}
    (h : r ∈ verdictRefusal v objectives) : r.kind ≠ .stale := by
  unfold verdictRefusal at h
  intro hstale
  cases hkind : v.kind with
  | better =>
    rw [hkind] at h
    cases h
  | _ =>
    rw [hkind] at h
    rw [List.mem_singleton.mp h] at hstale
    cases hstale

theorem movedSince_isSome {measuredAt : Time} {promotions : List Promotion} :
    (movedSince measuredAt promotions).isSome ↔ ∃ p ∈ promotions, measuredAt ≤ p.at_ := by
  simp [movedSince]

theorem stale_of_reasonsOf {req : PromotionRequest} {first : Measurement} {candidate : List Measurement}
    {compared : MeasuredComparison} :
    (∃ r ∈ reasonsOf req first candidate compared, r.kind = .stale) ↔
      ∃ p ∈ req.promotions, first.recordedAt ≤ p.at_ := by
  rw [← movedSince_isSome]
  unfold reasonsOf
  constructor
  · rintro ⟨r,hr,hkind⟩
    simp only [List.mem_append] at hr
    rcases hr with ((hr | hr) | hr) | hr
    · split_ifs at hr
      · rw [List.mem_singleton.mp hr] at hkind
        cases hkind
      · cases hr
    · split_ifs at hr
      · exact absurd hkind (kind_of_verdictRefusal hr)
      · cases hr
    · split at hr
      · next heq =>
        rw [heq]
        rfl
      · cases hr
    · obtain ⟨mix,-,rfl⟩ := List.mem_map.mp hr
      cases hkind
  · intro hmoved
    obtain ⟨against,hagainst⟩ := Option.isSome_iff_exists.mp hmoved
    rw [hagainst]
    exact ⟨_,List.mem_append_left _ (List.mem_append_right _ (List.mem_singleton_self _)),rfl⟩

theorem unmeasured_eq_nil {req : PromotionRequest} {candidate base : List Measurement} :
    unmeasured req candidate base = [] ↔ candidate ≠ [] ∧ base ≠ [] := by
  simp [unmeasured]

theorem kind_of_unmeasured {req : PromotionRequest} {candidate base : List Measurement} {r : Reason}
    (h : r ∈ unmeasured req candidate base) : r.kind = .unmeasured := by
  rcases List.mem_append.mp h with h | h
  · split_ifs at h
    · rw [List.mem_singleton.mp h]
    · cases h
  · split_ifs at h
    · rw [List.mem_singleton.mp h]
    · cases h

theorem not_stale_unmeasured {req : PromotionRequest} {candidate base : List Measurement} :
    ¬ Stale (.ok (.refused (unmeasured req candidate base))) := by
  rintro ⟨reasons,heq,r,hr,hkind⟩
  cases heq
  rw [kind_of_unmeasured hr] at hkind
  cases hkind

/-- A refusal as stale is one of a candidate whose oldest measurement is from before a promotion, where the two
sides can be compared. -/
theorem stale_iff {req : PromotionRequest} :
    Stale (DecidePromotion req) ↔
      ¬ req.at_.IsZero ∧ ∃ first rest compared, measurementsOf req.candidate req.results = first :: rest ∧
        measurementsOf req.head req.results ≠ [] ∧
        compareMeasurements first (first :: rest) (measurementsOf req.head req.results) req.relativeNoise = .ok compared ∧
        ∃ p ∈ req.promotions, first.recordedAt ≤ p.at_ := by
  unfold DecidePromotion
  split_ifs with hzero
  · simp [Stale,hzero]
  dsimp only
  generalize measurementsOf req.head req.results = base
  cases hcandidate : measurementsOf req.candidate req.results with
  | nil =>
    simp only [reduceCtorEq,false_and,exists_false,and_false,iff_false]
    exact not_stale_unmeasured
  | cons first rest =>
    cases hreasons : unmeasured req (first :: rest) base with
    | cons r reasons =>
      have hbase : base = [] := by
        by_contra hbase
        rw [unmeasured_eq_nil.mpr ⟨List.cons_ne_nil _ _,hbase⟩] at hreasons
        cases hreasons
      have hnot : ¬ Stale (.ok (.refused (r :: reasons))) := by
        rw [← hreasons]
        exact not_stale_unmeasured
      simp [hbase,hnot]
    | nil =>
      have hbase := (unmeasured_eq_nil.mp hreasons).2
      dsimp only
      cases hcompared : compareMeasurements first (first :: rest) base req.relativeNoise with
      | error f =>
        constructor
        · rintro ⟨reasons,heq,-⟩
          cases heq
        · rintro ⟨-,_,_,compared,heq,-,hok,-⟩
          cases heq
          rw [hcompared] at hok
          cases hok
      | ok compared =>
        have hiff : Stale (.ok (.refused (reasonsOf req first (first :: rest) compared))) ↔
            ∃ p ∈ req.promotions, first.recordedAt ≤ p.at_ := by
          rw [← @stale_of_reasonsOf req first (first :: rest) compared]
          simp [Stale]
        have hright : (¬ req.at_.IsZero ∧ ∃ first' rest' compared', first :: rest = first' :: rest' ∧ base ≠ [] ∧
            compareMeasurements first' (first' :: rest') base req.relativeNoise = .ok compared' ∧
            ∃ p ∈ req.promotions, first'.recordedAt ≤ p.at_) ↔ ∃ p ∈ req.promotions, first.recordedAt ≤ p.at_ := by
          constructor
          · rintro ⟨-,_,_,_,heq,-,-,hmoved⟩
            cases heq
            exact hmoved
          · exact fun hmoved => ⟨hzero,first,rest,compared,rfl,hbase,hcompared,hmoved⟩
        rw [hright,← hiff]
        dsimp only
        split
        · next hnil => simp [Stale,hnil]
        · rfl

theorem compared_of_decided {req : PromotionRequest} {d : PromotionDecision} (h : DecidePromotion req = .ok d) :
    ¬ req.at_.IsZero ∧ ∀ first rest, measurementsOf req.candidate req.results = first :: rest →
      measurementsOf req.head req.results ≠ [] → ∃ compared,
        compareMeasurements first (first :: rest) (measurementsOf req.head req.results) req.relativeNoise = .ok compared := by
  unfold DecidePromotion at h
  split_ifs at h with hzero
  refine ⟨hzero,fun first rest hcandidate hbase => ?_⟩
  dsimp only at h
  rw [hcandidate,unmeasured_eq_nil.mpr ⟨List.cons_ne_nil _ _,hbase⟩] at h
  dsimp only at h
  cases hcompared : compareMeasurements first (first :: rest) (measurementsOf req.head req.results) req.relativeNoise with
  | error f =>
    rw [hcompared] at h
    cases h
  | ok compared => exact ⟨compared,rfl⟩

theorem outdated_of_stale {req : PromotionRequest} (h : Stale (DecidePromotion req)) :
    ∃ r ∈ req.results, Outdated req r := by
  obtain ⟨-,first,rest,-,hcandidate,-,-,hmoved⟩ := stale_iff.mp h
  obtain ⟨hmem,hcommit,hmeasured⟩ := mem_measurementsOf.mp (hcandidate ▸ List.mem_cons_self : first ∈ _)
  exact ⟨first.toResult,hmem,hcommit,by rw [hmeasured]; rfl,hmoved⟩

/-- However often the candidate is measured again, it is stale as long as the two sides can be compared. -/
theorem stale_again {req : PromotionRequest} (h : Stale (DecidePromotion req)) (new : List Result) (at_ : Time)
    {d : PromotionDecision} (hd : DecidePromotion { req with results := req.results ++ new, at_ := at_ } = .ok d) :
    Stale (.ok d) := by
  obtain ⟨-,first,rest,-,hcandidate,hbase,-,p,hp,hmoved⟩ := stale_iff.mp h
  have hgrows : ∀ {commit m}, m ∈ measurementsOf commit req.results → m ∈ measurementsOf commit (req.results ++ new) := by
    intro commit m hm
    obtain ⟨hmem,hm⟩ := mem_measurementsOf.mp hm
    exact mem_measurementsOf.mpr ⟨List.mem_append_left new hmem,hm⟩
  obtain ⟨hzero,hcompared⟩ := compared_of_decided hd
  obtain ⟨b,hb⟩ := List.exists_mem_of_ne_nil _ hbase
  have hbase' := List.ne_nil_of_mem (hgrows hb)
  have hfirst := hgrows (hcandidate ▸ List.mem_cons_self : first ∈ measurementsOf req.candidate req.results)
  obtain ⟨first',rest',hcandidate'⟩ := List.exists_cons_of_ne_nil (List.ne_nil_of_mem hfirst)
  obtain ⟨compared',hok⟩ := hcompared first' rest' hcandidate' hbase'
  rw [← hd]
  refine stale_iff.mpr ⟨hzero,first',rest',compared',hcandidate',hbase',hok,p,hp,?_⟩
  exact (oldest_measurementsOf hcandidate' hfirst).trans hmoved

/-- Measured again after all promotions, the candidate is stale no more once its outdated measurements are not among
the results. -/
theorem remedied_without_outdated {req : PromotionRequest} {kept new : List Result}
    (hkept : ∀ r ∈ kept, r ∈ req.results ∧ ¬ Outdated req r)
    (hnew : ∀ r ∈ new, ∀ p ∈ req.promotions, p.at_ < r.recordedAt) (at_ : Time) :
    ¬ Stale (DecidePromotion { req with results := kept ++ new, at_ := at_ }) := by
  intro hstale
  obtain ⟨r,hr,hcommit,hmeasured,p,hp,hmoved⟩ := outdated_of_stale hstale
  rcases List.mem_append.mp hr with hr | hr
  · exact (hkept r hr).2 ⟨hcommit,hmeasured,p,hp,hmoved⟩
  · exact absurd hmoved (not_le_of_gt (hnew r hr p hp))

instance : (d : Except Failure PromotionDecision) → Decidable (Stale d)
  | .ok (.refused reasons) =>
    if h : ∃ r ∈ reasons, r.kind = .stale then isTrue ⟨reasons,rfl,h⟩
    else isFalse fun ⟨_,heq,hstale⟩ => h (by cases heq; exact hstale)
  | .ok (.approved _) => isFalse fun ⟨_,heq,_⟩ => by cases heq
  | .error _ => isFalse fun ⟨_,heq,_⟩ => by cases heq

open State (commitOf measurement)

/-- The head was promoted at 3, after the candidate was measured at 2. -/
def lateRequest : PromotionRequest where
  candidate := commitOf 'b'
  head := commitOf 'c'
  results := [measurement 'c' 1 [100,101,102],measurement 'b' 2 [200,201,202]]
  promotions := [{ commit := commitOf 'c', previousHead := commitOf 'a', verdict := { kind := .better, candidateSamples := 3, baseSamples := 3 }
                   objectives := [], environment := ⟨.host,.cpu,"",∅⟩, resultJob := "c", at_ := 3 }]
  relativeNoise := 0
  at_ := 4

example : ¬ Stale (DecidePromotion { lateRequest with
    results := [measurement 'c' 1 [100,101,102],measurement 'b' 5 [200,201,202]], at_ := 6 }) := by
  decide +kernel

/-- The candidate is measured again after the promotion, and is refused as stale as before. -/
theorem stale_after_remedy :
    let new := [{ measurement 'b' 5 [200,201,202] with job := "d" }]
    Stale (DecidePromotion lateRequest) ∧ (∀ r ∈ new, ∀ p ∈ lateRequest.promotions, p.at_ < r.recordedAt) ∧
      Stale (DecidePromotion { lateRequest with results := lateRequest.results ++ new, at_ := 6 }) := by
  decide +kernel

theorem stale_again_late :
    let new := [{ measurement 'b' 5 [200,201,202] with job := "d" }]
    Stale (DecidePromotion lateRequest) ∧
      ∃ d, DecidePromotion { lateRequest with results := lateRequest.results ++ new, at_ := 6 } = .ok d ∧ Stale (.ok d) := by
  intro new
  have hstale : Stale (DecidePromotion lateRequest) := by decide +kernel
  obtain ⟨d,hd⟩ : ∃ d, DecidePromotion { lateRequest with results := lateRequest.results ++ new, at_ := 6 } = .ok d := by
    have hok : (DecidePromotion { lateRequest with results := lateRequest.results ++ new, at_ := 6 }).isOk = true := by
      decide +kernel
    cases hd : DecidePromotion { lateRequest with results := lateRequest.results ++ new, at_ := 6 } with
    | error f =>
      rw [hd] at hok
      cases hok
    | ok d => exact ⟨d,rfl⟩
  exact ⟨hstale,d,hd,stale_again hstale new 6 hd⟩

end Vibesys.Promotion
