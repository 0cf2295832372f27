import Mathlib.Data.Rat.Floor
import Vibesys.Core.Key

/-!
# How measurements compare

Sums and means are exact, and a standard error, which is a square root, is kept as its square. The
failures of overflowing sums do not arise here.
-/
namespace Vibesys.Promotion
open Vibesys.Core

inductive VerdictKind
  | better | worse | withinNoise | inconclusive | tradeoff
  deriving DecidableEq, Repr

def VerdictKind.text : VerdictKind → String
  | .better => "better"
  | .worse => "worse"
  | .withinNoise => "within_noise"
  | .inconclusive => "inconclusive"
  | .tradeoff => "tradeoff"

inductive InconclusiveReason
  | none_ | tooFewSamples | constantSamples | metricMismatch | taskVersionMismatch
  deriving DecidableEq, Repr

def InconclusiveReason.text : InconclusiveReason → String
  | .none_ => ""
  | .tooFewSamples => "too_few_samples"
  | .constantSamples => "constant_samples"
  | .metricMismatch => "metric_mismatch"
  | .taskVersionMismatch => "task_version_mismatch"

structure Verdict where
  kind : VerdictKind
  reason : InconclusiveReason := .none_
  candidateSamples : ℕ
  baseSamples : ℕ
  candidateMean : ℚ := 0
  baseMean : ℚ := 0
  ratio : ℚ := 0
  /-- The square of one standard error of the ratio. -/
  noiseSquared : ℚ := 0
  deriving DecidableEq

def MinSamplesWithoutFloor : ℕ := 3

def declaredNoises : ℚ := 2

def degreesSlack : ℚ := 1/1000000000

def firstTDegrees : ℤ := 2

def studentT975 : List ℚ :=
  [4303,3182,2776,2571,2447,2365,2306,2262,2228,
   2201,2179,2160,2145,2131,2120,2110,2101,2093,2086,
   2080,2074,2069,2064,2060,2056,2052,2048,2045,2042].map (·/1000)

structure CompareInput where
  direction : Direction
  candidate : List Sample
  base : List Sample
  relativeNoise : ℚ

/-- The first sample of a side that is not finite, or that the side has none. -/
def validateSide (name : String) (samples : List Sample) : Option Failure :=
  if samples.isEmpty then some (failf .notMeasured s!"the {name} has no samples")
  else (samples.zipIdx.find? fun x => !x.1.isFinite).map fun x =>
    let text := x.1.text
    let place := x.2
    failf .invalidInput s!"{name} sample {place} is not finite ({text})"

def validateCompare (x : CompareInput) : Option Failure :=
  let direction := x.direction.text
  let noise := toString x.relativeNoise
  if x.direction ≠ .maximize ∧ x.direction ≠ .minimize then
    some (failf .invalidInput s!"direction {direction.quote} is neither \"maximize\" nor \"minimize\"")
  else if x.relativeNoise < 0 then
    some (failf .invalidInput s!"relative noise {noise} is not a finite number of at least zero")
  else (validateSide "candidate" x.candidate).or (validateSide "base" x.base)

def numberOf : Sample → ℚ
  | .finite value => value
  | _ => 0

def sorted (xs : List ℚ) : List ℚ := xs.insertionSort (· ≤ ·)

def Headline (samples : List ℚ) : ℚ := (sorted samples).sum/samples.length

def squares (xs : List ℚ) (mean : ℚ) : ℚ :=
  if xs.min? = xs.max? then 0 else (xs.map fun x => ((x-mean)/mean)^2).sum

def variance (xs : List ℚ) (mean : ℚ) : ℚ :=
  if xs.length = 1 ∨ mean = 0 then 0 else squares xs mean/(xs.length-1)

/-- The square of the pooled relative deviation of the runs. -/
def pooledSpreadSquared (candidate : List ℚ) (c : ℚ) (base : List ℚ) (b : ℚ) : ℚ :=
  if candidate.length+base.length ≤ 2 ∨ c = 0 ∨ b = 0 then 0
  else (squares candidate c+squares base b)/(candidate.length+base.length-2)

/-- What one side adds to the spread of the degrees of freedom. -/
def welchPart (value free : ℚ) : ℚ := if 0 < value then value*value/free else 0

/-- The square of the relative standard error of the ratio of two means, and its degrees of freedom. -/
def welch (candidate : List ℚ) (c : ℚ) (base : List ℚ) (b : ℚ) : ℚ × ℚ :=
  let partC := variance candidate c/candidate.length
  let partB := variance base b/base.length
  let total := partC+partB
  if total = 0 then (0,0)
  else (total,total*total/(welchPart partC (candidate.length-1)+welchPart partB (base.length-1)))

/-- The critical number, or none where it is infinite. -/
def studentCritical (degrees : ℚ) : Option ℚ :=
  let whole := ⌊degrees+degreesSlack⌋
  if whole < firstTDegrees then none
  else studentT975[min (whole-firstTDegrees).toNat (studentT975.length-1)]?

/-- The gain is above the critical number of standard errors. -/
def exceeds (gain : ℚ) (critical : Option ℚ) (noiseSquared : ℚ) : Bool :=
  match critical with
  | none => false
  | some k => 0 < gain && k^2*noiseSquared < gain^2

/-- What `Compare` weighs a gain against: the square of the noise, the critical number, and whether the
noise is known. -/
def noiseOf (relativeNoise ratio : ℚ) (candidate : List ℚ) (c : ℚ) (base : List ℚ) (b : ℚ) : ℚ × Option ℚ × Bool :=
  if 0 < relativeNoise then
    let sigma := max (pooledSpreadSquared candidate c base b) (relativeNoise^2)
    (ratio^2*sigma*(1/candidate.length+1/base.length),some declaredNoises,true)
  else
    let (error,degrees) := welch candidate c base b
    let noise := ratio^2*error
    (noise,studentCritical degrees,MinSamplesWithoutFloor ≤ min candidate.length base.length && 0 < noise)

/-- The verdict on a gain, of samples whose noise is known or not, or too few to know. -/
def weigh (gain noiseSquared : ℚ) (critical : Option ℚ) (known few : Bool) : VerdictKind × InconclusiveReason :=
  if !known && few then (.inconclusive,.tooFewSamples)
  else if !known then (.inconclusive,.constantSamples)
  else if exceeds gain critical noiseSquared then (.better,.none_)
  else if exceeds (-gain) critical noiseSquared then (.worse,.none_)
  else (.withinNoise,.none_)

def Compare (x : CompareInput) : Except Failure Verdict :=
  match validateCompare x with
  | some failure => .error failure
  | none =>
    let candidate := sorted (x.candidate.map numberOf)
    let base := sorted (x.base.map numberOf)
    let c := Headline candidate
    let b := Headline base
    if b = 0 then .error (failf .invalidInput "the base mean is zero, so a ratio over it means nothing")
    else
      let ratio := c/b
      let m := candidate.length
      let n := base.length
      let (noise,critical,known) := noiseOf x.relativeNoise ratio candidate c base b
      let gain := if x.direction = .minimize then 1-ratio else ratio-1
      let (kind,reason) := weigh gain noise critical known (min m n < MinSamplesWithoutFloor)
      .ok { kind := kind, reason := reason, candidateSamples := m, baseSamples := n, candidateMean := c, baseMean := b
            ratio := ratio, noiseSquared := noise }

theorem weigh_zero_ne_better (noiseSquared : ℚ) (critical : Option ℚ) (known few : Bool) :
    (weigh 0 noiseSquared critical known few).1 ≠ .better := by
  have hexceeds : exceeds 0 critical noiseSquared = false := by
    unfold exceeds
    cases critical <;> simp
  unfold weigh
  rw [hexceeds]
  split_ifs <;> simp_all

theorem Compare_self {x : CompareInput} {v : Verdict} (h : Compare x = .ok v) (hself : x.candidate = x.base) :
    v.kind ≠ .better := by
  unfold Compare at h
  split at h
  · cases h
  rw [hself] at h
  dsimp only at h
  by_cases hzero : Headline (sorted (x.base.map numberOf)) = 0
  · rw [if_pos hzero] at h
    cases h
  -- The means are the same, so there is no gain.
  have hgain : (if x.direction = .minimize then 1-(1 : ℚ) else 1-1) = 0 := by split_ifs <;> ring
  rw [if_neg hzero,div_self hzero,hgain] at h
  obtain rfl := Except.ok.inj h
  exact weigh_zero_ne_better _ _ _ _

/-- A result with the measurement it is. -/
structure Measurement extends Result where
  measure : MeasureOutcome
  deriving DecidableEq

structure ObjectiveVerdict where
  metric : Metric
  verdict : Verdict
  deriving DecidableEq

def CombineObjectives (verdicts : List ObjectiveVerdict) : VerdictKind × InconclusiveReason :=
  match verdicts.find? fun v => v.verdict.kind = .inconclusive with
  | some v => (.inconclusive,v.verdict.reason)
  | none =>
    let better := verdicts.any fun v => v.verdict.kind = .better
    let worse := verdicts.any fun v => v.verdict.kind = .worse
    if better && worse then (.tradeoff,.none_)
    else if better then (.better,.none_)
    else if worse then (.worse,.none_)
    else (.withinNoise,.none_)

def shortCommit (c : Commit) : String := String.ofList (c.toList.take 12)

def samplesOf (results : List Measurement) : List Sample := results.flatMap fun r => r.measure.samples

def observationOf (r : Measurement) (name : String) : Option (List Sample) :=
  (r.measure.observations.find? fun o => o.name = name && !o.values.isEmpty).map Observation.values

def objectiveSamples (results : List Measurement) (m scored : Metric) : Except Failure (List Sample) :=
  if m.name = scored.name then .ok (samplesOf results)
  else
    match results.find? fun r => (observationOf r m.name).isNone with
    | some r =>
      let job := r.job
      let commit := shortCommit r.commit
      let name := m.name.quote
      .error (failf .notMeasured s!"the measurement {job} of commit {commit} has no samples of the objective {name}")
    | none => .ok (results.flatMap fun r => (observationOf r m.name).getD [])

def compareObjective (candidate base : List Measurement) (o : Objectives) (scored m : Metric) :
    Except Failure ObjectiveVerdict := do
  let c ← objectiveSamples candidate m scored
  let b ← objectiveSamples base m scored
  match Compare { direction := m.direction, candidate := c, base := b, relativeNoise := o.NoiseFor m.name } with
  | .error f =>
    let name := m.name.quote
    let message := f.message
    .error (failf f.kind s!"objective {name}: {message}")
  | .ok v => .ok ⟨m,v⟩

def compareObjectives (candidate base : List Measurement) (o : Objectives) (scored : Metric) :
    Except Failure (Verdict × List ObjectiveVerdict) := do
  let verdicts ← o.metrics.mapM (compareObjective candidate base o scored)
  let (kind,reason) := CombineObjectives verdicts
  return ({ kind := kind, reason := reason
            candidateSamples := (samplesOf candidate).length, baseSamples := (samplesOf base).length },verdicts)

structure MeasuredComparison where
  /-- Says how the environments differ, when they do. -/
  mixedEnvironments : Option String := none
  environment : Fingerprint
  verdict : Verdict
  objectives : List ObjectiveVerdict := []

def fingerprintText (f : Fingerprint) : String :=
  f.kind.text ++ "/" ++ f.backend.text ++ (if f.imageDigest = "" then "" else "@" ++ f.imageDigest) ++
    String.join ((Encoder.names f).map fun name => " " ++ name ++ "=" ++ Encoder.fact f name)

def describeMix (results : List Measurement) : String :=
  let distinct := results.foldl (fun seen r =>
    if seen.any r.environment.Equal then seen else seen ++ [r.environment]) ([] : List Fingerprint)
  let names := " and in ".intercalate ((distinct.map fingerprintText).insertionSort (· ≤ ·))
  s!"the measurements were taken in {names}; compare and promote do not mix environments, so measure both sides in one"

def mismatch (first : Measurement) (results : List Measurement) : InconclusiveReason :=
  if results.any fun r => r.taskVersion ≠ first.taskVersion then .taskVersionMismatch
  else if results.any fun r => r.measure.metric ≠ first.measure.metric then .metricMismatch
  else if results.any fun r => r.measure.objectives ≠ first.measure.objectives then .metricMismatch
  else .none_

/-- Compares two sets of measurements; `first` is the first of the candidate's. -/
def compareMeasurements (first : Measurement) (candidate base : List Measurement) (relativeNoise : ℚ) :
    Except Failure MeasuredComparison :=
  let all := candidate ++ base
  let samples : Verdict := { kind := .inconclusive, candidateSamples := (samplesOf candidate).length
                             baseSamples := (samplesOf base).length }
  if all.any fun r => !r.environment.Equal first.environment then
    .ok { mixedEnvironments := some (describeMix all), environment := first.environment, verdict := samples }
  else if mismatch first all ≠ .none_ then
    .ok { environment := first.environment, verdict := { samples with reason := mismatch first all } }
  else if first.measure.objectives.Pareto then
    match compareObjectives candidate base first.measure.objectives first.measure.metric with
    | .error f => .error f
    | .ok (verdict,objectives) => .ok { environment := first.environment, verdict := verdict, objectives := objectives }
  else
    match Compare { direction := first.measure.metric.direction, candidate := samplesOf candidate, base := samplesOf base
                    relativeNoise := relativeNoise } with
    | .error f => .error f
    | .ok verdict => .ok { environment := first.environment, verdict := verdict }

theorem CombineObjectives_ne_better {verdicts : List ObjectiveVerdict} (h : ∀ v ∈ verdicts, v.verdict.kind ≠ .better) :
    (CombineObjectives verdicts).1 ≠ .better := by
  have hbetter : (verdicts.any fun v => v.verdict.kind = .better) = false := by
    rw [List.any_eq_false]
    intro v hv
    simpa using h v hv
  unfold CombineObjectives
  split
  · nofun
  · simp only [hbetter,Bool.false_and,Bool.false_eq_true,if_false]
    split_ifs <;> nofun

theorem compareObjective_self {l : List Measurement} {o : Objectives} {scored m : Metric} {v : ObjectiveVerdict}
    (h : compareObjective l l o scored m = .ok v) : v.verdict.kind ≠ .better := by
  unfold compareObjective at h
  cases hs : objectiveSamples l m scored with
  | error f =>
    rw [hs] at h
    cases h
  | ok samples =>
    rw [hs] at h
    change (match Compare _ with | .error f => _ | .ok v => _) = _ at h
    split at h
    · cases h
    · rename_i verdict hverdict
      obtain rfl := Except.ok.inj h
      exact Compare_self hverdict rfl

theorem mem_of_mapM_ok {α β ε : Type} {f : α → Except ε β} {l : List α} {l' : List β} (h : l.mapM f = .ok l') :
    ∀ b ∈ l', ∃ a ∈ l, f a = .ok b := by
  induction l generalizing l' with
  | nil =>
    obtain rfl := Except.ok.inj h
    nofun
  | cons a l ih =>
    rw [List.mapM_cons] at h
    cases ha : f a with
    | error e =>
      rw [ha] at h
      cases h
    | ok b =>
      cases hl : l.mapM f with
      | error e =>
        rw [ha,hl] at h
        cases h
      | ok bs =>
        rw [ha,hl] at h
        obtain rfl := Except.ok.inj h
        intro b' hb'
        rcases List.mem_cons.mp hb' with rfl | hb'
        · exact ⟨a,List.mem_cons_self,ha⟩
        · obtain ⟨a',ha',hf⟩ := ih hl b' hb'
          exact ⟨a',List.mem_cons_of_mem _ ha',hf⟩

theorem compareObjectives_self {l : List Measurement} {o : Objectives} {scored : Metric} {v : Verdict}
    {verdicts : List ObjectiveVerdict} (h : compareObjectives l l o scored = .ok (v,verdicts)) : v.kind ≠ .better := by
  unfold compareObjectives at h
  cases hverdicts : o.metrics.mapM (compareObjective l l o scored) with
  | error f =>
    rw [hverdicts] at h
    cases h
  | ok found =>
    rw [hverdicts] at h
    obtain ⟨rfl,rfl⟩ := Prod.mk.inj (Except.ok.inj h)
    refine CombineObjectives_ne_better fun v hv => ?_
    obtain ⟨m,_,hm⟩ := mem_of_mapM_ok hverdicts v hv
    exact compareObjective_self hm

theorem compareMeasurements_self {first : Measurement} {l : List Measurement} {noise : ℚ} {r : MeasuredComparison}
    (h : compareMeasurements first l l noise = .ok r) : r.verdict.kind ≠ .better := by
  unfold compareMeasurements at h
  dsimp only at h
  split_ifs at h
  · obtain rfl := Except.ok.inj h
    nofun
  · obtain rfl := Except.ok.inj h
    nofun
  · split at h
    · cases h
    · rename_i verdict objectives hverdict
      obtain rfl := Except.ok.inj h
      exact compareObjectives_self hverdict
  · split at h
    · cases h
    · rename_i verdict hverdict
      obtain rfl := Except.ok.inj h
      exact Compare_self hverdict rfl

end Vibesys.Promotion
