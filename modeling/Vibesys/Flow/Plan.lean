import Vibesys.Core.Key

/-!
# The plan of a check or a measure job

What a job needs to run, when a plan can be followed, and the result that is saved for a job that passed.
Numbers of objectives are finite.
-/
namespace Vibesys.Flow
open Vibesys.Core

/-- The digits of `value/10^places` after the point, with the point, without the zeros they end in. -/
def fractionText (value places : ℕ) : String :=
  let digits := (List.range places).reverse.map fun i => Nat.digitChar (value/10^i%10)
  let kept := (digits.reverse.dropWhile (· == '0')).reverse
  if kept.isEmpty then "" else String.ofList ('.' :: kept)

/-- A duration as a message shows it, such as `1m30s` or `1.5ms`. -/
def durationText (d : Duration) : String :=
  let n := d.natAbs
  let sign := if d < 0 then "-" else ""
  let shown (places : ℕ) (value : ℕ) (unit : String) := toString (value/10^places) ++ fractionText value places ++ unit
  if n = 0 then "0s"
  else if n < 1000 then sign ++ toString n ++ "ns"
  else if n < 1000000 then sign ++ shown 3 n "µs"
  else if n < 1000000000 then sign ++ shown 6 n "ms"
  else
    let seconds := n/1000000000
    let rest := shown 9 (n-seconds/60*60000000000) "s"
    if seconds < 60 then sign ++ rest
    else if seconds < 3600 then sign ++ toString (seconds/60) ++ "m" ++ rest
    else sign ++ toString (seconds/3600) ++ "h" ++ toString (seconds/60%60) ++ "m" ++ rest

def ProjectRootPlaceholder : String := "$\x7bPROJECT_ROOT\x7d"

def ResolveProjectRoot (argv : List String) (root : String) : List String :=
  argv.map fun a => a.replace ProjectRootPlaceholder root

structure Command where
  argv : List String := []
  timeout : Duration := 0
  deriving DecidableEq

def Command.Resolve (c : Command) (root : String) : List String := ResolveProjectRoot c.argv root

/-- How a benchmark reports what it measured. -/
structure Contract where
  protocol2 : Bool := false
  jsonArgument : String := ""
  field : String := ""
  deriving DecidableEq

def OutputFlagProtocol2 : String := "--vs-output"

def Contract.OutputFlag (r : Contract) : String := if r.protocol2 then OutputFlagProtocol2 else r.jsonArgument

structure CandidateBuild where
  dockerfile : String
  context : String
  allowedBases : List String := []
  deriving DecidableEq

structure Candidate where
  build : CandidateBuild
  serve : List String
  ready : String
  startupTimeout : Duration
  deriving DecidableEq

structure Plan where
  kind : JobKind
  task : String
  taskVersion : String
  key : JobKey
  environment : Fingerprint
  build : Option Command := none
  check : Command := {}
  benchmark : Command := {}
  result : Contract := {}
  metric : Metric := ⟨"",.unknown "",""⟩
  others : List Metric := []
  objectives : Objectives := {}
  samples : ℕ := 0
  checkPass : JobID := ""
  candidate : Option Candidate := none
  deriving DecidableEq

def directed (m : Metric) : Bool := m.direction = .maximize || m.direction = .minimize

def validCommand (name : String) (c : Command) : Option String :=
  let limit := durationText c.timeout
  if c.argv.headD "" = "" then some s!"the {name} command has no program"
  else if c.timeout ≤ 0 then some s!"the {name} command has no positive time limit ({limit})"
  else none

/-- The first objective that is unnamed, named twice or has no direction, of those after `seen`. -/
def badObjective (seen : List String) : List Metric → Option String
  | [] => none
  | m :: ms => if m.name = "" ∨ m.name ∈ seen ∨ !directed m then some m.name else badObjective (m.name :: seen) ms

/-- Why the first noise floor that cannot be used cannot, of those after `declared`. -/
def badNoise (named declared : List String) : List ObjectiveNoise → Option String
  | [] => none
  | n :: ns =>
    let name := n.name.quote
    let floor := toString n.relativeNoise
    if n.name ∉ named ∨ n.name ∈ declared then
      some s!"the noise floor of {name} names no objective, or names one twice"
    else if ¬(0 ≤ n.relativeNoise ∧ n.relativeNoise < 1) then
      some s!"the relative noise {floor} of the objective {name} is not at least 0 and less than 1"
    else badNoise named (n.name :: declared) ns

def validObjectives (scored : Metric) (result : Contract) (o : Objectives) : Option String :=
  let floor := toString o.relativeNoise
  let scoredName := scored.name.quote
  if o.metrics = [] ∧ o.relativeNoise = 0 ∧ o.noise = [] then none
  else if !o.Pareto ∨ !result.protocol2 then
    some "a multi-objective measure job has more than one objective, read from an evaluator result stream"
  else if o.relativeNoise < 0 ∨ 1 ≤ o.relativeNoise then
    some s!"the objectives' relative noise {floor} is not at least 0 and less than 1"
  else match badObjective [] o.metrics with
    | some name =>
      let shown := name.quote
      some s!"the objective {shown} is unnamed, named twice or has no direction"
    | none =>
      if scored ∉ o.metrics then some s!"the scored metric {scoredName} is not one of the objectives"
      else badNoise (o.metrics.map Metric.name) [] o.noise

namespace Plan

def RunsCheck (p : Plan) : Bool := p.kind = .check || p.checkPass = ""

/-- What a plan's kind asks of it. -/
def badKind (p : Plan) : Option String :=
  match p.kind with
  | .check =>
    if p.samples ≠ 0 ∨ p.checkPass ≠ "" then some "a check job has no samples and links no pass" else none
  | .measure =>
    if p.samples = 0 then some "a measure job takes at least one sample"
    else if p.benchmark.argv = [] then some "a measure job has a benchmark command"
    else if p.result.OutputFlag = "" ∨ (!p.result.protocol2 ∧ p.result.field = "") then
      some "a measure job says how its benchmark reports a result"
    else if p.metric.name = "" ∨ !directed p.metric then some "a measure job has a metric with a direction"
    else validObjectives p.metric p.result p.objectives
  | .command => some "kind \"command\" is neither check nor measure"

def badCandidate (p : Plan) (c : Candidate) : Option String :=
  let ready := c.ready.quote
  let startup := durationText c.startupTimeout
  if p.build.isSome then
    some "a job of a task of two images builds its candidate from the candidate's Dockerfile, and has no build command"
  else if c.build.dockerfile = "" ∨ c.build.context = "" then
    some "the candidate's image has a Dockerfile and a build context"
  else if c.serve.headD "" = "" then some "the candidate's server has a command"
  else if c.ready.toList.head? ≠ some '/' then some s!"the candidate's readiness path {ready} is not an absolute HTTP path"
  else if c.startupTimeout ≤ 0 then some s!"the candidate's server has no positive startup time ({startup})"
  else none

/-- Why the plan cannot be followed, if it cannot. -/
def bad (p : Plan) : Option String :=
  p.badKind.or <|
  (if p.task = "" ∨ p.taskVersion = "" ∨ p.key = "" then
    some "the task, its version and the job key are all required" else none).or <|
  (if p.RunsCheck then validCommand "check" p.check else none).or <|
  (if p.kind = .measure then validCommand "benchmark" p.benchmark else none).or <|
  (p.build.bind (validCommand "build")).or (p.candidate.bind p.badCandidate)

def Validate (p : Plan) : Option Failure := p.bad.map fun why => failf .invalidInput ("plan: " ++ why)

end Plan

structure Findings where
  checkTook : Duration := 0
  samples : List ℚ := []
  observations : List Observation := []
  machine : MachineFacts := {}
  load : MachineLoad := {}
  candidateImage : String := ""
  deriving DecidableEq

namespace Plan

def withUnits (p : Plan) (observed : List Observation) : List Observation :=
  observed.map fun o => ((p.others.find? fun m => m.name = o.name).map fun m => { o with unit := m.unit }).getD o

def Record (p : Plan) (job : JobID) (commit : Commit) (f : Findings) (at_ : Time) : Result where
  job := job
  key := p.key
  task := p.task
  taskVersion := p.taskVersion
  commit := commit
  schemaVersion := SchemaVersion
  environment := p.environment
  machine := f.machine
  load := f.load
  recordedAt := at_
  candidateImage := f.candidateImage
  outcome :=
    if p.kind = .check then .check f.checkTook
    else .measure { metric := p.metric, samples := f.samples.map .finite, observations := p.withUnits f.observations
                    checkJob := if p.RunsCheck then job else p.checkPass, objectives := p.objectives }

/-- What a valid plan is known for: a check plan has no samples and runs its check; a measure plan has
samples and a metric that is named and directed; and a plan of two images has no build command. -/
structure Valid (p : Plan) : Prop where
  kind : p.kind = .check ∧ p.samples = 0 ∨ p.kind = .measure ∧ p.samples ≠ 0 ∧ p.metric.name ≠ ""
    ∧ directed p.metric = true
  images : p.build = none ∨ p.candidate = none
  stream : p.kind = .measure → p.objectives.metrics ≠ [] → p.result.protocol2 = true

theorem validObjectives_stream {scored : Metric} {result : Contract} {o : Objectives}
    (h : validObjectives scored result o = none) (hmetrics : o.metrics ≠ []) : result.protocol2 = true := by
  unfold validObjectives at h
  dsimp only at h
  rw [if_neg (fun hnone => hmetrics hnone.1)] at h
  obtain ⟨hpareto,_⟩ := of_refusal h
  simpa using not_or.mp hpareto |>.2

theorem badKind_none {p : Plan} (h : p.badKind = none) :
    (p.kind = .check ∧ p.samples = 0 ∨ p.kind = .measure ∧ p.samples ≠ 0 ∧ p.metric.name ≠ "" ∧ directed p.metric = true)
      ∧ (p.kind = .measure → p.objectives.metrics ≠ [] → p.result.protocol2 = true) := by
  unfold badKind at h
  cases hkind : p.kind <;> rw [hkind] at h
  case check =>
    obtain ⟨hsamples,_⟩ := of_refusal h
    exact ⟨.inl ⟨rfl,not_not.mp (not_or.mp hsamples).1⟩,by simp⟩
  case command => cases h
  case measure =>
    obtain ⟨hsamples,h⟩ := of_refusal h
    obtain ⟨_,h⟩ := of_refusal h
    obtain ⟨_,h⟩ := of_refusal h
    obtain ⟨hmetric,h⟩ := of_refusal h
    obtain ⟨hname,hdirected⟩ := not_or.mp hmetric
    exact ⟨.inr ⟨rfl,hsamples,hname,by simpa using hdirected⟩,fun _ => validObjectives_stream h⟩

theorem valid_of_Validate {p : Plan} (h : p.Validate = none) : p.Valid := by
  have hbad : p.bad = none := Option.map_eq_none_iff.mp h
  unfold bad at hbad
  obtain ⟨hkind,h⟩ := Option.or_eq_none_iff.mp hbad
  obtain ⟨_,h⟩ := Option.or_eq_none_iff.mp h
  obtain ⟨_,h⟩ := Option.or_eq_none_iff.mp h
  obtain ⟨_,h⟩ := Option.or_eq_none_iff.mp h
  obtain ⟨_,hcandidate⟩ := Option.or_eq_none_iff.mp h
  obtain ⟨hof,hstream⟩ := badKind_none hkind
  refine ⟨hof,?_,hstream⟩
  cases hc : p.candidate with
  | none => exact .inr rfl
  | some c =>
    rw [hc,Option.bind_some,badCandidate] at hcandidate
    obtain ⟨hbuild,_⟩ := of_refusal hcandidate
    exact .inl (by simpa using hbuild)

theorem Valid.checkMeasurement {p : Plan} (hmeasure : p.samples ≠ 0 ∧ p.metric.name ≠ "" ∧ directed p.metric = true)
    {samples : List ℚ} (hsamples : samples.length = p.samples) {job : JobID} (hjob : job ≠ "")
    (os : List Observation) (o : Objectives) :
    Core.checkMeasurement ⟨p.metric,samples.map .finite,os,job,o⟩ = none := by
  obtain ⟨hsome,hname,hdirected⟩ := hmeasure
  have hfinite : ((samples.map Sample.finite).zipIdx.find? fun x => !x.1.isFinite) = none := by
    rw [List.find?_eq_none]
    rintro ⟨sample,i⟩ hx
    obtain ⟨value,_,rfl⟩ := List.mem_map.mp (List.fst_mem_of_mem_zipIdx hx)
    simp [Sample.isFinite]
  have hdirection : ¬(p.metric.direction ≠ .maximize ∧ p.metric.direction ≠ .minimize) := by
    simpa [directed,or_iff_not_imp_left] using hdirected
  have hnonempty : samples.map Sample.finite ≠ [] := by
    intro hnil
    rw [List.map_eq_nil_iff] at hnil
    rw [hnil] at hsamples
    exact hsome hsamples.symm
  unfold Core.checkMeasurement
  rw [if_neg hname,if_neg hdirection,if_neg hnonempty,if_neg hjob,hfinite]
  rfl

theorem Valid.checkSavedResult {p : Plan} (hp : p.Valid) {f : Findings} (hsamples : f.samples.length = p.samples) {j : Job}
    (hid : j.id ≠ "") (hkey : j.key = p.key) (henvironment : j.environment = some p.environment) (at_ : Time) :
    Core.checkSavedResult j p.kind (p.Record j.id j.spec.commit f at_) = none := by
  have hequal : p.environment.Equal p.environment = true := by simp [Fingerprint.Equal]
  have hjob : (p.Record j.id j.spec.commit f at_).job = j.id := rfl
  have hcommit : (p.Record j.id j.spec.commit f at_).commit = j.spec.commit := rfl
  have hrecorded : (p.Record j.id j.spec.commit f at_).key = j.key := hkey.symm
  have hschema : (p.Record j.id j.spec.commit f at_).schemaVersion = SchemaVersion := rfl
  unfold Core.checkSavedResult
  rw [if_neg (not_not.mpr hjob),if_neg (not_not.mpr hcommit),if_neg (not_not.mpr hrecorded),
    if_neg (not_not.mpr hschema),if_neg (by simpa [henvironment,Record] using hequal)]
  rcases hp.kind with ⟨hkind,_⟩ | ⟨hkind,hmeasure⟩
  · simp [Record,hkind]
  · have hlinked : (if p.RunsCheck then j.id else p.checkPass) ≠ "" := by
      split_ifs with hruns
      · exact hid
      · simp [RunsCheck,hkind] at hruns
        exact hruns
    simpa [Record,hkind] using Valid.checkMeasurement hmeasure hsamples hlinked _ _

def succeeds (p : Plan) (j : Job) (f : Findings) (at_ : Time) (exitCode : Option ℤ) : Transition :=
  { job := j.id, from_ := .running, to_ := .succeeded, at_ := at_, exitCode := exitCode
    result := some (p.Record j.id j.spec.commit f at_) }

/-- The result of a job that passed is accepted, as the result of that job running under the plan's key and
environment. -/
theorem Valid.accepted {p : Plan} (hp : p.Valid) {f : Findings} (hsamples : f.samples.length = p.samples) {j : Job}
    (hid : j.id ≠ "") (hstate : j.state = .running) (hkind : j.spec.settings = some p.kind) (hkey : j.key = p.key)
    (henvironment : j.environment = some p.environment) {at_ : Time} (hat : at_ ≠ 0) (exitCode : Option ℤ) :
    j.Apply (p.succeeds j f at_ exitCode) = .ok (j.moved (p.succeeds j f at_ exitCode)) := by
  have hcommand : p.kind ≠ .command := by
    rcases hp.kind with ⟨hkind,_⟩ | ⟨hkind,_⟩ <;> simp [hkind]
  have hplaced : misplacedEffect j p.kind (p.succeeds j f at_ exitCode) = none := by
    simp [misplacedEffect,succeeds,hcommand]
  have hagrees : checkJobDisagrees (p.succeeds j f at_ exitCode) (p.Record j.id j.spec.commit f at_) = none := by
    unfold checkJobDisagrees
    split
    · exact if_neg fun hdisagrees => hdisagrees.1 rfl
    · rfl
  have heffects : checkEffects j p.kind (p.succeeds j f at_ exitCode) = none := by
    have hsaved := hp.checkSavedResult hsamples hid hkey henvironment at_
    have hresult : (p.succeeds j f at_ exitCode).result = some (p.Record j.id j.spec.commit f at_) := rfl
    unfold checkEffects
    rw [hplaced,hresult,Option.bind_some,hsaved,hagrees]
    rfl
  have hjob : (p.succeeds j f at_ exitCode).job = j.id := rfl
  have hfrom : (p.succeeds j f at_ exitCode).from_ = j.state := hstate.symm
  have hmove : (p.succeeds j f at_ exitCode).from_.CanMoveTo (p.succeeds j f at_ exitCode).to_ = true := rfl
  unfold Job.Apply
  rw [if_neg (not_not.mpr hjob),if_neg (not_not.mpr hfrom),if_neg (by simp [hmove]),
    if_neg (by simpa [Time.IsZero,succeeds] using hat),hkind]
  simp only [heffects]

end Plan
end Vibesys.Flow
