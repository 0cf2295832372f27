import Mathlib.Data.Finmap
import Mathlib.Data.Finset.Sort
import Mathlib.Data.Rat.Defs
import Mathlib.Data.String.Basic

/-!
# Jobs and the transitions a store applies to them

Times are integers counting nanoseconds, with zero for Go's zero time. The parts of a job
that no transition reads (notes, plans, submitters) are left out.
-/
namespace Vibesys.Core

abbrev Time := ℤ
abbrev Duration := ℤ
abbrev JobID := String
abbrev RunID := String
abbrev JobKey := String
abbrev Commit := String

def Time.IsZero (t : Time) : Bool := t == 0

def sortedKeys {β : Type} (m : Finmap fun _ : String => β) : List String := m.keys.sort (· ≤ ·)

inductive FailureKind
  | invalidInput | notFound | conflict | unavailable | incompatible | environmentMismatch
  | notMeasured | internal | daemonOtherBuild
  deriving DecidableEq, Repr

structure Failure where
  kind : FailureKind
  message : String
  deriving DecidableEq, Repr

def failf (kind : FailureKind) (message : String) : Failure := ⟨kind,message⟩

inductive JobKind
  | check | command | measure
  deriving DecidableEq, Repr

def JobKind.text : JobKind → String
  | .check => "check"
  | .command => "command"
  | .measure => "measure"

inductive JobState
  | queued | running | succeeded | failed | cancelled | lost
  deriving DecidableEq, Repr

namespace JobState

def text : JobState → String
  | queued => "queued"
  | running => "running"
  | succeeded => "succeeded"
  | failed => "failed"
  | cancelled => "cancelled"
  | lost => "lost"

/-- The job state machine: the states a job in this state can move to. -/
def next : JobState → List JobState
  | queued => [running,cancelled,failed]
  | running => [succeeded,failed,cancelled,lost,queued]
  | _ => []

def CanMoveTo (s to_ : JobState) : Bool := s.next.contains to_

def Final (s : JobState) : Bool := s.next.isEmpty

end JobState

/-- How a supervisor was proved gone. Both causes are valid ones, so `CutCause.Valid` of the
source is the type itself. -/
inductive CutCause
  | supervisorDied | rebooted
  deriving DecidableEq, Repr

def CutCause.text : CutCause → String
  | .supervisorDied => "supervisor died"
  | .rebooted => "machine restarted"

inductive Cut
  | beforeStart (cause : CutCause)
  | midCommand (cause : CutCause)
  deriving DecidableEq, Repr

def Cut.Cause : Cut → CutCause
  | .beforeStart c => c
  | .midCommand c => c

inductive RerunPolicy
  | beforeStartOnly | afterProvenDeath
  deriving DecidableEq, Repr

def rerunPolicyOf : JobKind → RerunPolicy
  | .check => .afterProvenDeath
  | .measure => .afterProvenDeath
  | .command => .beforeStartOnly

def MaxAttempts : ℕ := 3

structure PastAttempt where
  startedAt : Time
  endedAt : Time
  cut : Cut
  deriving DecidableEq, Repr

inductive EnvironmentKind
  | auto | host | docker
  deriving DecidableEq, Repr

def EnvironmentKind.text : EnvironmentKind → String
  | .auto => ""
  | .host => "host"
  | .docker => "docker"

inductive BackendKind
  | cpu | cuda | rocm | metal | trainium | unknown (name : String)
  deriving DecidableEq, Repr

def BackendKind.Known : BackendKind → Bool
  | .unknown _ => false
  | _ => true

def BackendKind.text : BackendKind → String
  | .cpu => "cpu"
  | .cuda => "cuda"
  | .rocm => "rocm"
  | .metal => "metal"
  | .trainium => "trainium"
  | .unknown name => name

/-- The environment a result was taken in. The facts are a finite map, as in the source. -/
structure Fingerprint where
  kind : EnvironmentKind
  backend : BackendKind
  imageDigest : String
  facts : Finmap (fun _ : String => String)
  deriving DecidableEq

namespace Fingerprint

/-- The part that identifies the environment: for docker everything but the facts. -/
def identity (f : Fingerprint) : Fingerprint :=
  if f.kind = .docker then { f with facts := ∅ } else f

def Equal (f other : Fingerprint) : Bool := f.identity = other.identity

def hexDigit (c : Char) : Bool := ('0' ≤ c && c ≤ '9') || ('a' ≤ c && c ≤ 'f')

/-- The pattern `^sha256:[0-9a-f]{64}$`. -/
def isImageDigest (s : String) : Bool :=
  s.toList.take 7 == "sha256:".toList && (s.toList.drop 7).length == 64 &&
    (s.toList.drop 7).all hexDigit

/-- Why the fingerprint is not of an environment a job ran in, if it is not. -/
def validatePinned (f : Fingerprint) : Option Failure :=
  let backend :=
    if f.backend.Known then none
    else some (failf .invalidInput s!"environment: backend {f.backend.text.quote} is not a known backend")
  match f.kind with
  | .host =>
    if f.imageDigest ≠ "" then
      some (failf .invalidInput
        s!"environment: a host environment has no image digest, got {f.imageDigest.quote}")
    else backend
  | .docker =>
    if !isImageDigest f.imageDigest then
      some (failf .invalidInput
        s!"environment: a docker environment pins an image digest (sha256:<64 hex digits>), got {f.imageDigest.quote}")
    else backend
  | .auto => some (failf .invalidInput
      s!"environment: kind {f.kind.text.quote} is not a pinned host or docker environment")

end Fingerprint

/-- A floating-point sample, as far as a transition tells samples apart. -/
inductive Sample
  | finite (value : ℚ)
  | nan
  | inf (negative : Bool)
  deriving DecidableEq

def Sample.isFinite : Sample → Bool
  | .finite _ => true
  | _ => false

def Sample.text : Sample → String
  | .finite value => toString value
  | .nan => "NaN"
  | .inf negative => if negative then "-Inf" else "+Inf"

inductive Direction
  | maximize | minimize | unknown (name : String)
  deriving DecidableEq, Repr

def Direction.text : Direction → String
  | .maximize => "maximize"
  | .minimize => "minimize"
  | .unknown name => name

structure Metric where
  name : String
  direction : Direction
  unit : String
  deriving DecidableEq, Repr

structure ObjectiveNoise where
  name : String
  relativeNoise : ℚ
  deriving DecidableEq

structure Objectives where
  metrics : List Metric := []
  relativeNoise : ℚ := 0
  noise : List ObjectiveNoise := []
  deriving DecidableEq

namespace Objectives

def NoiseFor (o : Objectives) (name : String) : ℚ :=
  ((o.noise.find? fun n => n.name = name).map ObjectiveNoise.relativeNoise).getD o.relativeNoise

def Pareto (o : Objectives) : Bool := 1 < o.metrics.length

end Objectives

structure Observation where
  name : String
  values : List Sample
  unit : String := ""
  deriving DecidableEq

structure MeasureOutcome where
  metric : Metric
  samples : List Sample
  observations : List Observation := []
  checkJob : JobID
  objectives : Objectives := {}
  deriving DecidableEq

/-- What a saved result recorded; `none_` is a result without an outcome. -/
inductive ResultOutcome
  | check (duration : Duration)
  | measure (outcome : MeasureOutcome)
  | none_
  deriving DecidableEq

def ResultOutcome.isCheck : ResultOutcome → Bool
  | .check _ => true
  | _ => false

structure MachineFacts where
  hostID : String := ""
  os : String := ""
  arch : String := ""
  cpuModel : String := ""
  logicalCPUs : ℕ := 0
  memoryBytes : ℕ := 0
  deriving DecidableEq

structure MachineLoad where
  sampledAt : Time := 0
  loadAverage1m : Sample := .finite 0
  cpuBusyFraction : Sample := .finite 0
  memoryAvailableBytes : ℕ := 0
  deriving DecidableEq

structure Result where
  job : JobID
  key : JobKey
  task : String
  taskVersion : String
  commit : Commit
  schemaVersion : ℕ
  environment : Fingerprint
  machine : MachineFacts := {}
  load : MachineLoad := {}
  recordedAt : Time
  outcome : ResultOutcome
  candidateImage : String := ""
  deriving DecidableEq

def Result.measured (r : Result) : Option MeasureOutcome :=
  match r.outcome with
  | .measure m => some m
  | _ => none

def SchemaVersion : ℕ := 1

/-- What a transition reads of a submission: the commit and the kind its settings have.
`none` is a submission without settings. -/
structure JobSpec where
  commit : Commit
  settings : Option JobKind
  deriving DecidableEq, Repr

structure Job where
  id : JobID
  spec : JobSpec
  state : JobState
  key : JobKey
  environment : Option Fingerprint
  startedAt : Option Time
  finishedAt : Option Time
  cancelReason : String
  exitCode : Option ℤ
  resultJob : JobID
  checkJob : JobID
  attempts : List PastAttempt
  deriving DecidableEq

structure Transition where
  job : JobID
  from_ : JobState
  to_ : JobState
  at_ : Time
  environment : Option Fingerprint := none
  key : JobKey := ""
  result : Option Result := none
  exitCode : Option ℤ := none
  cancelReason : String := ""
  checkJob : JobID := ""
  cut : Option Cut := none
  deriving DecidableEq

def checkMeasurement (m : MeasureOutcome) : Option Failure :=
  if m.metric.name = "" then some (failf .invalidInput "result: the metric has no name")
  else if m.metric.direction ≠ .maximize ∧ m.metric.direction ≠ .minimize then
    some (failf .invalidInput s!"result: metric {m.metric.name.quote} has direction {m.metric.direction.text.quote}, not \"maximize\" or \"minimize\"")
  else if m.samples = [] then some (failf .invalidInput "result: a measurement has no samples")
  else if m.checkJob = "" then
    some (failf .invalidInput
      "result: a measurement names no check pass, and one is saved only for a check that passed")
  else (m.samples.zipIdx.find? fun x => !x.1.isFinite).map fun x =>
    failf .invalidInput s!"result: sample {x.2} is not finite ({x.1.text})"

def checkSavedResult (j : Job) (kind : JobKind) (r : Result) : Option Failure :=
  if r.job ≠ j.id then
    some (failf .invalidInput s!"result: of job {r.job.quote}, saved for job {j.id.quote}")
  else if r.commit ≠ j.spec.commit then
    some (failf .invalidInput s!"result: of commit {r.commit.quote}, saved for a job on {j.spec.commit.quote}")
  else if r.key ≠ j.key then
    some (failf .invalidInput s!"result: key {r.key.quote} is not the job's key {j.key.quote}")
  else if r.schemaVersion ≠ SchemaVersion then
    some (failf .invalidInput s!"result: schema version {r.schemaVersion}, this build writes {SchemaVersion}")
  else if !(j.environment.elim false r.environment.Equal) then
    some (failf .invalidInput "result: not taken in the environment the job pinned")
  else match r.outcome with
    | .check _ =>
      if kind ≠ .check then some (failf .invalidInput s!"result: a check outcome for a {kind.text} job")
      else none
    | .measure m =>
      if kind ≠ .measure then some (failf .invalidInput s!"result: a measure outcome for a {kind.text} job")
      else checkMeasurement m
    | .none_ => some (failf .invalidInput "result: outcome <nil> is neither a check nor a measure outcome")

/-- Whether the check job a transition links disagrees with the one its measurement names. -/
def checkJobDisagrees (t : Transition) (r : Result) : Option Failure :=
  match r.outcome with
  | .measure m =>
    if t.checkJob ≠ "" ∧ t.checkJob ≠ m.checkJob then
      some (failf .invalidInput s!"transition: check job {t.checkJob.quote} disagrees with the measurement's check job {m.checkJob.quote}")
    else none
  | _ => none

/-- The effects that do not belong to the move, in the order the store looks for them. -/
def misplacedEffect (j : Job) (kind : JobKind) (t : Transition) : Option Failure :=
  let no := fun message => some (failf .invalidInput message)
  if t.to_ = .running ∧ t.environment = none then
    no "transition: the move to running pins the environment, and none is set"
  else if t.to_ ≠ .running ∧ t.environment ≠ none then
    no s!"transition: the environment is set only by the move to running, not to {t.to_.text}"
  else if t.key ≠ "" ∧ t.to_ ≠ .running then
    no s!"transition: a key is set only by the move to running, not to {t.to_.text}"
  else if t.key ≠ "" ∧ kind = .command then no "transition: a command job has no key"
  else if t.cancelReason ≠ "" ∧ t.to_ ≠ .cancelled then
    no s!"transition: a cancel reason goes with cancelled, not {t.to_.text}"
  else if t.exitCode ≠ none ∧ t.to_ ≠ .succeeded ∧ t.to_ ≠ .failed then
    no s!"transition: an exit code goes with succeeded or failed, not {t.to_.text}"
  else if t.to_ = .queued ∧ t.cut = none then
    no "transition: the move back to queued says how the attempt was cut off, and none is set"
  else if t.to_ ≠ .queued ∧ t.cut ≠ none then
    no s!"transition: a cut goes with the move back to queued, not {t.to_.text}"
  else if t.to_ = .queued ∧ MaxAttempts ≤ j.attempts.length+1 then
    no s!"transition: job {j.id} had {j.attempts.length+1} attempts, the most it gets, and is not queued again"
  else if t.checkJob ≠ "" ∧ kind ≠ .measure then
    no s!"transition: only a measure job links a check pass, not a {kind.text} job"
  else if t.result ≠ none ∧ t.to_ ≠ .succeeded then
    no s!"transition: a result is saved only by the move to succeeded, not {t.to_.text}"
  else if t.to_ = .succeeded ∧ kind ≠ .command ∧ t.result = none then
    no s!"transition: a {kind.text} job cannot succeed without a result"
  else if t.to_ = .succeeded ∧ kind = .command ∧ t.result ≠ none then
    no "transition: a command job saves no result"
  else none

def checkEffects (j : Job) (kind : JobKind) (t : Transition) : Option Failure :=
  let pinned := if t.to_ = .running then t.environment.bind Fingerprint.validatePinned else none
  pinned.or <| (misplacedEffect j kind t).or <| t.result.bind fun r =>
    (checkSavedResult j kind r).or (checkJobDisagrees t r)

/-- The job in the state a transition moves it to, with what belongs to that state. -/
def Job.entered (j : Job) (t : Transition) : Job :=
  match t.to_ with
  | .running => { j with
      state := .running
      startedAt := some t.at_
      environment := t.environment
      key := if t.key ≠ "" then t.key else j.key }
  | .queued => { j with
      state := .queued
      attempts := j.attempts ++ (t.cut.toList.map fun cut => ⟨j.startedAt.getD 0,t.at_,cut⟩)
      startedAt := none
      environment := none }
  | final => { j with state := final, finishedAt := some t.at_ }

/-- The check pass a job links: the one its measurement names, if it has one. -/
def Job.linked (j : Job) (r : Result) : JobID :=
  match r.outcome with
  | .measure m => m.checkJob
  | _ => j.checkJob

/-- What else a transition records on the job it moved. -/
def Job.noted (j : Job) (t : Transition) : Job :=
  let out := { j with
    exitCode := if t.exitCode.isSome then t.exitCode else j.exitCode
    cancelReason := if t.to_ = .cancelled then t.cancelReason else j.cancelReason
    checkJob := if t.checkJob ≠ "" then t.checkJob else j.checkJob }
  t.result.elim out fun r => { out with resultJob := j.id, checkJob := out.linked r }

/-- The job after a transition whose effects were checked. -/
def Job.moved (j : Job) (t : Transition) : Job := (j.entered t).noted t

/-- `Job.Apply`: the one rule for what a transition may do to a job. -/
def Job.Apply (j : Job) (t : Transition) : Except Failure Job :=
  if t.job ≠ j.id then
    .error (failf .invalidInput s!"transition: for job {t.job.quote}, applied to job {j.id.quote}")
  else if t.from_ ≠ j.state then
    .error (failf .conflict s!"job {j.id} is {j.state.text}, not {t.from_.text}")
  else if !t.from_.CanMoveTo t.to_ then
    .error (failf .invalidInput s!"transition: a job cannot move from {t.from_.text} to {t.to_.text}")
  else if Time.IsZero t.at_ then .error (failf .invalidInput "transition: no time")
  else match j.spec.settings with
    | none => .error (failf .invalidInput s!"job {j.id}: no settings")
    | some kind =>
      match checkEffects j kind t with
      | some failure => .error failure
      | none => .ok (j.moved t)

/-! ## What a transition leaves -/

theorem of_refusal {α : Type} {c : Prop} [Decidable c] {failure : α} {rest : Option α}
    (h : (if c then some failure else rest) = none) : ¬ c ∧ rest = none := by
  split_ifs at h with hc
  exact ⟨hc,h⟩

namespace Job
variable {j j' : Job} {t : Transition}

lemma noted_frame (j : Job) (t : Transition) : (j.noted t).id = j.id ∧ (j.noted t).spec = j.spec ∧
    (j.noted t).state = j.state ∧ (j.noted t).attempts = j.attempts := by
  unfold noted
  cases t.result <;> exact ⟨rfl,rfl,rfl,rfl⟩

/-- What every transition keeps of the job and what it sets; only the move back to queued adds an
attempt that was cut off. -/
lemma moved_frame (j : Job) (t : Transition) :
    (j.moved t).id = j.id ∧ (j.moved t).spec = j.spec ∧ (j.moved t).state = t.to_ ∧ (j.moved t).attempts =
      if t.to_ = .queued then j.attempts ++ t.cut.toList.map (fun cut => ⟨j.startedAt.getD 0,t.at_,cut⟩)
      else j.attempts := by
  obtain ⟨hid,hspec,hstate,hattempts⟩ := noted_frame (j.entered t) t
  rw [moved,hid,hspec,hstate,hattempts,entered]
  cases t.to_ <;> exact ⟨rfl,rfl,rfl,rfl⟩

@[simp] lemma moved_id (j : Job) (t : Transition) : (j.moved t).id = j.id := (j.moved_frame t).1

@[simp] lemma moved_spec (j : Job) (t : Transition) : (j.moved t).spec = j.spec := (j.moved_frame t).2.1

@[simp] lemma moved_state (j : Job) (t : Transition) : (j.moved t).state = t.to_ := (j.moved_frame t).2.2.1

lemma moved_attempts (j : Job) (t : Transition) : (j.moved t).attempts =
    if t.to_ = .queued then j.attempts ++ t.cut.toList.map (fun cut => ⟨j.startedAt.getD 0,t.at_,cut⟩)
    else j.attempts := (j.moved_frame t).2.2.2

lemma of_apply (h : j.Apply t = .ok j') :
    j' = j.moved t ∧ t.from_ = j.state ∧ j.state.CanMoveTo t.to_ = true := by
  unfold Apply at h
  split_ifs at h with hid hfrom hmove hat
  have hfrom : t.from_ = j.state := by simpa using hfrom
  refine ⟨?_,hfrom,by simpa [hfrom] using hmove⟩
  split at h
  · contradiction
  · split at h
    · contradiction
    · exact (Except.ok.inj h).symm

end Job

end Vibesys.Core
