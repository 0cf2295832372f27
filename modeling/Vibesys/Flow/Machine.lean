import Vibesys.Flow.Plan
import Vibesys.Flow.Reading

/-!
# The machine that follows a plan

The machine asks for one thing at a time, and an event is the answer. What a benchmark wrote is read by a
parser, which is a parameter of the machine.
-/
namespace Vibesys.Flow
open Vibesys.Core
open Benchmark (Bytes Named Reading)

inductive Stage
  | checkout | build | candidate | check | benchmark | observe
  deriving DecidableEq, Repr

def Stage.text : Stage → String
  | .checkout => "checkout"
  | .build => "build"
  | .candidate => "candidate"
  | .check => "check"
  | .benchmark => "benchmark"
  | .observe => "observe"

inductive Phase
  | checkout | build | candidate | check | before | sample | after | done
  deriving DecidableEq, Repr

def Phase.text : Phase → String
  | .checkout => "checkout"
  | .build => "build"
  | .candidate => "candidate"
  | .check => "check"
  | .before => "observe-before"
  | .sample => "sample"
  | .after => "observe-after"
  | .done => "done"

structure CandidateServe where
  argv : List String
  ready : String
  startupTimeout : Duration
  deriving DecidableEq

def Candidate.ServeAt (c : Candidate) (root : String) (wrap : List String) : CandidateServe :=
  ⟨wrap ++ ResolveProjectRoot c.serve root,c.ready,c.startupTimeout⟩

structure CandidateRun where
  image : String
  serve : CandidateServe
  deriving DecidableEq

structure Run where
  stage : Stage
  argv : List String
  timeout : Duration
  read : String
  candidate : Option CandidateRun
  deriving DecidableEq

inductive Request
  | checkout
  | run (r : Run)
  | observe
  | buildCandidate (build : CandidateBuild)
  deriving DecidableEq

inductive ExecKind
  | exited | timedOut | cancelled | serviceNotReady | serviceExited | unknown (name : String)
  deriving DecidableEq, Repr

def ExecKind.text : ExecKind → String
  | .exited => "exited"
  | .timedOut => "timed_out"
  | .cancelled => "cancelled"
  | .serviceNotReady => "service_not_ready"
  | .serviceExited => "service_exited"
  | .unknown name => name

structure ExecOutcome where
  kind : ExecKind
  exitCode : ℤ := 0
  deriving DecidableEq

structure Ran where
  exec : ExecOutcome
  started : Time := 0
  ended : Time := 0
  output : Bytes := []
  found : Bool := false
  readError : String := ""
  serviceLog : String := ""
  deriving DecidableEq

structure CandidateImage where
  id : String := ""
  tag : String := ""
  deriving DecidableEq

inductive Event
  | checkedOut (dir scratch : String)
  | checkoutFailed (failure : Failure)
  | ran (r : Ran)
  | notRan (failure : Failure)
  | unseen (failure : Failure)
  | observed (machine : MachineFacts) (load : MachineLoad)
  | candidateBuilt (image : CandidateImage)
  | cancelled
  deriving DecidableEq

def Event.typeName : Event → String
  | .checkedOut .. => "flow.CheckedOut"
  | .checkoutFailed _ => "flow.CheckoutFailed"
  | .ran _ => "flow.Ran"
  | .notRan _ => "flow.NotRan"
  | .unseen _ => "flow.Unseen"
  | .observed .. => "flow.Observed"
  | .candidateBuilt _ => "flow.CandidateBuilt"
  | .cancelled => "flow.Cancelled"

inductive Verdict
  | passed (findings : Findings)
  | notAttempted (stage : Stage) (failure : Failure) (reason : String)
  | rejected (reason : String)
  | stopped (stage : Stage) (exec : ExecOutcome) (reason : String)
  | lost (stage : Stage) (failure : Failure) (reason : String)
  deriving DecidableEq

structure State where
  plan : Plan
  phase : Phase := .checkout
  dir : String := ""
  scratch : String := ""
  checkTook : Duration := 0
  candidate : CandidateImage := {}
  machine : MachineFacts := {}
  haveFacts : Bool := false
  samples : List ℚ := []
  others : List Observation := []
  verdict : Option Verdict := none
  deriving DecidableEq

def Start (p : Plan) : Except Failure (State × Request) :=
  match p.Validate with
  | some failure => .error failure
  | none => .ok ({ plan := p },.checkout)

/-- Adds a value to its series, keeping the observations ordered by name. -/
def addObservation : List Observation → Named ℚ → List Observation
  | [],v => [{ name := v.name, values := [.finite v.value] }]
  | o :: os,v =>
    if o.name < v.name then o :: addObservation os v
    else if o.name = v.name then { o with values := o.values ++ [.finite v.value] } :: os
    else { name := v.name, values := [.finite v.value] } :: o :: os

def withLog (reason log : String) : String := if log = "" then reason else reason ++ "; its last lines:\n" ++ log

namespace State

def Done (s : State) : Bool := s.phase = .done

def stage (s : State) : Stage :=
  match s.phase with
  | .checkout => .checkout
  | .build => .build
  | .candidate => .candidate
  | .check => .check
  | .sample => .benchmark
  | _ => .observe

def end_ (s : State) (v : Verdict) : State := { s with phase := .done, verdict := some v, samples := [], others := [] }

def refuse (s : State) (why : String) : State :=
  s.end_ (.notAttempted s.stage ⟨.internal,"flow: " ++ why⟩ ("flow: " ++ why))

def cancelled (s : State) : State :=
  s.end_ (.stopped s.stage { kind := .cancelled } ("the job was cancelled during the " ++ s.stage.text ++ " step"))

def run (s : State) (stage : Stage) (c : Command) (read : String) : Run where
  stage := stage
  argv := c.Resolve s.dir
  timeout := c.timeout+(s.plan.candidate.elim 0 Candidate.startupTimeout)
  read := read
  candidate := s.plan.candidate.map fun cand => ⟨s.candidate.id,cand.ServeAt s.dir []⟩

def nextSample (s : State) : State × Option Request :=
  let out := s.scratch ++ "/sample-" ++ toString s.samples.length ++ ".out"
  let r := s.run .benchmark s.plan.benchmark out
  ({ s with phase := .sample },some (.run { r with argv := r.argv ++ [s.plan.result.OutputFlag,out] }))

def afterCheck (s : State) : State × Option Request :=
  ({ s with phase := if s.plan.kind = .check then .after else .before },some .observe)

def afterCandidate (s : State) : State × Option Request :=
  if s.plan.RunsCheck then
    let s := { s with phase := .check }
    (s,some (.run (s.run .check s.plan.check "")))
  else s.afterCheck

def afterBuild (s : State) : State × Option Request :=
  match s.plan.candidate with
  | some c => ({ s with phase := .candidate },some (.buildCandidate c.build))
  | none => s.afterCandidate

def afterCheckout (s : State) : State × Option Request :=
  match s.plan.build with
  | some c =>
    let s := { s with phase := .build }
    (s,some (.run (s.run .build c "")))
  | none => s.afterBuild

/-- How a command's ending ends the job, if it does. -/
def commandEnded (s : State) (stage : Stage) (r : Ran) : Option Verdict :=
  let name := stage.text
  let code := r.exec.exitCode
  let kind := r.exec.kind.text
  let stopped (reason : String) := some (Verdict.stopped stage r.exec reason)
  match r.exec.kind,s.plan.candidate with
  | .exited,_ => if r.exec.exitCode = 0 then none else stopped s!"the {name} step exited with code {code}"
  | .timedOut,_ => stopped s!"the {name} step ran past its time limit and was ended"
  | .cancelled,_ => stopped s!"the job was cancelled during the {name} step"
  | .serviceNotReady,some c =>
    let ready := c.ready
    let startup := durationText c.startupTimeout
    stopped (withLog s!"the candidate's server was not ready at {ready} within {startup}, in the {name} step" r.serviceLog)
  | .serviceExited,some _ => stopped (withLog s!"the candidate's server exited during the {name} step" r.serviceLog)
  | _,_ => stopped s!"the {name} step ended in a way that is neither success nor failure ({kind})"

/-- The verdict on a run answered without an ending. -/
def unrun (stage : Stage) (e : Event) : Option Verdict :=
  let name := stage.text
  match e with
  | .notRan f =>
    let message := f.message
    some (.notAttempted stage f s!"the {name} step could not be run: {message}")
  | .unseen f =>
    let message := f.message
    some (.lost stage f s!"the {name} step ran, and how it ended is not known: {message}")
  | _ => none

/-- Keeps the first facts it is given. -/
def observe (s : State) (machine : MachineFacts) : State :=
  if s.haveFacts then s else { s with machine := machine, haveFacts := true }

def passed (s : State) (load : MachineLoad) : State :=
  let measures : Bool := s.plan.kind = .measure
  s.end_ (.passed
    { checkTook := s.checkTook, machine := s.machine, load := load, candidateImage := s.candidate.id
      samples := if measures then s.samples else [], observations := if measures then s.others else [] })

variable (parser : Parser)

/-- Applies the reader the plan names to what the run wrote. -/
def read (s : State) (r : Ran) : Except ReadError (Reading ℚ) :=
  let why := r.readError
  let flag := s.plan.result.OutputFlag
  if r.readError ≠ "" then .error (.other s!"the result file could not be read: {why}")
  else if !r.found then
    .error (.other s!"the benchmark exited 0 but wrote no result to the path after {flag}")
  else if s.plan.result.protocol2 then (parser.Protocol2 r.output s.plan.metric.name).mapError .failure
  else (parser.JSONField r.output s.plan.result.field).mapError .failure

def reportedError (s : State) (r : Ran) : String :=
  if !s.plan.result.protocol2 ∨ !r.found ∨ r.readError ≠ "" then ""
  else match parser.Protocol2 r.output s.plan.metric.name with
    | .error (.reported what) => (Benchmark.Failure.reported what).Error
    | _ => ""

def missingObjective (s : State) (got : Reading ℚ) : Option String :=
  (s.plan.objectives.metrics.find? fun m =>
    m.name ≠ s.plan.metric.name && !got.others.any fun o => o.name = m.name).map Metric.name

def sampled (s : State) (r : Ran) : State × Option Request :=
  let n := s.samples.length+1
  match s.commandEnded .benchmark r with
  | some v =>
    let why := s.reportedError parser r
    let v := match v with
      | .stopped stage exec reason => if why ≠ "" then .stopped stage exec (reason ++ "; " ++ why) else v
      | v => v
    (s.end_ v,none)
  | none =>
    match s.read parser r with
    | .error why =>
      let text := why.Error
      (s.end_ (.rejected s!"sample {n}: {text}"),none)
    | .ok got =>
      match s.missingObjective got with
      | some missing =>
        let shown := missing.quote
        (s.end_ (.rejected s!"sample {n}: the benchmark reported no value of the objective {shown}, and a multi-objective task judges every sample on every objective"),none)
      | none =>
        let s := { s with samples := s.samples ++ [got.value], others := got.others.foldl addObservation s.others }
        if s.samples.length < s.plan.samples then s.nextSample else ({ s with phase := .after },some .observe)

def misfit (s : State) (e : Event) : State × Option Request :=
  let answer := e.typeName
  let phase := s.phase.text
  (s.refuse s!"the answer {answer} does not fit the {phase} step",none)

/-- The answer to the run of a command of one stage, and what follows its success. -/
def answered (s : State) (stage : Stage) (e : Event) (next : Ran → State × Option Request) : State × Option Request :=
  match e with
  | .ran r =>
    match s.commandEnded stage r with
    | some v => (s.end_ v,none)
    | none => next r
  | e =>
    match unrun stage e with
    | some v => (s.end_ v,none)
    | none => s.misfit e

def Step (s : State) (e : Event) : State × Option Request :=
  if s.phase = .done then (s,none)
  else if e = .cancelled then (s.cancelled,none)
  else match s.phase with
    | .checkout =>
      match e with
      | .checkedOut dir scratch =>
        if dir = "" ∨ scratch = "" then (s.refuse "the checkout answered without a directory",none)
        else afterCheckout { s with dir := dir, scratch := scratch }
      | .checkoutFailed f =>
        (s.end_ (.notAttempted .checkout f ("could not check out the commit: " ++ f.message)),none)
      | e => s.misfit e
    | .build => s.answered .build e fun _ => s.afterBuild
    | .candidate =>
      match e with
      | .candidateBuilt image =>
        let shown := image.id.quote
        if !Fingerprint.isImageDigest image.id then
          (s.refuse s!"the candidate's image was answered with {shown}, which is not an exact digest",none)
        else afterCandidate { s with candidate := image }
      | .notRan f =>
        (s.end_ (.notAttempted .candidate f ("the candidate's image could not be built: " ++ f.message)),none)
      | e => s.misfit e
    | .check => s.answered .check e fun r => afterCheck { s with checkTook := max 0 (r.ended-r.started) }
    | .before =>
      match e with
      | .observed machine _ => (s.observe machine).nextSample
      | e => s.misfit e
    | .sample =>
      match e with
      | .ran r => s.sampled parser r
      | e => s.answered .benchmark e fun _ => s.misfit e
    | .after =>
      match e with
      | .observed machine load => ((s.observe machine).passed load,none)
      | e => s.misfit e
    | .done => (s,none)

end State

def feed (parser : Parser) (s : State) (es : List Event) : State := es.foldl (fun s e => (s.Step parser e).1) s

end Vibesys.Flow
