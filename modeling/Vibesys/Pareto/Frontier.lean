import Vibesys.Core.Life
import Vibesys.Promotion.Branch

/-!
# Deciding who joins the frontier

A candidate is judged against each member of the frontier it was decided on. It joins if no member refuses it,
and then the members it beats leave. The comparison of two sets of measurements is a parameter. A ledger takes
an admission over only against the revision it was decided on.
-/
namespace Vibesys.Pareto

open Vibesys.Core (Result Commit Time Failure failf invalid)
open Promotion (Measurement Verdict VerdictKind ObjectiveVerdict MeasuredComparison measurementsOf shortCommit
  restsOnPassingCheck describeObjectives)

structure FrontierMember where
  commit : Commit
  addedAt : Time
  deriving DecidableEq

/-- Members are in the order they were admitted. -/
structure Frontier where
  revision : ℕ := 0
  members : List FrontierMember := []
  deriving DecidableEq

inductive FrontierRefusalKind
  | unmeasured | checkMissing | dominated | withinNoise | inconclusive | stale | environmentMismatch
  deriving DecidableEq, Repr

/-- The place of a kind in a refusal. -/
def FrontierRefusalKind.order : FrontierRefusalKind → ℕ
  | .unmeasured => 0
  | .checkMissing => 1
  | .dominated => 2
  | .withinNoise => 3
  | .inconclusive => 4
  | .stale => 5
  | .environmentMismatch => 6

structure FrontierRefusalReason where
  kind : FrontierRefusalKind
  message : String
  member : Commit := ""
  verdict : Option Verdict := none
  objectives : List ObjectiveVerdict := []
  deriving DecidableEq

structure FrontierAdmission where
  from_ : ℕ
  added : FrontierMember
  evicted : List Commit := []
  retired : List Commit := []
  members : List FrontierMember
  already : Bool := false
  valid : Bool := true
  deriving DecidableEq

inductive FrontierDecision
  | admitted (admission : FrontierAdmission)
  | refused (reasons : List FrontierRefusalReason)
  deriving DecidableEq

structure FrontierRequest where
  candidate : Commit
  frontier : Frontier
  results : List Result
  taskVersion : String
  at_ : Time

abbrev Comparison := List Measurement → List Measurement → ℚ → Except Failure MeasuredComparison

/-- What a member says of the candidate: why it refuses it, or the verdict. -/
inductive Judgement
  | refuses (reason : FrontierRefusalReason)
  | verdict (kind : VerdictKind)
  deriving DecidableEq

section Deciding

variable (compareMeasurements : Comparison)

def judgeAgainst (commit : Commit) (candidate : List Measurement) (member : Commit) (results : List Result) :
    Except Failure Judgement :=
  let base := measurementsOf member results
  let shown := shortCommit member
  let short := shortCommit commit
  if base.isEmpty then
    .ok (.refuses { kind := .unmeasured, member := member
                    message := s!"the member {shown} has no measurement to compare with" })
  else
    match compareMeasurements candidate base 0 with
    | .error f => .error f
    | .ok compared =>
      match compared.mixedEnvironments with
      | some mix => .ok (.refuses { kind := .environmentMismatch, member := member, message := mix })
      | none =>
        let refuse (kind : FrontierRefusalKind) (text : String) : Except Failure Judgement :=
          let text :=
            if compared.objectives.isEmpty then text else text ++ " (" ++ describeObjectives compared.objectives ++ ")"
          .ok (.refuses { kind := kind, member := member, message := text, verdict := some compared.verdict
                          objectives := compared.objectives })
        match compared.verdict.kind with
        | .worse => refuse .dominated s!"the member {shown} beats commit {short}: it is better on some objective and worse on none"
        | .withinNoise => refuse .withinNoise s!"commit {short} is within noise of the member {shown} on every objective"
        | .inconclusive =>
          let reason := compared.verdict.reason.text
          refuse .inconclusive s!"the samples cannot place commit {short} against the member {shown} ({reason})"
        | kind => .ok (.verdict kind)

structure Tally where
  reasons : List FrontierRefusalReason := []
  kept : List FrontierMember := []
  evicted : List Commit := []
  retired : List Commit := []

def Tally.count (commit : Commit) (candidate : List Measurement) (results current : List Result) (t : Tally)
    (member : FrontierMember) : Except Failure Tally :=
  if (measurementsOf member.commit current).isEmpty ∧ ¬ (measurementsOf member.commit results).isEmpty then
    .ok { t with retired := t.retired ++ [member.commit] }
  else
    match judgeAgainst compareMeasurements commit candidate member.commit current with
    | .error f => .error f
    | .ok (.refuses reason) => .ok { t with reasons := t.reasons ++ [reason] }
    | .ok (.verdict .better) => .ok { t with evicted := t.evicted ++ [member.commit] }
    | .ok (.verdict _) => .ok { t with kept := t.kept ++ [member] }

/-- The decision once every member has said what it says. -/
def Tally.decide (t : Tally) (req : FrontierRequest) : FrontierDecision :=
  if t.reasons.isEmpty then
    let added : FrontierMember := ⟨req.candidate,req.at_⟩
    .admitted { from_ := req.frontier.revision, added := added, evicted := t.evicted, retired := t.retired
                members := t.kept ++ [added] }
  else .refused (t.reasons.insertionSort fun a b => a.kind.order ≤ b.kind.order)

def FrontierRequest.current (req : FrontierRequest) : List Result :=
  req.results.filter fun r => r.taskVersion = req.taskVersion

def DecideFrontier (req : FrontierRequest) : Except Failure FrontierDecision :=
  let short := shortCommit req.candidate
  if req.at_.IsZero then .error (failf .invalidInput "frontier: no time")
  else if req.taskVersion = "" then .error (failf .invalidInput "frontier: no task version")
  else
    match req.frontier.members.find? fun m => m.commit = req.candidate with
    | some added =>
      .ok (.admitted { from_ := req.frontier.revision, added := added, members := req.frontier.members, already := true })
    | none =>
      match (measurementsOf req.candidate req.results).getLast? with
      | none => .ok (.refused [{ kind := .unmeasured, message := s!"commit {short} has no measurement" }])
      | some latest =>
        if !latest.measure.objectives.Pareto then
          .error (failf .invalidInput
            s!"commit {short} was measured on one metric: a frontier holds the commits of a task whose objectives.toml has a [pareto] section and more than one objective")
        else
          let candidate := measurementsOf req.candidate req.current
          let version := req.taskVersion
          if candidate.isEmpty then
            .ok (.refused [{ kind := .stale
                             message := s!"commit {short} was measured only under other task versions than the task's current one, {version}, the result branch head's; merge or rebase it onto the head and measure that" }])
          else
            let missing : List FrontierRefusalReason :=
              if candidate.any fun m => !restsOnPassingCheck m req.current then
                [{ kind := .checkMissing
                   message := s!"a measurement of commit {short} does not rest on a passing check of the same commit, task version and environment" }]
              else []
            match req.frontier.members.foldlM
                (Tally.count compareMeasurements req.candidate candidate req.results req.current) { reasons := missing } with
            | .error f => .error f
            | .ok t => .ok (t.decide req)

end Deciding

/-- The first member that names no commit, or one that was named before, and its place. -/
def checkMembers : (seen : List Commit) → (i : ℕ) → List FrontierMember → Except Failure Unit
  | _,_,[] => .ok ()
  | seen,i,m :: rest =>
    let commit := m.commit
    if commit = "" then .error (invalid s!"frontier.Members[{i}].Commit" "is empty")
    else if commit ∈ seen then
      .error (invalid s!"frontier.Members[{i}].Commit" s!"{commit} is a member twice")
    else checkMembers (commit :: seen) (i+1) rest

/-- The change of a ledger's frontier that an admission makes, if any, and the answer. `held` is false for members
that no store can hold. -/
def UpdateFrontier (frontier : Frontier) (admission : FrontierAdmission) (held : Bool) :
    Except Failure (Option Frontier × Frontier) :=
  if !admission.valid then .error (invalid "frontier" "the admission was not made by a decision")
  else if admission.from_ ≠ frontier.revision then
    let present := frontier.revision
    let decided := admission.from_
    .error (failf .conflict
      s!"the frontier is at revision {present}, and the admission was decided against revision {decided}")
  else if admission.already then .ok (none,frontier)
  else if !held then .error (invalid "frontier.Members" "cannot be held")
  else
    match checkMembers [] 0 admission.members with
    | .error f => .error f
    | .ok () =>
      let next : Frontier := { revision := frontier.revision+1, members := admission.members }
      .ok (some next,next)

end Vibesys.Pareto
