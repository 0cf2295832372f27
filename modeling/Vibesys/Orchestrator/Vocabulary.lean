import Vibesys.Core.Job

/-!
# What the orchestrator records

The closed sets of states and reasons, and the entities that events carry whole. Every closed set
that is a field of a record has its zero value as `unset`, for the records a lookup of an unknown id
gives; a reason that may be missing is an `Option`. Ids are strings, empty for none. Costs are exact
rationals and counters are natural numbers.
-/
namespace Vibesys.Orchestrator

open Vibesys.Core (Time Duration)

abbrev RunID := String
abbrev AgentID := String
abbrev TurnID := String
abbrev ItemID := String
abbrev MessageID := String
abbrev CommandID := String
abbrev CheckInID := String
abbrev ViewerID := String
abbrev JobID := String
abbrev Digest := String
abbrev Commit := String
abbrev Harness := String
abbrev ModelName := String
abbrev EffortName := String

def second : Duration := 1000000000
def minute : Duration := 60*second
def hour : Duration := 60*minute

inductive RunStatus
  | unset | starting | running | stopping | ended | failed
  deriving DecidableEq

namespace RunStatus

def Final (s : RunStatus) : Bool := s = ended ∨ s = failed

end RunStatus

inductive RunStopReason
  | operator | timeLimit | costLimit | leadGone
  deriving DecidableEq

inductive RunLimit
  | time | cost
  deriving DecidableEq

inductive AgentRole
  | unset | lead | planner | worker | judge | combiner | profiler
  deriving DecidableEq

inductive AgentStatus
  | unset | launching | active | waiting | idle | ended | failed | lost
  deriving DecidableEq

inductive StopStage
  | unset | none | interrupting | closing
  deriving DecidableEq

inductive TurnTrigger
  | brief | operator | handoff | jobFinished | schedule | message | subagentSettled | reminder
  deriving DecidableEq

inductive Verdict
  | pass | fail | unmeasured
  deriving DecidableEq

inductive ReportScope
  | run | window
  deriving DecidableEq

inductive ReportKind
  | progress | final
  deriving DecidableEq

inductive TurnStatus
  | running | completed | interrupted | failed
  deriving DecidableEq

inductive ItemStatus
  | running | finished | failed
  deriving DecidableEq

inductive Delivery
  | unset | queued | steered | newTurn | consumed | rejected
  deriving DecidableEq

def Delivery.Final (d : Delivery) : Bool := d = .consumed ∨ d = .rejected

inductive Rejection
  | agentGone | fanoutLimit | agentStopping | runStopping | attemptsExceeded
  deriving DecidableEq

inductive JobState
  | queued | running | succeeded | failed | cancelled | lost
  deriving DecidableEq

inductive Refusal
  | runNotFound | agentNotFound | notPermitted | runNotRunning | fanoutLimit | agentIsLead | agentNotLive
  | repositoryInUse | agentNotAllowed | timeLimitReached | costLimitReached | noViewer | modelNotAllowed
  | handoffNotYours
  deriving DecidableEq

inductive StartFailure
  | agentNotInstalled | notSignedIn | pluginUnavailable | toolsUnavailable | workingDirUnavailable | timedOut
  | other | incompatibleVersions | stateLocationTooLong | modelNotAllowed
  deriving DecidableEq

inductive TimerKind
  | runDeadline | stopGrace | launchDeadline | leadIdle | limitGrace | summaryDue
  deriving DecidableEq

structure Usage where
  inputTokens : Option UInt64 := none
  cacheReadTokens : Option UInt64 := none
  cacheCreationTokens : Option UInt64 := none
  outputTokens : Option UInt64 := none
  reasoningTokens : Option UInt64 := none
  costUSD : Option ℚ := none
  deriving DecidableEq, Inhabited

namespace Usage

def sum {α : Type} [Add α] : Option α → Option α → Option α
  | none,b => b
  | a,none => a
  | some a,some b => some (a+b)

def Plus (u o : Usage) : Usage where
  inputTokens := sum u.inputTokens o.inputTokens
  cacheReadTokens := sum u.cacheReadTokens o.cacheReadTokens
  cacheCreationTokens := sum u.cacheCreationTokens o.cacheCreationTokens
  outputTokens := sum u.outputTokens o.outputTokens
  reasoningTokens := sum u.reasoningTokens o.reasoningTokens
  costUSD := sum u.costUSD o.costUSD

end Usage

structure Checkout where
  agent : AgentID
  location : String
  deriving DecidableEq

structure AgentChoice where
  harness : Harness
  model : ModelName
  deriving DecidableEq

structure JobToolEndpoint where
  executable : String
  runtimeDirectory : String
  deriving DecidableEq

structure AgentSpec where
  harness : Harness
  model : ModelName
  effort : EffortName
  deriving DecidableEq

structure Capabilities where
  steers : Bool
  resumes : Bool
  deriving DecidableEq

structure Run where
  id : RunID
  repository : String
  task : String
  status : RunStatus
  lead : AgentID
  fanoutLimit : ℕ
  deadline : Time
  maxCostUSD : ℚ
  limitReached : Option RunLimit
  limitReachedAt : Time
  createdAt : Time
  stopReason : Option RunStopReason
  endedAt : Time
  jobTool : JobToolEndpoint
  reportsPosted : ℕ
  summaryReport : MessageID
  finalReported : Bool
  stalledSince : Time
  activeJobs : ℕ
  leadReminders : ℕ
  usage : Usage
  allowed : List AgentChoice
  kept : List Checkout
  neverOpened : Bool
  summaryEvery : Duration
  lastSummaryAt : Time
  nextSummaryAt : Time
  deriving DecidableEq

/-- The zero record, which a lookup of an unknown run gives. -/
instance : Inhabited Run where
  default :=
    { id := "", repository := "", task := "", status := .unset, lead := "", fanoutLimit := 0, deadline := 0
      maxCostUSD := 0, limitReached := none, limitReachedAt := 0, createdAt := 0, stopReason := none, endedAt := 0
      jobTool := ⟨"",""⟩, reportsPosted := 0, summaryReport := "", finalReported := false, stalledSince := 0
      activeJobs := 0, leadReminders := 0, usage := {}, allowed := [], kept := [], neverOpened := false
      summaryEvery := 0, lastSummaryAt := 0, nextSummaryAt := 0 }

structure Agent where
  id : AgentID
  run : RunID
  parent : AgentID
  role : AgentRole
  spec : AgentSpec
  planNumber : ℕ
  status : AgentStatus
  resumeToken : String
  capabilities : Capabilities
  startedAt : Time
  endedAt : Time
  session : ℕ
  stop : StopStage
  handedOff : Bool
  sessionFailures : ℕ
  endDetail : String
  startFailure : Option StartFailure
  handoffReminded : Bool
  usage : Usage
  deriving DecidableEq

instance : Inhabited Agent where
  default :=
    { id := "", run := "", parent := "", role := .unset, spec := ⟨"","",""⟩, planNumber := 0, status := .unset
      resumeToken := "", capabilities := ⟨false,false⟩, startedAt := 0, endedAt := 0, session := 0, stop := .unset
      handedOff := false, sessionFailures := 0, endDetail := "", startFailure := none, handoffReminded := false
      usage := {} }

structure Turn where
  id : TurnID
  agent : AgentID
  ordinal : ℕ
  trigger : TurnTrigger
  message : MessageID
  status : TurnStatus
  usage : Usage
  startedAt : Time
  endedAt : Time
  deriving DecidableEq

inductive ToolUse
  | shell (command : String)
  | read (target : String)
  | write (target : String)
  | edit (targets : List String)
  | search (pattern : String)
  | other (name text : String)
  deriving DecidableEq

inductive ItemBody
  | assistant (text : String)
  | reasoning (text : String)
  | prompt (text : String)
  | toolCall (use : ToolUse) (output : String) (exitCode : Option ℤ) (isError : Bool)
  deriving DecidableEq

structure Item where
  id : ItemID
  turn : TurnID
  agent : AgentID
  ordinal : ℕ
  status : ItemStatus
  at_ : Time
  started : Time
  body : Option ItemBody
  deriving DecidableEq

inductive HandoffBody
  | workerCandidate (commit parentCommit : Commit) (branch checks measurement : String)
  | workerNoCandidate (blocker : String)
  | plannerPlan (plan confidence unestablished decidingMeasurement : String)
  | judgeFinding (commit : Commit) (verdict : Verdict) (reasons : String)
  | combinerResult (commit : Commit) (branch applied unapplied checks measurement : String)
  | profilerFindings (question : String) (revision : Commit) (answer evidence unsupported informs : String)
  deriving DecidableEq

structure Handoff where
  planNumber : ℕ
  claim : String
  learned : String
  next : String
  openItems : String
  body : Option HandoffBody
  deriving DecidableEq

structure Report where
  kind : ReportKind
  scope : ReportScope
  sequence : ℕ
  headline : String
  changed : String
  inFlight : String
  decisions : String
  openForUser : String
  deriving DecidableEq

inductive MessageBody
  | text (text : String)
  | brief (text : String)
  | leadBrief (task : String) (fanoutLimit : ℕ) (steering : String)
  | handoff (h : Handoff)
  | report (r : Report)
  | jobFinished (job : JobID) (outcome : JobState) (submittedBy : AgentID) (detail : String)
  | handoffReminder
  | leadIdleReminder (idle : Duration) (subagents workers judges : ℕ)
  | runLimitReached (limit : RunLimit) (elapsed : Duration) (spent : Option ℚ) (maxCost : ℚ) (grace : Duration)
  | reportDue (every : Duration) (reports : ℕ)
  | catchUpRequest (checkIn : CheckInID) (since until_ : Time)
  | subagentSettled (agent : AgentID) (status : AgentStatus) (detail : String)
  deriving DecidableEq

structure Message where
  id : MessageID := ""
  run : RunID
  from_ : AgentID := ""
  to_ : AgentID := ""
  delivery : Delivery := .unset
  at_ : Time := 0
  rejection : Option Rejection := none
  attempts : ℕ := 0
  body : MessageBody
  deriving DecidableEq

structure Receipt where
  command : CommandID
  digest : Digest
  refusal : Option Refusal := none
  run : RunID := ""
  agent : AgentID := ""
  message : MessageID := ""
  delivery : Delivery := .unset
  allowed : List AgentChoice := []
  checkIn : CheckInID := ""
  model : ModelName := ""
  allowedModels : List ModelName := []
  deriving DecidableEq

structure Viewer where
  id : ViewerID
  label : String
  deriving DecidableEq

inductive Direction
  | maximize | minimize
  deriving DecidableEq

structure RoleSpend where
  role : AgentRole
  turns : ℕ
  unpriced : ℕ
  usage : Usage
  deriving DecidableEq

structure Spend where
  turns : ℕ
  unpriced : ℕ
  usage : Usage
  roles : List RoleSpend
  deriving DecidableEq

structure Best where
  value : ℚ
  job : JobID
  commit : Commit
  at_ : Time
  deriving DecidableEq

structure ObjectiveMove where
  metric : String
  direction : Direction
  unit : String
  start : Option Best
  end_ : Option Best
  deriving DecidableEq

structure WindowFacts where
  spend : Spend
  agentsStarted : ℕ
  agentsEnded : ℕ
  jobsMeasured : ℕ
  objectives : List ObjectiveMove
  plansCreated : List ℕ
  plansChanged : List ℕ
  reports : List MessageID
  deriving DecidableEq

inductive CheckInOutcome
  | unset
  | pending
  | ready (facts : WindowFacts)
  | failed (detail : String)
  deriving DecidableEq

structure CheckIn where
  id : CheckInID
  run : RunID
  viewer : Viewer
  since : Time
  at_ : Time
  outcome : CheckInOutcome
  ask : MessageID
  report : MessageID
  deriving DecidableEq

instance : Inhabited CheckIn where
  default :=
    { id := "", run := "", viewer := ⟨"",""⟩, since := 0, at_ := 0, outcome := .unset, ask := "", report := "" }

structure Session where
  agent : AgentID
  n : ℕ
  deriving DecidableEq

end Vibesys.Orchestrator
