import Mathlib.Data.Prod.Lex
import Vibesys.Library.Int64
import Vibesys.Library.Run
import Vibesys.Library.Table
import Vibesys.Orchestrator.Usage

/-!
# What a run has cost

The ledger of the finished turns of a run, its view and its spend. The pointer from a turn to its agent is the agent's
id, and the order in which Go goes through a map is an argument. Costs are rationals; counters and durations are the
integers of 32 and 64 bits of the source.
-/
namespace Vibesys.Cost

open Library
open Vibesys.Core (Time Duration)
open Orchestrator (AgentID AgentRole ModelName RunID Usage Turn minute hour)

def MaxBuckets : ℤ := 48

def RateWindow : Duration := hour

def ladder : List ℤ :=
  [minute,5*minute,15*minute,30*minute,hour,2*hour,3*hour,6*hour,12*hour,24*hour,48*hour,7*24*hour]

def beyondLadder : ℤ := 7*24*hour

/-- The time from `u` to `t`, or the nearest duration there is. -/
def Sub (t u : ℤ) : ℤ := max (-2^63) (min (t-u) (2^63-1))

def WidthFor (span : ℤ) : ℤ :=
  match ladder.find? fun w => span ≤ w*MaxBuckets with
  | some w => w
  | none =>
    let weeks := (wrap (span+MaxBuckets*beyondLadder-1)).tdiv (MaxBuckets*beyondLadder)
    wrap (weeks*beyondLadder)

inductive Harness
  | unset | claudeCode | codex
  deriving DecidableEq

def Harness.name : Harness → String
  | .unset => ""
  | .claudeCode => "claude_code"
  | .codex => "codex"

def roleName : AgentRole → String
  | .unset => ""
  | .lead => "lead"
  | .planner => "planner"
  | .worker => "worker"
  | .judge => "judge"
  | .combiner => "combiner"
  | .profiler => "profiler"

structure ModelKey where
  harness : Harness
  model : ModelName
  deriving DecidableEq

def ModelKey.name (k : ModelKey) : String := k.harness.name ++ "/" ++ k.model

structure Agent where
  id : AgentID
  role : AgentRole
  harness : Harness
  model : ModelName
  deriving DecidableEq

structure AgentInfo where
  role : AgentRole
  model : ModelKey
  deriving DecidableEq

abbrev TurnKey := AgentID ×ₗ ℕ

structure Entry where
  key : TurnKey
  end_ : Time
  agent : AgentID
  usage : Usage
  deriving DecidableEq

def entryOrder (a b : Entry) : Ordering :=
  (compare a.end_ b.end_).then ((compare (ofLex a.key).1 (ofLex b.key).1).then (compare (ofLex a.key).2 (ofLex b.key).2))

/-! ## The ledger -/

/-- `index` is the position of each turn, once there is one. -/
structure Ledger where
  agents : Table AgentID AgentInfo := ∅
  entries : List Entry := []
  index : Option (Table TurnKey ℕ) := none
  sorted : Bool := false

namespace Ledger

def info (l : Ledger) (a : Agent) : Ledger := { l with agents := l.agents.insert a.id ⟨a.role,⟨a.harness,a.model⟩⟩ }

def agent (l : Ledger) (a : Agent) : Ledger × Bool := (l.info a,(l.agents.find? a.id).isNone)

def begun (l : Ledger) : Ledger := if l.index.isNone then { l with index := some ∅, sorted := true } else l

/-- The turn takes the place it has, or the last. -/
def put (l : Ledger) (index : Table TurnKey ℕ) (e : Entry) : Ledger :=
  match index.find? e.key with
  | some i => { l with entries := l.entries.set i e, sorted := false }
  | none =>
    { l with
      entries := l.entries ++ [e]
      index := some (index.insert e.key l.entries.length)
      sorted := l.sorted && l.entries.getLast?.all fun last => entryOrder last e ≠ .gt }

def add (l : Ledger) (t : Turn) (a : Agent) : Ledger :=
  if t.status = .running then l
  else
    let e : Entry := ⟨toLex (t.agent,t.ordinal),t.endedAt,a.id,t.usage⟩
    let l := (l.info a).begun
    l.put (l.index.getD ∅) e

def reindex (index : Table TurnKey ℕ) (entries : List Entry) : Table TurnKey ℕ :=
  entries.zipIdx.foldl (fun index e => index.insert e.1.key e.2) index

def sort (l : Ledger) : Ledger :=
  if l.sorted then l
  else
    let entries := l.entries.insertionSort fun a b => entryOrder a b ≠ .gt
    { l with entries := entries, index := l.index.map fun index => reindex index entries, sorted := true }

end Ledger

/-! ## Adding up -/

def tokenKinds (u : Usage) : List (Option UInt64) :=
  [u.inputTokens,u.cacheReadTokens,u.cacheCreationTokens,u.outputTokens,u.reasoningTokens]

def hasTokens (u : Usage) : Bool := (tokenKinds u).any fun n => n.any fun n => decide (0 < n)

/-- The sum stops at the largest count. -/
def totalTokensFrom (sum : UInt64) : List (Option UInt64) → UInt64
  | [] => sum
  | none :: rest => totalTokensFrom sum rest
  | some n :: rest => if sum+n < sum then UInt64.ofNat (2^64-1) else totalTokensFrom (sum+n) rest

def TotalTokens (u : Usage) : UInt64 := totalTokensFrom 0 (tokenKinds u)

def unpriced (u : Usage) : Bool := u.costUSD.isNone && hasTokens u

structure Tally where
  turns : UInt32 := 0
  unpriced : UInt32 := 0
  usage : Usage := {}
  deriving DecidableEq

def Tally.add (t : Tally) (u : Usage) : Tally where
  turns := t.turns+1
  unpriced := if Cost.unpriced u then t.unpriced+1 else t.unpriced
  usage := t.usage.Plus u

def byCost (aCost bCost : Option ℚ) (aName bName : String) : Ordering :=
  match aCost, bCost with
  | some a, some b => (compare b a).then (compare aName bName)
  | some _, none => .lt
  | none, some _ => .gt
  | none, none => compare aName bName

structure RoleCost where
  role : AgentRole
  agents : UInt32
  turns : UInt32
  unpriced : UInt32
  usage : Usage
  tokens : UInt64
  deriving DecidableEq

structure ModelCost where
  model : ModelKey
  turns : UInt32
  unpriced : UInt32
  usage : Usage
  tokens : UInt64
  deriving DecidableEq

structure ModelSpend where
  model : ModelKey
  cost : ℚ
  deriving DecidableEq

structure Bucket where
  start : Time
  cost : ℚ
  byModel : List ModelSpend
  deriving DecidableEq

structure Series where
  start : Time
  width : Duration
  buckets : List Bucket
  deriving DecidableEq

structure View where
  run : RunID
  asOf : Time
  total : Usage
  maxCostUSD : ℚ
  turns : UInt32
  unpriced : UInt32
  roles : List RoleCost
  models : List ModelCost
  series : Series
  lastHour : Option ℚ
  deriving DecidableEq

def laterOf (a b : Time) : Time := if a < b then b else a

abbrev Row := Entry × AgentInfo

/-- A tally for each group that an agent is in, with the turns of the group. -/
def tallies {κ : Type} [DecidableEq κ] (group : AgentInfo → κ) (infos : List AgentInfo) (rows : List Row) : κ → Option Tally :=
  rows.foldl (fun m row => Function.update m (group row.2) ((m (group row.2)).map fun t => t.add row.1.usage))
    (infos.foldl (fun m info => Function.update m (group info) (some {})) fun _ => none)

def roleCost (infos : List AgentInfo) (role : AgentRole) (t : Tally) : RoleCost :=
  ⟨role,UInt32.ofNat (infos.countP fun info => info.role = role),t.turns,t.unpriced,t.usage,TotalTokens t.usage⟩

def modelCost (model : ModelKey) (t : Tally) : ModelCost := ⟨model,t.turns,t.unpriced,t.usage,TotalTokens t.usage⟩

def roleCosts (infos : List AgentInfo) (rows : List Row) (order : List AgentRole) : List RoleCost :=
  (order.filterMap fun role => (tallies AgentInfo.role infos rows role).map (roleCost infos role)).insertionSort
    fun a b => byCost a.usage.costUSD b.usage.costUSD (roleName a.role) (roleName b.role) ≠ .gt

def modelCosts (infos : List AgentInfo) (rows : List Row) (order : List ModelKey) : List ModelCost :=
  (order.filterMap fun model => (tallies AgentInfo.model infos rows model).map (modelCost model)).insertionSort
    fun a b => byCost a.usage.costUSD b.usage.costUSD a.model.name b.model.name ≠ .gt

def bucketCount (span : ℤ) : ℕ := (max 1 ((wrap (span+WidthFor span-1)).tdiv (WidthFor span))).toNat

def bucketOf (start width : ℤ) (n : ℕ) (end_ : ℤ) : ℕ :=
  (min (max ((Sub end_ start).tdiv width) 0) (n-1)).toNat

/-- What each model spent in each bucket, with one turn more. -/
def addSpend (start width : ℤ) (n : ℕ) (spend : ℕ → ModelKey → Option ℚ) (row : Row) : ℕ → ModelKey → Option ℚ :=
  match row.1.usage.costUSD with
  | none => spend
  | some c =>
    let i := bucketOf start width n row.1.end_
    Function.update spend i (Function.update (spend i) row.2.model (some ((spend i row.2.model).getD 0+c)))

/-- The models with a cost, in their order. -/
def byModel (models : List ModelCost) (spend : ModelKey → Option ℚ) : List ModelSpend :=
  models.filterMap fun m =>
    match spend m.model with
    | some c => if 0 < c then some ⟨m.model,c⟩ else none
    | none => none

def seriesOf (models : List ModelCost) (start asOf : Time) (rows : List Row) : Series :=
  let span := Sub asOf start
  let width := WidthFor span
  let n := bucketCount span
  let spend := rows.foldl (addSpend start width n) fun _ _ => none
  ⟨start,width,(List.range n).map fun i =>
    let spent := byModel models (spend i)
    ⟨start+wrap (i*width),(spent.map ModelSpend.cost).sum,spent⟩⟩

/-- From the last turn back to the first that ended an hour before. -/
def lastHour (asOf : Time) (entries : List Entry) : ℚ :=
  ((entries.reverse.takeWhile fun e => asOf-RateWindow < e.end_).map fun e =>
    match e.usage.costUSD with
    | some c => if e.end_ ≤ asOf then c else 0
    | none => 0).sum

namespace Ledger

def rows (l : Ledger) : Option (List Row) := l.entries.mapM fun e => (l.agents.find? e.agent).map fun info => (e,info)

def asOf (l : Ledger) (run : Orchestrator.Run) (now : Time) : Time :=
  let asOf := if run.status.Final && !Core.Time.IsZero run.endedAt then run.endedAt else now
  let asOf := match l.entries.getLast? with
    | some e => laterOf asOf e.end_
    | none => asOf
  laterOf asOf run.createdAt

/-- The view of a ledger whose entries are in order. Maps are gone through in the orders given. -/
def viewSorted (l : Ledger) (run : Orchestrator.Run) (now : Time) (roleOrder : List AgentRole) (modelOrder : List ModelKey) :
    Option View := do
  let rows ← l.rows
  let asOf := l.asOf run now
  let total := rows.foldl (fun t row => t.add row.1.usage) ({} : Tally)
  let models := modelCosts l.agents.values rows modelOrder
  some
    { run := run.id, asOf := asOf, total := total.usage, maxCostUSD := run.maxCostUSD, turns := total.turns
      unpriced := total.unpriced, roles := roleCosts l.agents.values rows roleOrder, models := models
      series := seriesOf models run.createdAt asOf rows
      lastHour := total.usage.costUSD.map fun _ => lastHour asOf l.entries }

def view (l : Ledger) (run : Orchestrator.Run) (now : Time) (roleOrder : List AgentRole) (modelOrder : List ModelKey) : Option View :=
  l.sort.viewSorted run now roleOrder modelOrder

end Ledger

structure RoleSpend where
  role : AgentRole
  tally : Tally
  deriving DecidableEq

structure Spend where
  tally : Tally
  roles : List RoleSpend
  deriving DecidableEq

def allRoles : List AgentRole := [.unset,.lead,.planner,.worker,.judge,.combiner,.profiler]

def roleTallies (rows : List Row) : AgentRole → Option Tally :=
  rows.foldl (fun m row => Function.update m row.2.role (some (((m row.2.role).getD {}).add row.1.usage))) fun _ => none

def Ledger.spend (l : Ledger) (from_ until_ : Time) : Option Spend := do
  let rows ← l.rows
  let rows := rows.filter fun row => !(decide (row.1.end_ < from_) || !decide (row.1.end_ < until_))
  let roles := roleTallies rows
  some ⟨rows.foldl (fun t row => t.add row.1.usage) {},
    ((allRoles.filter fun role => (roles role).isSome).insertionSort fun a b => roleName a ≤ roleName b).filterMap fun role =>
      (roles role).map fun t => ⟨role,t⟩⟩

/-! ## Calls -/

inductive Call
  | agent (a : Agent)
  | add (t : Turn) (a : Agent)
  | view

def step (l : Ledger) : Call → Ledger
  | .agent a => (l.agent a).1
  | .add t a => l.add t a
  | .view => l.sort

end Vibesys.Cost
