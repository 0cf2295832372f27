import Mathlib.Data.List.Dedup
import Mathlib.Data.List.Permutation
import Mathlib.Data.List.Sort
import Vibesys.Check.Floors
import Vibesys.Library.Int64
import Vibesys.Library.Orders

/-!
# The search of a partition and its first violation

A partition is searched as operations over sets of states: its events, one of unknown outcome until the end of its
effect window, and the faults. The history up to a time takes what was called by then, with writes still in flight as
unknown. The explanation of a failure looks for the first time up to which no order is accepted. The search itself is
porcupine's, a parameter here: it is asked to decide whether some order of the operations is accepted.
-/
namespace Vibesys.Explain

open Library
open Check (Span computeFloors floorOf)

variable {S I O : Type}

structure Event (I O : Type) where
  keys : List String
  input : I
  output : O
  unknown : Bool := false
  write : Bool := false
  call : ℤ
  ret : ℤ
deriving DecidableEq

/-- An event as a step sees it: one of unknown outcome returns where its effect window ends. -/
structure Op (I O : Type) extends Event I O where
  floor : ℤ

structure Fault where
  kind : String
  target : String
  start : ℤ
  stop : ℤ

structure Spec (S I O : Type) where
  init : List String → S
  step : S → Op I O → List S
  fault : Option (S → List String → Fault → List S)
  equal : S → S → Bool
  hash : S → ℕ
  effectWindow : ℤ

structure Partition (I O : Type) where
  keys : List String
  events : List (Event I O)

/-- An operation of the search, which lasts as its input does. -/
inductive Operation (I O : Type)
  | op (op : Op I O)
  | fault (fault : Fault)

namespace Operation

def call : Operation I O → ℤ
  | .op o => o.call
  | .fault f => f.start

def ret : Operation I O → ℤ
  | .op o => o.ret
  | .fault f => f.stop

end Operation

namespace Spec

variable (sp : Spec S I O)

def makeSet (states : List S) : List S :=
  states.foldl (fun set s =>
    if set.any fun other => sp.hash other == sp.hash s && sp.equal other s then set else set ++ [s]) []

def after (keys : List String) (s : S) : Operation I O → List S
  | .op op => sp.step s op
  | .fault f =>
    match sp.fault with
    | none => [s]
    | some fault => fault s keys f

def modelStep (keys : List String) (set : List S) (op : Operation I O) : Option (List S) :=
  let next := set.flatMap fun s => sp.after keys s op
  if next.isEmpty then none else some (sp.makeSet next)

def windowEnd (horizon : ℤ) (e : Event I O) : ℤ :=
  if e.unknown then
    if 0 < sp.effectWindow then min horizon (max e.ret (wrap (e.call + sp.effectWindow))) else horizon
  else e.ret

def spans (p : Partition I O) (faults : List Fault) (horizon : ℤ) : List Span :=
  p.events.map (fun e => ⟨e.call,sp.windowEnd horizon e⟩) ++ faults.map fun f => ⟨f.start,f.stop⟩

def operation (horizon : ℤ) (e : Event I O) (floor : ℤ) : Operation I O :=
  .op {e with ret := sp.windowEnd horizon e, floor := floor}

def buildOps (p : Partition I O) (faults : List Fault) (horizon : ℤ) : List (Operation I O) :=
  p.events.zipWith (sp.operation horizon) (computeFloors (sp.spans p faults horizon)) ++ faults.map .fault

end Spec

/-- An event in the history up to `t`: a read still in flight tells nothing yet. -/
def Event.prefixAt (t : ℤ) (e : Event I O) : Option (Event I O) :=
  if t < e.call then none
  else if t < e.ret then
    if e.write then some {e with unknown := true} else none
  else some e

def prefixAt (p : Partition I O) (faults : List Fault) (t : ℤ) : Partition I O × List Fault :=
  ({p with events := p.events.filterMap (Event.prefixAt t)},faults.filter fun f => f.start ≤ t)

inductive CheckResult
  | unknown
  | ok
  | illegal
deriving DecidableEq

/-- The search of porcupine, without a timeout: the initial state, the model's step and the history. -/
abbrev Checker (S I O : Type) :=
  List S → (List S → Operation I O → Option (List S)) → List (Operation I O) → CheckResult

/-- What porcupine says of itself: it decides whether the model accepts some order that respects real time. -/
structure Decides (check : Checker S I O) : Prop where
  ok : ∀ {init step ops}, check init step ops = .ok ↔ Accepts Operation.call Operation.ret step init ops
  illegal : ∀ {init step ops}, check init step ops = .illegal ↔ ¬Accepts Operation.call Operation.ret step init ops

namespace Spec

variable (sp : Spec S I O) (check : Checker S I O) (p : Partition I O) (faults : List Fault) (horizon t : ℤ)

def search : CheckResult :=
  check (sp.makeSet [sp.init p.keys]) (sp.modelStep p.keys) (sp.buildOps p faults horizon)

def upTo : CheckResult := sp.search check (prefixAt p faults t).1 (prefixAt p faults t).2 horizon

/-- Some order of the operations that respects real time is one the model accepts. -/
def Legal : Prop :=
  Accepts Operation.call Operation.ret (sp.modelStep p.keys) (sp.makeSet [sp.init p.keys]) (sp.buildOps p faults horizon)

def LegalUpTo : Prop := sp.Legal (prefixAt p faults t).1 (prefixAt p faults t).2 horizon

end Spec

/-- The known responses and the starts of faults, in order and each once. -/
def violationTimes (p : Partition I O) (faults : List Fault) : List ℤ :=
  ((p.events.filter fun e => !e.unknown).map (·.ret) ++ faults.map Fault.start).insertionSort (· ≤ ·) |>.dedup

/-- The loop of the search for the first violation, with the interval where it gave up; `fuel` bounds its rounds. -/
def bisect (upTo : ℕ → CheckResult) : ℕ → ℕ → ℕ → Except (ℕ × ℕ) ℕ
  | 0,_,hi => .ok hi
  | fuel + 1,lo,hi =>
    if lo < hi then
      let mid := (lo + hi) / 2
      match upTo mid with
      | .illegal => bisect upTo fuel lo mid
      | .ok => bisect upTo fuel (mid + 1) hi
      | .unknown => .error (lo,hi)
    else .ok hi

inductive Explanation (I O : Type)
  | noKnownOutcome
  | notConfirmed (got : CheckResult)
  | ranOut (lo hi : ℤ)
  | firstViolation (t : ℤ) (culprits : List (Event I O))
deriving DecidableEq

def explain (check : Checker S I O) (sp : Spec S I O) (p : Partition I O) (faults : List Fault) (horizon : ℤ) :
    Explanation I O :=
  let times := violationTimes p faults
  let upTo := sp.upTo check p faults horizon
  match times.getLast? with
  | none => .noKnownOutcome
  | some last =>
    match upTo last with
    | .illegal =>
      match bisect (fun i => upTo (times.getD i 0)) times.length 0 (times.length - 1) with
      | .error (lo,hi) => .ranOut (times.getD lo 0) (times.getD hi 0)
      | .ok i => .firstViolation (times.getD i 0) (p.events.filter fun e => !e.unknown && e.ret == times.getD i 0)
    | got => .notConfirmed got

/-- The search of a partition when no budget is hit: up to each cut, then as a whole. -/
def searchPartition (check : Checker S I O) (sp : Spec S I O) (p : Partition I O) (faults : List Fault) (horizon : ℤ) :
    List ℤ → CheckResult
  | [] => sp.search check p faults horizon
  | t :: cuts =>
    match sp.upTo check p faults horizon t with
    | .ok => searchPartition check sp p faults horizon cuts
    | got => got

end Vibesys.Explain
