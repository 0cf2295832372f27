import Vibesys.Outbox.Rows
import Vibesys.Library.Run

/-!
# The file of the SQLite store

The file keeps the log of events, the outbox, the checkpoint in generations, and marks of what was dropped
from the log. Rows stand in the order of their keys. `Commit` appends the events of a result under the next
sequences and queues its effects in one transaction, `Recover` folds the checkpoint in force and the events
after it, and `EventsAfter` reads a page of the log.
-/
namespace Vibesys.Sqlite

open Vibesys.Core (Time Duration)
open Library Orchestrator
open Outbox (Outcome runAfter reclaim)

/-- A row of the log. The columns `run_id` and `at` are the event's own. -/
structure EventRow where
  sequence : ℕ
  event : Event
  deriving DecidableEq

structure CheckpointRow where
  gen : ℕ
  idx : ℕ
  event : Event
  deriving DecidableEq

structure File where
  events : List EventRow := []
  outbox : List (Outbox.Row Effect) := []
  runs : Table RunID Run := ∅
  checkpoint : List CheckpointRow := []
  pruned : Table RunID ℕ := ∅
  lastSequence : ℕ := 0
  checkpointSequence : ℕ := 0
  checkpointGen : ℕ := 0
  prunedMax : ℕ := 0
  deriving DecidableEq

def number : ℕ → List Event → List EventRow
  | _,[] => []
  | n,e :: es => ⟨n,e⟩ :: number (n+1) es

/-- The row a committed event leaves in the table of runs. -/
def project (runs : Table RunID Run) (e : Event) : Table RunID Run :=
  match e.body with
  | .run b => runs.insert b.id b
  | _ => runs

namespace File

def append (f : File) (first : ℕ) (events : List Event) (effects : List Effect) : File :=
  { f with
    events := f.events ++ number first events
    runs := events.foldl project f.runs
    outbox := Outbox.commit runAfter f.outbox effects
    lastSequence := first+events.length-1 }

def queryCheckpoint (f : File) (gen : ℕ) : List Event := (f.checkpoint.filter fun r => r.gen = gen).map CheckpointRow.event

/-- The checkpoint in force and the events after it. -/
def recoverFrom (f : File) : State :=
  Replay (Replay {} (f.queryCheckpoint f.checkpointGen))
    ((f.events.filter fun r => r.sequence > f.checkpointSequence).map EventRow.event)

/-- What `open` finds corrupt: an event or a checkpoint past the end of the log. -/
def corrupt (f : File) : Bool :=
  f.events.any (fun r => r.sequence > f.lastSequence) || decide (f.checkpointSequence > f.lastSequence)

end File

def MaxPageEvents : ℤ := 500

def pageLimit (limit max : ℤ) : ℤ := if limit ≤ 0 ∨ limit > max then max else limit

inductive Page
  | aheadOfLog
  | compacted
  | events (rows : List EventRow)
  deriving DecidableEq

/-- How far the events of a run were dropped, or of any run. -/
def File.through (f : File) (run : RunID) : ℕ :=
  if run = "" then f.prunedMax else (f.pruned.find? run).getD 0

def asked (run : RunID) (r : EventRow) : Bool := run = "" ∨ r.event.run = run

def File.EventsAfter (f : File) (run : RunID) (after : ℕ) (limit : ℤ) : Page :=
  if after > f.lastSequence then .aheadOfLog
  else if after < f.through run then .compacted
  else
    .events ((f.events.filter fun r => asked run r && decide (r.sequence > after)).take
      (pageLimit limit MaxPageEvents).toNat)

structure Committed where
  first : ℕ
  last : ℕ
  deriving DecidableEq

structure Store where
  file : File
  last : ℕ
  deriving DecidableEq

/-- Opening returns claimed effects to the outbox, and refuses a corrupt file. -/
def OpenSQLite (f : File) : Option Store :=
  if f.corrupt then none else some ⟨{ f with outbox := reclaim f.outbox },f.lastSequence⟩

namespace Store

/-- `none` is an error. A transaction that fails leaves the end of the log to be read from the file, whether
the file took it or not. -/
def Commit (s : Store) (events : List Event) (effects : List Effect) (o : Outcome) : Store × Option Committed :=
  if events = [] ∧ effects = [] then (s,some ⟨0,0⟩)
  else if events = [] then (s,none)
  else
    let first := s.last+1
    let last := first+events.length-1
    let written := s.file.append first events effects
    match o with
    | .ok => (⟨written,last⟩,some ⟨first,last⟩)
    | .undone => (⟨s.file,s.file.lastSequence⟩,none)
    | .lostReply => (⟨written,written.lastSequence⟩,none)

end Store

section Rows

theorem number_append (n : ℕ) (es es' : List Event) : number n (es ++ es') = number n es ++ number (n+es.length) es' := by
  induction es generalizing n with
  | nil => rfl
  | cons e es ih => simp [number,ih,Nat.add_assoc,Nat.add_comm 1]

theorem mem_number {n : ℕ} {es : List Event} {r : EventRow} (h : r ∈ number n es) :
    n ≤ r.sequence ∧ r.sequence < n+es.length := by
  induction es generalizing n with
  | nil => simp [number] at h
  | cons e es ih =>
    rw [number,List.mem_cons] at h
    rcases h with rfl | h
    · simp
    · have := ih h
      simp only [List.length_cons]
      omega

end Rows

namespace File

variable {f : File}

theorem corrupt_eq_false :
    f.corrupt = false ↔ (∀ r ∈ f.events, r.sequence ≤ f.lastSequence) ∧ f.checkpointSequence ≤ f.lastSequence := by
  simp [corrupt]

end File

/-!
## Compact beside commits, crashes and power cuts

`Compact` looks at the file once, writes a checkpoint in batches as the next generation, switches to it in one
small transaction, drops the other generations, looks at the file again for the runs that are over and old
enough, and for each marks how far its events go and deletes them in batches. Commits run between any two of
these steps. A crash of the process ends a `Compact` where it stands. A power cut leaves the file as it was
after any earlier transaction.
-/

structure Retention where
  checkpointAfter : ℕ
  keepEvents : Duration
  deriving DecidableEq

def DefaultStepRows : ℕ := 1000

structure Target where
  run : RunID
  through : ℕ
  deriving DecidableEq

/-- Where a `Compact` stands, with what it holds in memory. -/
inductive Stage
  | clearing (state : State) (seq gen : ℕ)
  | writing (rest : List Event) (from_ seq gen : ℕ)
  | dropping (ckpt gen : ℕ)
  | pruning (ckpt : ℕ)
  | marking (t : Target) (rest : List Target)
  | deleting (t : Target) (rest : List Target)
  deriving DecidableEq

structure Compacting where
  p : Retention
  now : Time
  stage : Stage
  deriving DecidableEq

/-- What `DELETE … WHERE p LIMIT n` may leave of the rows: all that do not match, and all but `n` of those that
match. Which ones go is not said. -/
def Left {α : Type*} (p : α → Bool) (n : ℕ) (rows left : List α) : Prop :=
  left.Sublist rows ∧ left.filter (fun r => !p r) = rows.filter (fun r => !p r) ∧
    (left.filter p).length = (rows.filter p).length-n

instance {α : Type*} [DecidableEq α] (p : α → Bool) (n : ℕ) (rows left : List α) : Decidable (Left p n rows left) :=
  inferInstanceAs (Decidable (_ ∧ _ ∧ _))

structure Rest where
  checkpoint : List CheckpointRow := []
  events : List EventRow := []

def batchRows (gen : ℕ) : ℕ → List Event → List CheckpointRow
  | _,[] => []
  | n,e :: es => ⟨gen,n+1,e⟩ :: batchRows gen (n+1) es

namespace File

/-- The first look of `Compact`: whether a checkpoint is due. -/
def compact (f : File) (p : Retention) : Stage :=
  if f.lastSequence > f.checkpointSequence ∧ f.lastSequence-f.checkpointSequence ≥ p.checkpointAfter then
    .clearing f.recoverFrom f.lastSequence (f.checkpointGen+1)
  else .dropping f.checkpointSequence f.checkpointGen

/-- The mark of a target, which never falls. -/
def mark (f : File) (t : Target) : File :=
  { f with
    pruned := f.pruned.insert t.run (max ((f.pruned.find? t.run).getD 0) t.through)
    prunedMax := max f.prunedMax t.through }

end File

namespace Compacting

/-- The events of a run up to a sequence. For the empty run only those old enough. -/
def prunable (c : Compacting) (run : RunID) (bound : ℕ) (r : EventRow) : Bool :=
  r.event.run = run ∧ r.sequence ≤ bound ∧ (run ≠ "" ∨ r.event.at_ ≤ c.now-c.p.keepEvents)

/-- The runs that are over and old enough, and the empty run, which has the commands refused before any. -/
def eligible (c : Compacting) (f : File) : List RunID :=
  let past (status : RunStatus) :=
    (f.runs.values.filter fun r => r.status = status ∧ r.endedAt+c.p.keepEvents ≤ c.now).map Run.id
  (past .ended ++ past .failed ++ [""]).insertionSort (· ≤ ·)

def targets (c : Compacting) (f : File) (ckpt : ℕ) : List Target :=
  (c.eligible f).filterMap fun run =>
    (((f.events.filter (c.prunable run ckpt)).map EventRow.sequence).max?).map (Target.mk run)

def nextTarget : List Target → Option Stage
  | [] => none
  | t :: rest => some (.marking t rest)

/-- The next transaction of a `Compact`, or its second look at the file: the file after it and where the
`Compact` stands then, nowhere when it has returned. A delete takes rows as `Left` allows. -/
def next (c : Compacting) (checkpoint : State → List Event) (step : ℕ) (f : File) (left : Rest) : File × Option Stage :=
  match c.stage with
  | .clearing state seq gen =>
    if Left (fun r => decide (r.gen ≥ gen)) step f.checkpoint left.checkpoint then
      ({ f with checkpoint := left.checkpoint },
        some (if (f.checkpoint.filter fun r => r.gen ≥ gen).length < step then .writing (checkpoint state) 0 seq gen
          else c.stage))
    else (f,some c.stage)
  | .writing [] _ seq gen =>
    ({ f with checkpointSequence := seq, checkpointGen := gen },some (.dropping seq gen))
  | .writing (e :: es) from_ seq gen =>
    ({ f with checkpoint := f.checkpoint ++ batchRows gen from_ ((e :: es).take step) },
      some (.writing ((e :: es).drop step) (from_+step) seq gen))
  | .dropping ckpt gen =>
    if Left (fun r => decide (r.gen < gen)) step f.checkpoint left.checkpoint then
      ({ f with checkpoint := left.checkpoint },
        some (if (f.checkpoint.filter fun r => r.gen < gen).length < step then .pruning ckpt else c.stage))
    else (f,some c.stage)
  | .pruning ckpt => (f,nextTarget (c.targets f ckpt))
  | .marking t rest => (f.mark t,some (.deleting t rest))
  | .deleting t rest =>
    if Left (c.prunable t.run t.through) step f.events left.events then
      ({ f with events := left.events },
        if (f.events.filter (c.prunable t.run t.through)).length < step then nextTarget rest else some c.stage)
    else (f,some c.stage)

end Compacting

/-- The file, the process that has it open, and what the file was after each earlier transaction. `log` is all
the events of the commits in the file, whatever was dropped since. -/
structure World where
  file : File := {}
  log : List Event := []
  earlier : List (File × List Event) := []
  isOpen : Bool := false
  last : ℕ := 0
  step : ℕ := DefaultStepRows
  work : Option Compacting := none

inductive Move
  | commit (events : List Event) (effects : List Effect) (o : Outcome)
  | compact (p : Retention) (now : Time)
  | next (left : Rest) (o : Outcome)
  | crash
  | powerCut (back : ℕ)
  | reopen (stepRows : ℕ)

namespace World

def write (w : World) (f : File) (log : List Event) : World :=
  { w with file := f, log := log, earlier := (w.file,w.log) :: w.earlier }

def crash (w : World) : World := { w with isOpen := false, work := none }

def commit (w : World) (events : List Event) (effects : List Effect) (o : Outcome) : World :=
  let s := ((⟨w.file,w.last⟩ : Store).Commit events effects o).1
  if events = [] ∨ ¬ o.written then { w with last := s.last } else { w.write s.file (w.log ++ events) with last := s.last }

/-- A transaction of `Compact`, which returns at the first that fails. -/
def next (checkpoint : State → List Event) (w : World) (c : Compacting) (left : Rest) (o : Outcome) : World :=
  let (f,stage) := c.next checkpoint w.step w.file left
  let w := if o.written then w.write f w.log else w
  { w with work := if o.answered then stage.map fun stage => { c with stage := stage } else none }

/-- Opening reads where the log ends. The number of rows of a step may differ from process to process. -/
def reopen (w : World) (stepRows : ℕ) : World :=
  match OpenSQLite w.file with
  | none => w
  | some s =>
    { w.write s.file w.log with
      last := s.last, isOpen := true, work := none, step := if stepRows = 0 then DefaultStepRows else stepRows }

def act (checkpoint : State → List Event) (w : World) : Move → World
  | .commit events effects o => if w.isOpen then w.commit events effects o else w
  | .compact p now =>
    match w.isOpen,w.work with
    | true,none => { w with work := some ⟨p,now,w.file.compact p⟩ }
    | _,_ => w
  | .next left o =>
    match w.work with
    | some c => w.next checkpoint c left o
    | none => w
  | .crash => w.crash
  | .powerCut back =>
    match w.earlier.drop back with
    | [] => w.crash
    | v :: earlier => { w.crash with file := v.1, log := v.2, earlier := earlier }
  | .reopen stepRows => if w.isOpen then w else w.reopen stepRows

end World

end Vibesys.Sqlite
