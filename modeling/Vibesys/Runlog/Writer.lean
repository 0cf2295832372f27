import Vibesys.Library.Run
import Vibesys.Library.Table
import Vibesys.Runlog.Framing

/-!
# The writer of a run.log

Appends write a frame at once, and a committer syncs, folds and publishes what is pending in batches. Each step of
the committer is one act, so that any call, failure or crash may fall between two of them. A call that waits for
durability returns in an act of its own. Beside the writer stand the records that it opened with followed by those
it was given since, and the last record for which such a call returned.
-/
namespace Vibesys.Runlog

open Library

def CHECKPOINT_RECORDS : ℕ := 256
def COMMIT_INTERVAL : ℚ := 1/10

/-! ## When to commit -/

inductive CommitAction
  | stop
  | wait (delay : Option ℚ)
  | batch (checkpoint : Bool)

structure CommitIntent where
  due : Option ℚ := none
  urgent_seq : ℕ := 0
  checkpoint_seq : ℕ := 0
  closing : Bool := false

namespace CommitIntent

def queued (i : CommitIntent) (now : ℚ) : CommitIntent :=
  match i.due with
  | some _ => i
  | none => { i with due := some (now+COMMIT_INTERVAL) }

def requested (i : CommitIntent) (target : ℕ) (checkpoint closing : Bool) : CommitIntent :=
  { i with
    urgent_seq := max i.urgent_seq target
    checkpoint_seq := max i.checkpoint_seq (if checkpoint then target else 0)
    closing := i.closing || closing }

def taken (i : CommitIntent) : CommitIntent := { i with due := none }

def next (i : CommitIntent) (now : ℚ) (committed_seq checkpoint_seq : ℕ) (failed : Bool) : CommitAction :=
  if failed then .stop
  else
    let checkpoint := decide (i.checkpoint_seq > checkpoint_seq)
    match i.due with
    | none => if checkpoint then .batch true else if i.closing then .stop else .wait none
    | some due =>
      let delay := max 0 (due-now)
      if delay ≠ 0 ∧ checkpoint = false ∧ i.urgent_seq ≤ committed_seq then .wait (some delay) else .batch checkpoint

end CommitIntent

/-! ## Files -/

structure Keyframe (K : Type) where
  through_seq : ℕ
  log_offset : ℕ
  facts : K
  deriving DecidableEq

/-- The log with the number of its bytes that were synced, the sequence `run.head` covers, and the keyframes by
name. -/
structure Disk (K : Type) where
  log : Option Bytes := none
  synced : ℕ := 0
  head : Option ℕ := none
  keyframes : Table ℕ (Keyframe K) := ∅

/-- How publishing a file ends: it may raise before the new file is there or after. -/
inductive Publish
  | ok
  | before
  | after
  deriving DecidableEq

namespace Disk

variable {K : Type}

/-- Publishes an immutable file, and says whether that raised. -/
def write_keyframe [DecidableEq K] (d : Disk K) (k : Keyframe K) (p : Publish) : Disk K × Bool :=
  if p = .before then (d,true)
  else
    match d.keyframes.find? k.through_seq with
    | some old => (d,decide (old ≠ k) || decide (p = .after))
    | none => ({ d with keyframes := d.keyframes.insert k.through_seq k },decide (p = .after))

def publish_head (d : Disk K) (through_seq : ℕ) (headline : Headline) (p : Publish) : Disk K × Bool :=
  match headline with
  | .raises => (d,true)
  | .absent => (d,false)
  | .present => if p = .before then (d,true) else ({ d with head := some through_seq },decide (p = .after))

end Disk

/-! ## The writer -/

inductive Phase
  | sync
  | fold
  | keyframe
  | head
  deriving DecidableEq

structure Work (B : Type) where
  todo : List (Record B × ℕ)
  checkpoint : Bool
  batch : Bool
  phase : Phase

structure FileRunLogWriter (B K : Type) where
  sequence : ℕ
  pending : List (Record B × ℕ) := []
  intent : CommitIntent := {}
  failure : Bool := false
  done : Bool := false
  committed_seq : ℕ
  checkpoint_seq : ℕ
  skeleton : Keyframe K
  work : Option (Work B) := none
  waiting : List (ℕ × Bool) := []

structure Store (B K : Type) where
  disk : Disk K := {}
  writer : Option (FileRunLogWriter B K) := none
  records : List (Record B) := []
  returned : ℕ := 0

variable {B K : Type}

namespace FileRunLogWriter

def fail (v : FileRunLogWriter B K) : FileRunLogWriter B K := { v with failure := true, done := true, work := none }

def request_commit (v : FileRunLogWriter B K) (target : ℕ) (checkpoint closing : Bool) : FileRunLogWriter B K :=
  { v with intent := v.intent.requested target checkpoint closing }

def isCommitted (v : FileRunLogWriter B K) (wait : ℕ × Bool) : Bool :=
  decide (wait.1 ≤ v.committed_seq) && (!wait.2 || decide (wait.1 ≤ v.checkpoint_seq))

end FileRunLogWriter

namespace Store

variable [DecidableEq K] (s : Schema B K)

/-! ### Calls -/

/-- The bytes that the call writes are given, if it fails. -/
def append (w : Store B K) (record : Record B) (now : ℚ) (failed : Option ℕ) : Store B K :=
  match w.writer, encode_frame s record with
  | some v, some frame =>
    if v.failure || v.intent.closing then w
    else if record.seq ≠ v.sequence+1 then w
    else
      let log := w.disk.log.getD []
      match failed with
      | some written =>
        { w with
          disk := { w.disk with log := some (log ++ frame.take written) }
          writer := some { v with failure := true }
          records := if frame.length ≤ written then w.records ++ [record] else w.records }
      | none =>
        let boundary := s.isBoundary record.body
        let v := { v with
          intent := v.intent.queued now
          pending := v.pending ++ [(record,(log ++ frame).length)]
          sequence := record.seq }
        let v :=
          if boundary then
            { v.request_commit record.seq true false with waiting := v.waiting ++ [(record.seq,true)] }
          else v
        { w with
          disk := { w.disk with log := some (log ++ frame) }
          writer := some v
          records := w.records ++ [record] }
  | _, _ => w

/-- `commit`, or `checkpoint`: a request for the current prefix, and a call that waits for it. -/
def request (w : Store B K) (checkpoint : Bool) : Store B K :=
  match w.writer with
  | some v =>
    if v.failure || v.intent.closing then w
    else
      { w with
        writer := some { v.request_commit v.sequence checkpoint false with
          waiting := v.waiting ++ [(v.sequence,checkpoint)] } }
  | none => w

def close (w : Store B K) : Store B K :=
  { w with writer := w.writer.map fun v => v.request_commit v.sequence true true }

def returns (w : Store B K) (i : ℕ) : Store B K :=
  match w.writer with
  | some v =>
    match v.waiting[i]? with
    | some wait =>
      if !v.failure && v.isCommitted wait then
        { w with writer := some { v with waiting := v.waiting.eraseIdx i }, returned := max w.returned wait.1 }
      else w
    | none => w
  | none => w

/-! ### The committer -/

def take_batch (w : Store B K) (now : ℚ) : Store B K :=
  match w.writer with
  | some v =>
    if v.work.isSome || v.done then w
    else
      match v.intent.next now v.committed_seq v.checkpoint_seq v.failure with
      | .stop => { w with writer := some { v with done := true } }
      | .wait _ => w
      | .batch checkpoint =>
        { w with
          writer := some { v with
            pending := []
            intent := v.intent.taken
            work := some ⟨v.pending,checkpoint,!v.pending.isEmpty,if v.pending.isEmpty then .fold else .sync⟩ } }
  | none => w

def work (w : Store B K) (phase : Phase) (f : FileRunLogWriter B K → Work B → Store B K) : Store B K :=
  match w.writer with
  | some v =>
    match v.work with
    | some job => if job.phase = phase then f v job else w
    | none => w
  | none => w

def sync (w : Store B K) (ok : Bool) : Store B K :=
  w.work .sync fun v job =>
    if ok then
      { w with
        disk := { w.disk with synced := (w.disk.log.getD []).length }
        writer := some { v with work := some { job with phase := .fold } } }
    else { w with writer := some v.fail }

/-- The next record of the batch is folded, and a boundary is published. -/
def fold (w : Store B K) (p : Publish) : Store B K :=
  w.work .fold fun v job =>
    match job.todo with
    | [] => { w with writer := some { v with work := some { job with phase := .keyframe } } }
    | (record,offset) :: todo =>
      if record.seq ≠ v.skeleton.through_seq+1 || !s.observes record.body then { w with writer := some v.fail }
      else
        let v := { v with skeleton := ⟨record.seq,offset,s.append_skeleton v.skeleton.facts record⟩ }
        if s.isBoundary record.body then
          let (disk,raised) := w.disk.write_keyframe v.skeleton p
          if raised then { w with disk := disk, writer := some v.fail }
          else
            { w with
              disk := disk
              writer := some { v with checkpoint_seq := record.seq, work := some { job with todo := todo } } }
        else { w with writer := some { v with work := some { job with todo := todo } } }

def keyframe (w : Store B K) (p : Publish) : Store B K :=
  w.work .keyframe fun v job =>
    let through := v.skeleton.through_seq
    if (job.checkpoint && decide (through > v.checkpoint_seq)) || decide (through-v.checkpoint_seq ≥ CHECKPOINT_RECORDS) then
      let (disk,raised) := w.disk.write_keyframe v.skeleton p
      if raised then { w with disk := disk, writer := some v.fail }
      else
        { w with
          disk := disk
          writer := some { v with checkpoint_seq := through, work := some { job with phase := .head } } }
    else { w with writer := some { v with work := some { job with phase := .head } } }

def head (w : Store B K) (p : Publish) : Store B K :=
  w.work .head fun v job =>
    let (disk,raised) :=
      if job.batch then w.disk.publish_head v.skeleton.through_seq (s.headline v.skeleton.facts) p else (w.disk,false)
    if raised then { w with disk := disk, writer := some v.fail }
    else { w with disk := disk, writer := some { v with committed_seq := v.skeleton.through_seq, work := none } }

/-! ### Stopping and opening -/

/-- The process ends. Of the bytes that were not synced any number survives. -/
def stops (w : Store B K) (bytes : ℕ) : Store B K :=
  { w with disk := { w.disk with log := w.disk.log.map (List.take (max w.disk.synced bytes)) }, writer := none }

end Store

/-- Where an opening is cut short, by an error or because the process ends. -/
inductive Cut
  | created (bytes : ℕ)
  | truncated
  | synced
  | head (p : Publish)
  | keyframe (p : Publish)

/-- The sequences are 1, 2, 3 and so on. -/
def Dense (rs : List (Record B)) : Prop := rs.map Record.seq = List.range' 1 rs.length

instance (rs : List (Record B)) : Decidable (Dense rs) := inferInstanceAs (Decidable (_ = _))

namespace Schema

variable (s : Schema B K)

def fold (rs : List (Record B)) : K := rs.foldl s.append_skeleton s.blank

def opened (rs : List (Record B)) (log_offset : ℕ) : FileRunLogWriter B K :=
  { sequence := rs.length
    committed_seq := rs.length
    checkpoint_seq := rs.length
    skeleton := ⟨rs.length,log_offset,s.fold rs⟩ }

/-- The log after recovery and its records, or an error. -/
def recover (disk : Disk K) (bytes : Bytes) : Option (Bytes × List (Record B)) :=
  let scan := RunLogReader s bytes
  if ¬Dense scan.records ∨ (scan.records.any fun r => !s.observes r.body) = true then none
  else if scan.records.length < disk.head.getD 0 then none
  else
    match scan.stop with
    | .corrupt _ => none
    | .torn => some (if scan.offset = 0 then RUN_LOG_MAGIC else bytes.take scan.offset,scan.records)
    | .ended => some (bytes,scan.records)

end Schema

namespace Store

variable [DecidableEq K] (s : Schema B K)

/-- The head of what was recovered is published if there are records. -/
def headed (disk : Disk K) (rs : List (Record B)) (p : Publish) : Disk K × Bool :=
  if rs.isEmpty then (disk,false) else disk.publish_head rs.length (s.headline (s.fold rs)) p

def framed (disk : Disk K) (rs : List (Record B)) (log_offset : ℕ) (p : Publish) : Disk K × Bool :=
  if rs.isEmpty then (disk,false) else disk.write_keyframe (s.opened rs log_offset).skeleton p

/-- A log that was created or recovered is synced and published. -/
def reopen (w : Store B K) (log : Bytes) (log_offset : ℕ) (rs : List (Record B)) (cut : Option Cut) : Store B K :=
  let synced := { w.disk with log := some log, synced := log.length }
  let (disk,raised) := headed s synced rs .ok
  match cut with
  | some (.created _) => w
  | some .truncated => { w with disk := { w.disk with log := some log, synced := min w.disk.synced log.length } }
  | some .synced => { w with disk := synced }
  | some (.head p) => { w with disk := (headed s synced rs p).1 }
  | some (.keyframe p) => { w with disk := if raised then disk else (framed s disk rs log_offset p).1 }
  | none =>
    if raised then { w with disk := disk }
    else
      let (disk,raised) := framed s disk rs log_offset .ok
      if raised then { w with disk := disk }
      else { w with disk := disk, writer := some (s.opened rs log_offset), records := rs }

/-- Opens the log, whole or up to the cut. Without a writer that is the result there is none. -/
def opens (w : Store B K) (cut : Option Cut) : Store B K :=
  match w.writer with
  | some _ => w
  | none =>
    match w.disk.log with
    | none =>
      match cut with
      | some (.created bytes) => { w with disk := { w.disk with log := some (RUN_LOG_MAGIC.take bytes), synced := 0 } }
      | _ => w.reopen s RUN_LOG_MAGIC 0 [] cut
    | some bytes =>
      match s.recover w.disk bytes with
      | some (log,rs) => w.reopen s log log.length rs cut
      | none => w

end Store

/-! ## Runs -/

inductive Act (B : Type)
  | append (record : Record B) (now : ℚ) (failed : Option ℕ)
  | commit
  | checkpoint
  | close
  | returns (i : ℕ)
  | take (now : ℚ)
  | sync (ok : Bool)
  | fold (p : Publish)
  | keyframe (p : Publish)
  | head (p : Publish)
  | stops (bytes : ℕ)
  | opens (cut : Option Cut)

namespace Store

variable [DecidableEq K] (s : Schema B K)

def step (w : Store B K) : Act B → Store B K
  | .append record now failed => w.append s record now failed
  | .commit => w.request false
  | .checkpoint => w.request true
  | .close => w.close
  | .returns i => w.returns i
  | .take now => w.take_batch now
  | .sync ok => w.sync ok
  | .fold p => w.fold s p
  | .keyframe p => w.keyframe p
  | .head p => w.head s p
  | .stops bytes => w.stops bytes
  | .opens cut => w.opens s cut

end Store
end Vibesys.Runlog
