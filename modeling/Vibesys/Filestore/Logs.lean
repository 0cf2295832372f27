import Mathlib.Data.List.TakeWhile
import Vibesys.Core.Life
import Vibesys.Outbox.Rows

/-!
# Logs and events in the file store

The log of a job is a directory of chunk files, each named for the offset at which it begins; an event of a
run is a file named for its sequence. The store keeps in memory where the chunks lie and how long each log
and each run's history is, and a request first recovers these from the directories when the commit before it
failed. Requests run one at a time.

A request carries what the machine makes of it: whether the directories can be read when it recovers, and
how its commit ends.
-/
namespace Vibesys.Filestore

open Vibesys.Core (JobID RunID Failure failf invalid CheckName)
open Library (Table)
open Outbox (Outcome)

def notFound (message : String) : Failure := failf .notFound message

/-- A failure of the backend that is not typed, under the text `failure` gives it. -/
def internal (message : String) : Failure := failf .internal message

structure Chunk where
  offset : ℕ
  size : ℕ
  deriving DecidableEq

structure LogChunk (β : Type*) where
  data : List β
  next : ℕ
  deriving DecidableEq

structure Event (E : Type*) where
  sequence : ℕ
  run : RunID
  draft : E
  deriving DecidableEq

/-- What is on disk, with the entries of a directory in the order of the numbers they are named for, what the
backend and the ledger keep in memory of it, and what has passed its commit point so far: the chunks of each
job and the drafts of each run. -/
structure Store (β E : Type*) where
  jobFiles : List JobID := []
  logFiles : Table JobID (Table ℕ (List β)) := ∅
  eventFiles : Table RunID (Table ℕ (Event E)) := ∅
  index : Table JobID (List Chunk) := ∅
  jobs : List JobID := []
  logs : Table JobID ℕ := ∅
  events : Table RunID ℕ := ∅
  stale : Bool := true
  written : Table JobID (List (List β)) := ∅
  happened : Table RunID (List E) := ∅
  deriving DecidableEq

variable {β E : Type*}

namespace Store

def chunkFiles (s : Store β E) (id : JobID) : Table ℕ (List β) := (s.logFiles.find? id).getD ∅

def records (s : Store β E) (run : RunID) : Table ℕ (Event E) := (s.eventFiles.find? run).getD ∅

def indexed (s : Store β E) (id : JobID) : List Chunk := (s.index.find? id).getD []

def logLength (s : Store β E) (id : JobID) : ℕ := (s.logs.find? id).getD 0

def eventCount (s : Store β E) (run : RunID) : ℕ := (s.events.find? run).getD 0

def chunks (s : Store β E) (id : JobID) : List (List β) := (s.written.find? id).getD []

/-- The bytes of a job's log. -/
def content (s : Store β E) (id : JobID) : List β := (s.chunks id).flatten

def drafts (s : Store β E) (run : RunID) : List E := (s.happened.find? run).getD []

/-- The events of a run, from the one with sequence 1. -/
def history (s : Store β E) (run : RunID) : List (Event E) :=
  (s.drafts run).mapIdx fun i draft => ⟨i+1,run,draft⟩

end Store

/-! ## Recovering -/

/-- One job's directory, from the bytes before its next chunk: the places of the chunks and the length. -/
def indexChunks (total : ℕ) : List (Σ _ : ℕ, List β) → Option (List Chunk × ℕ)
  | [] => some ([],total)
  | ⟨offset,data⟩ :: rest =>
    if data.length = 0 then none
    else if offset ≠ total then none
    else match indexChunks (total+data.length) rest with
      | none => none
      | some (index,length) => some (⟨offset,data.length⟩ :: index,length)

def indexLogs (files : Table JobID (Table ℕ (List β))) : Option (Table JobID (List Chunk × ℕ)) :=
  files.collect fun _ chunks =>
    match indexChunks 0 chunks.items with
    | none => none
    | some (index,total) => some (if total > 0 then some (index,total) else none)

def countEvents (files : Table RunID (Table ℕ (Event E))) : Option (Table RunID ℕ) :=
  files.collect fun _ records =>
    let n := records.keys.length
    if (List.range' 1 n).all fun i => (records.find? i).isSome then some (if n > 0 then some n else none) else none

namespace Store

/-- `Engine.recover`: the flag says whether the directories could be read. -/
def recover (s : Store β E) (readable : Bool) : Except Failure (Store β E) :=
  if !s.stale then .ok s
  else if !readable then .error (internal "the store could not be read")
  else match countEvents s.eventFiles,indexLogs s.logFiles with
    | some events,some logs =>
      .ok { s with
        index := logs.map Prod.fst
        jobs := s.jobFiles
        logs := logs.map Prod.snd
        events := events
        stale := false }
    | _,_ => .error (internal "the store is corrupt")

/-! ## Writing -/

/-- `Ledger.AppendLog`: the offset of the chunk to add, or none for no bytes. -/
def appendLogAt (s : Store β E) (id : JobID) (data : List β) : Except Failure (Option ℕ) :=
  if id ∉ s.jobs then .error (notFound s!"job {id}")
  else if data.length = 0 then .ok none
  else .ok (some (s.logLength id))

/-- `ensureDir` of the directory of a job's chunks. -/
def ensureLogDir (s : Store β E) (id : JobID) : Store β E :=
  match s.logFiles.find? id with
  | none => { s with logFiles := s.logFiles.insert id ∅ }
  | some _ => s

/-- The rename that publishes a chunk. -/
def publishChunk (s : Store β E) (id : JobID) (offset : ℕ) (data : List β) : Store β E :=
  { s with
    logFiles := s.logFiles.insert id ((s.chunkFiles id).insert offset data)
    written := s.written.insert id (s.chunks id ++ [data]) }

def applyLog (s : Store β E) (id : JobID) (offset : ℕ) (data : List β) : Store β E :=
  { s with
    index := s.index.insert id (s.indexed id ++ [⟨offset,data.length⟩])
    logs := s.logs.insert id (s.logLength id+data.length) }

/-- `Commit` of the chunk and what the engine does after it: a failed commit may have made the directory
or have passed its commit point. -/
def commitLog (s : Store β E) (id : JobID) (offset : ℕ) (data : List β) (outcome : Outcome) : Store β E :=
  match outcome with
  | .ok => ((s.ensureLogDir id).publishChunk id offset data).applyLog id offset data
  | .lostReply => { (s.ensureLogDir id).publishChunk id offset data with stale := true }
  | .undone => { s.ensureLogDir id with stale := true }

/-- `Engine.AppendLog`, with the store it leaves. -/
def AppendLog (s : Store β E) (id : JobID) (data : List β) (readable : Bool) (outcome : Outcome) :
    Except Failure Unit × Store β E :=
  match s.recover readable with
  | .error err => (.error err,s)
  | .ok s =>
    match s.appendLogAt id data with
    | .error err => (.error err,s)
    | .ok none => (.ok (),s)
    | .ok (some offset) =>
      (if outcome.answered then .ok () else .error (internal "the commit failed"),s.commitLog id offset data outcome)

/-- `Ledger.AppendEvent`: the flag is what `Hold` says of the draft. -/
def appendEventAt (s : Store β E) (run : RunID) (draft : E) (held : Option Failure) : Except Failure (Event E) :=
  match held with
  | some err => .error err
  | none =>
    match CheckName "event.Run" run with
    | some err => .error err
    | none => .ok ⟨s.eventCount run+1,run,draft⟩

def ensureRunDir (s : Store β E) (run : RunID) : Store β E :=
  match s.eventFiles.find? run with
  | none => { s with eventFiles := s.eventFiles.insert run ∅ }
  | some _ => s

def publishEvent (s : Store β E) (event : Event E) : Store β E :=
  { s with
    eventFiles := s.eventFiles.insert event.run ((s.records event.run).insert event.sequence event)
    happened := s.happened.insert event.run (s.drafts event.run ++ [event.draft]) }

def applyEvent (s : Store β E) (event : Event E) : Store β E :=
  { s with events := s.events.insert event.run (s.eventCount event.run+1) }

def commitEvent (s : Store β E) (event : Event E) (outcome : Outcome) : Store β E :=
  match outcome with
  | .ok => ((s.ensureRunDir event.run).publishEvent event).applyEvent event
  | .lostReply => { (s.ensureRunDir event.run).publishEvent event with stale := true }
  | .undone => { s.ensureRunDir event.run with stale := true }

def AppendEvent (s : Store β E) (run : RunID) (draft : E) (held : Option Failure) (readable : Bool)
    (outcome : Outcome) : Except Failure (Event E) × Store β E :=
  match s.recover readable with
  | .error err => (.error err,s)
  | .ok s =>
    match s.appendEventAt run draft held with
    | .error err => (.error err,s)
    | .ok event =>
      (if outcome.answered then .ok event else .error (internal "the commit failed"),s.commitEvent event outcome)

/-- A commit of any other change: it may add a job, and touches neither logs nor events. -/
def putJob (s : Store β E) (id : JobID) (readable : Bool) (outcome : Outcome) : Store β E :=
  match s.recover readable with
  | .error _ => s
  | .ok s =>
    match outcome with
    | .ok => { s with jobFiles := id :: s.jobFiles, jobs := id :: s.jobs }
    | .lostReply => { s with jobFiles := id :: s.jobFiles, stale := true }
    | .undone => { s with stale := true }

def reopen (s : Store β E) : Store β E := { s with index := ∅, jobs := [], logs := ∅, events := ∅, stale := true }

/-! ## Reading -/

def LogWindow (s : Store β E) (id : JobID) (offset : ℕ) (limit : ℤ) : Except Failure (ℕ × ℕ) :=
  if id ∉ s.jobs then .error (notFound s!"log of job {id}")
  else if limit < 0 then .error (invalid "max" s!"{limit} is negative")
  else
    let length := s.logLength id
    if offset > length then .error (invalid "offset" s!"{offset} is past the end of the log, at {length}")
    else .ok (offset,if 0 < limit ∧ length-offset > limit.toNat then offset+limit.toNat else length)

end Store

/-- The loop of `Log` over the chunks from the first that ends after `lo`, where `read` is the directory. -/
def gather (read : ℕ → Option (List β)) (lo hi : ℕ) : List Chunk → Option (List β)
  | [] => some []
  | c :: rest =>
    if c.offset < hi then
      match read c.offset with
      | none => none
      | some data =>
        if data.length ≠ c.size then none
        else
          let first := max lo c.offset-c.offset
          let last := min hi (c.offset+c.size)-c.offset
          match gather read lo hi rest with
          | none => none
          | some out => some ((data.take last).drop first ++ out)
    else some []

namespace Store

/-- `backend.Log`: bytes `lo` to `hi`, with `hi` excluded. -/
def Log (s : Store β E) (id : JobID) (lo hi : ℕ) : Except Failure (List β) :=
  let chunks := (s.indexed id).dropWhile fun c => c.offset+c.size ≤ lo
  match gather (s.chunkFiles id).find? lo hi chunks with
  | none => .error (internal "a chunk is not what the log expects")
  | some out =>
    if out.length ≠ hi-lo then
      .error (internal s!"the log of job {id} has {out.length} of the {hi-lo} bytes asked for")
    else .ok out

def readLog (s : Store β E) (id : JobID) (offset : ℕ) (limit : ℤ) : Except Failure (LogChunk β) :=
  match s.LogWindow id offset limit with
  | .error err => .error err
  | .ok (lo,hi) =>
    if lo = hi then .ok ⟨[],offset⟩
    else
      match s.Log id lo hi with
      | .error err => .error err
      | .ok data => .ok ⟨data,hi⟩

def ReadLog (s : Store β E) (id : JobID) (offset : ℕ) (limit : ℤ) (readable : Bool) :
    Except Failure (LogChunk β) × Store β E :=
  match s.recover readable with
  | .error err => (.error err,s)
  | .ok s => (s.readLog id offset limit,s)

/-- The positions of a run's events a read asks for: there are none when the first is greater than the last. -/
def EventWindow (s : Store β E) (run : RunID) (after : ℕ) (limit : ℤ) : Except Failure (ℕ × ℕ) :=
  if limit < 0 then .error (invalid "limit" s!"{limit} is negative")
  else
    let total := s.eventCount run
    if after ≥ total then .ok (1,0)
    else
      let first := after+1
      .ok (first,if 0 < limit ∧ total-first+1 > limit.toNat then first+limit.toNat-1 else total)

def readEvent (s : Store β E) (run : RunID) (seq : ℕ) : Option (Event E) :=
  match (s.records run).find? seq with
  | none => none
  | some event => if event.sequence ≠ seq ∨ event.run ≠ run then none else some event

def readEvents (s : Store β E) (run : RunID) (after : ℕ) (limit : ℤ) : Except Failure (List (Event E)) :=
  match s.EventWindow run after limit with
  | .error err => .error err
  | .ok (first,last) =>
    if first > last then .ok []
    else
      match (List.range' first (last+1-first)).mapM (s.readEvent run) with
      | none => .error (internal "a file does not hold the event it is named for")
      | some events => .ok events

def Events (s : Store β E) (run : RunID) (after : ℕ) (limit : ℤ) (readable : Bool) :
    Except Failure (List (Event E)) × Store β E :=
  match s.recover readable with
  | .error err => (.error err,s)
  | .ok s => (s.readEvents run after limit,s)

end Store

/-! ## Runs -/

inductive Op (β E : Type*)
  | appendLog (id : JobID) (data : List β) (readable : Bool) (outcome : Outcome)
  | appendEvent (run : RunID) (draft : E) (held : Option Failure) (readable : Bool) (outcome : Outcome)
  | putJob (id : JobID) (readable : Bool) (outcome : Outcome)
  | readLog (id : JobID) (offset : ℕ) (limit : ℤ) (readable : Bool)
  | events (run : RunID) (after : ℕ) (limit : ℤ) (readable : Bool)
  | reopen

def Store.step (s : Store β E) : Op β E → Store β E
  | .appendLog id data readable outcome => (s.AppendLog id data readable outcome).2
  | .appendEvent run draft held readable outcome => (s.AppendEvent run draft held readable outcome).2
  | .putJob id readable outcome => s.putJob id readable outcome
  | .readLog id offset limit readable => (s.ReadLog id offset limit readable).2
  | .events run after limit readable => (s.Events run after limit readable).2
  | .reopen => s.reopen

/-- The store after the operations, from an empty directory. -/
def Store.after (ops : List (Op β E)) : Store β E := Library.run Store.step {} ops

/-! ## A client that reads page by page -/

def Store.readPages (s : Store β E) (id : JobID) (offset : ℕ) : List ℤ → Except Failure (List (LogChunk β))
  | [] => .ok []
  | limit :: limits =>
    match s.ReadLog id offset limit true with
    | (.error err,_) => .error err
    | (.ok piece,s) =>
      if piece.data = [] then .ok [piece]
      else
        match s.readPages id piece.next limits with
        | .error err => .error err
        | .ok pieces => .ok (piece :: pieces)

def Store.eventPages (s : Store β E) (run : RunID) (after : ℕ) : List ℤ → Except Failure (List (List (Event E)))
  | [] => .ok []
  | limit :: limits =>
    match s.Events run after limit true with
    | (.error err,_) => .error err
    | (.ok page,s) =>
      match page.getLast? with
      | none => .ok [page]
      | some event =>
        match s.eventPages run event.sequence limits with
        | .error err => .error err
        | .ok pages => .ok (page :: pages)

/-!
## Chunks one after another

The chunks of a log lie in its directory at the offsets that the chunks before them give. Indexing such a
directory succeeds, and cutting bytes `lo` to `hi` out of the chunk files gives these bytes of the log,
however the two ends fall into the chunks.
-/

/-- The files of chunks that begin at an offset. -/
def layout (offset : ℕ) : List (List β) → List (Σ _ : ℕ, List β)
  | [] => []
  | data :: rest => ⟨offset,data⟩ :: layout (offset+data.length) rest

def placed (offset : ℕ) : List (List β) → List Chunk
  | [] => []
  | data :: rest => ⟨offset,data.length⟩ :: placed (offset+data.length) rest

lemma layout_append (offset : ℕ) (cs : List (List β)) (data : List β) :
    layout offset (cs ++ [data]) = layout offset cs ++ [⟨offset+cs.flatten.length,data⟩] := by
  induction cs generalizing offset with
  | nil => simp [layout]
  | cons c cs ih => simp [layout,ih,Nat.add_assoc]

lemma placed_append (offset : ℕ) (cs : List (List β)) (data : List β) :
    placed offset (cs ++ [data]) = placed offset cs ++ [⟨offset+cs.flatten.length,data.length⟩] := by
  induction cs generalizing offset with
  | nil => simp [placed]
  | cons c cs ih => simp [placed,ih,Nat.add_assoc]

lemma lt_of_mem_layout {offset : ℕ} {cs : List (List β)} (hcs : ∀ c ∈ cs, c ≠ []) {e : Σ _ : ℕ, List β}
    (he : e ∈ layout offset cs) : e.1 < offset+cs.flatten.length := by
  induction cs generalizing offset with
  | nil => simp [layout] at he
  | cons c cs ih =>
    have hc : 0 < c.length := List.length_pos_iff.mpr (hcs c List.mem_cons_self)
    rw [List.flatten_cons,List.length_append]
    rcases List.mem_cons.mp he with rfl | he
    · show offset < _
      omega
    · have := ih (fun c hc => hcs c (List.mem_cons_of_mem _ hc)) he
      omega

theorem indexChunks_layout (offset : ℕ) {cs : List (List β)} (hcs : ∀ c ∈ cs, c ≠ []) :
    indexChunks offset (layout offset cs) = some (placed offset cs,offset+cs.flatten.length) := by
  induction cs generalizing offset with
  | nil => simp [layout,placed,indexChunks]
  | cons c cs ih =>
    have hc : c.length ≠ 0 := fun h => hcs c List.mem_cons_self (List.length_eq_zero_iff.mp h)
    have hrest := ih (offset+c.length) fun c hc => hcs c (List.mem_cons_of_mem _ hc)
    simp [layout,placed,indexChunks,hc,hrest,Nat.add_assoc]

section Gather

variable {read : ℕ → Option (List β)} {lo hi : ℕ}

/-- Bytes `lo` to `hi` of what lies from an offset on. -/
def cut (lo hi offset : ℕ) (bytes : List β) : List β := (bytes.take (hi-offset)).drop (lo-offset)

lemma cut_of_le {offset : ℕ} (h : hi ≤ offset) (bytes : List β) : cut lo hi offset bytes = [] := by
  rw [cut,Nat.sub_eq_zero_of_le h,List.take_zero,List.drop_nil]

lemma cut_append {offset : ℕ} (c rest : List β) :
    cut lo hi offset (c ++ rest) =
      (c.take (min hi (offset+c.length)-offset)).drop (max lo offset-offset) ++
        cut lo hi (offset+c.length) rest := by
  have hfirst : c.take (hi-offset) = c.take (min hi (offset+c.length)-offset) := by
    rw [List.take_eq_take_iff]
    omega
  rw [cut,List.take_append,List.drop_append,List.length_take,show max lo offset-offset = lo-offset by omega,hfirst]
  refine congrArg _ ?_
  by_cases h : hi ≤ offset+c.length
  · rw [cut_of_le h,show hi-offset-c.length = 0 by omega,List.take_zero,List.drop_nil]
  · rw [cut,show hi-offset-c.length = hi-(offset+c.length) by omega,
      show lo-offset-min (hi-offset) c.length = lo-(offset+c.length) by omega]

lemma cut_append_of_le {offset : ℕ} {c : List β} (h : offset+c.length ≤ lo) (rest : List β) :
    cut lo hi offset (c ++ rest) = cut lo hi (offset+c.length) rest := by
  rw [cut_append,List.drop_eq_nil_of_le,List.nil_append]
  rw [List.length_take]
  omega

theorem gather_placed {offset : ℕ} {cs : List (List β)} (hread : ∀ e ∈ layout offset cs, read e.1 = some e.2) :
    gather read lo hi (placed offset cs) = some (cut lo hi offset cs.flatten) := by
  induction cs generalizing offset with
  | nil => simp [placed,gather,cut]
  | cons c cs ih =>
    rw [placed,gather,List.flatten_cons]
    by_cases h : offset < hi
    · have hc : read offset = some c := hread ⟨offset,c⟩ List.mem_cons_self
      have hrest := ih fun e he => hread e (List.mem_cons_of_mem _ he)
      simp [h,hc,hrest,cut_append]
    · rw [if_neg h,cut_of_le (Nat.le_of_not_lt h)]

theorem gather_dropWhile {offset : ℕ} {cs : List (List β)} (hread : ∀ e ∈ layout offset cs, read e.1 = some e.2) :
    gather read lo hi ((placed offset cs).dropWhile fun c => c.offset+c.size ≤ lo) =
      some (cut lo hi offset cs.flatten) := by
  induction cs generalizing offset with
  | nil => simp [placed,gather,cut]
  | cons c cs ih =>
    by_cases h : offset+c.length ≤ lo
    · rw [placed,List.dropWhile_cons_of_pos (by simpa using h),List.flatten_cons,cut_append_of_le h]
      exact ih fun e he => hread e (List.mem_cons_of_mem _ he)
    · rw [placed,List.dropWhile_cons_of_neg (by simpa using h)]
      exact gather_placed hread

end Gather

def pageSize (left : ℕ) (limit : ℤ) : ℕ := if 0 < limit ∧ left > limit.toNat then limit.toNat else left

lemma pageSize_le (left : ℕ) (limit : ℤ) : pageSize left limit ≤ left := by
  unfold pageSize
  split_ifs <;> omega

lemma pageSize_pos {left : ℕ} (h : 0 < left) (limit : ℤ) : 0 < pageSize left limit := by
  unfold pageSize
  split_ifs <;> omega

end Vibesys.Filestore
