import Vibesys.Library.Run
import Vibesys.Tail.Reader

/-!
# Followers of a log that share an index

A follower's `Read` waits for records and gives a batch of them. Each access of it to the file, to `run.head` and
to the index is a step of its own, and between two steps the file may grow, `run.head` be replaced, and other
followers go on. The file is only appended to. A read of the file, of its status or of `run.head` does not fail;
a call whose context ends returns what it has.

`start`, `headed`, `free` and `given` say what happened to a follower: the sequence it started after, whether
`run.head` named a committed sequence when it started, the last sequence it took from the file while `run.head`
named none, and the batches it was given, with the committed sequence last read.
-/
namespace Vibesys.Tail

open Runlog (Bytes RUN_LOG_MAGIC)

/-- The offset of the next frame and the last sequence before it. -/
structure Position where
  Offset : ℕ := 0
  ThroughSeq : ℕ := 0
  deriving DecidableEq

/-- The seek positions of one file, and the size it had when they were last looked at. -/
structure Index where
  size : ℕ := 0
  points : List Position := []
  deriving DecidableEq

namespace Index

/-- A file that is smaller than it was is another one, as far as the index knows. -/
def file (i : Index) (size : ℕ) : Index := ⟨size,if size < i.size then [] else i.points⟩

/-- The positions before a sequence. The points are sorted, and the search is the source's binary one. -/
def below (i : Index) (seq : ℕ) : List Position := i.points.takeWhile fun p => p.ThroughSeq < seq

def above (i : Index) (seq : ℕ) : List Position := i.points.dropWhile fun p => p.ThroughSeq < seq

def Before (i : Index) (size fromSeq : ℕ) : Position := (((i.file size).below fromSeq).getLast?).getD {}

def Observe (i : Index) (size : ℕ) (p : Position) : Index :=
  if p.ThroughSeq % 128 ≠ 0 then i
  else
    let f := i.file size
    if (f.above p.ThroughSeq).head?.map Position.ThroughSeq = some p.ThroughSeq then f
    else { f with points := f.below p.ThroughSeq ++ p :: f.above p.ThroughSeq }

end Index

/-- What a `Read` in progress holds. -/
structure Call where
  target : ℤ
  batch : List Bytes := []
  size : ℕ := 0
  deriving DecidableEq

/-- Where a follower is in `Read`, and what it reads next. -/
inductive Place
  | idle
  | refresh (target : ℤ)
  | loop (c : Call)
  | magic (c : Call)
  | length (c : Call)
  | frame (c : Call) (length width : ℕ)
  | stat (c : Call) (payload : Bytes)
  | observe (c : Call) (payload : Bytes) (size : ℕ)
  | ended (c : Call)
  | waits (target : ℤ)
  | corrupt (reason : String)
  deriving DecidableEq

structure Batch where
  records : List Bytes
  limit : Option ℕ
  deriving DecidableEq

structure Follower where
  fromSeq : ℕ
  start : ℕ
  position : Position
  headed : Bool
  reader : Option Reader := none
  pending : Option Bytes := none
  ceiling : ℕ := 0
  bounded : Bool := false
  place : Place := .idle
  free : ℕ := 0
  given : List Batch := []
  deriving DecidableEq

namespace Follower

def goTo (f : Follower) (place : Place) : Follower := { f with place := place }

def give (f : Follower) (batch : List Bytes) : Follower :=
  { f with place := .idle, given := f.given ++ [⟨batch,if f.bounded then some f.ceiling else none⟩] }

/-- A record is held over when the batch would pass the target with it. -/
def accept (f : Follower) (c : Call) (payload : Bytes) : Follower :=
  if c.batch ≠ [] ∧ ((c.size + payload.length + 11 : ℕ) : ℤ) > c.target then { f.give c.batch with pending := some payload }
  else if ((c.size + payload.length + 11 : ℕ) : ℤ) ≥ c.target then f.give (c.batch ++ [payload])
  else f.goTo (.loop ⟨c.target,c.batch ++ [payload],c.size + payload.length + 11⟩)

def eof (f : Follower) (c : Call) : Follower :=
  if c.batch ≠ [] then f.give c.batch else f.goTo (.waits c.target)

/-- `next`, up to its first read. A file that is not there yet has nothing to read. -/
def next (file : Option ℕ) (f : Follower) (c : Call) : Follower :=
  match f.reader with
  | some r => f.goTo (if r.magicRead then .length c else .magic c)
  | none => if file.isNone then f.eof c else goTo { f with reader := some ⟨f.position.Offset,false⟩ } (.magic c)

def loop (file : Option ℕ) (f : Follower) (c : Call) : Follower :=
  if f.bounded = true ∧ f.ceiling ≤ f.position.ThroughSeq ∧ f.pending = none then f.eof c
  else
    match f.pending with
    | some payload => accept { f with pending := none } c payload
    | none => f.next file c

/-- The checks of `next` on a record that was read, and the position after it. -/
def advance (w : Wire) (f : Follower) (c : Call) (r : Reader) (payload : Bytes) : Follower :=
  match Sequence w payload with
  | .error why => f.goTo (.corrupt why)
  | .ok seq =>
    if f.position.Offset > 0 ∧ seq ≤ f.position.ThroughSeq then f.goTo (.corrupt "sequence does not increase")
    else if f.bounded = true ∧ seq > f.ceiling then f.goTo (.corrupt "sequence exceeds committed boundary")
    else
      { f with reader := some r, position := ⟨r.offset,seq⟩, place := .stat c payload
               free := if f.bounded then f.free else seq }

/-- The next step of a `Read`, with the size of the file and the committed sequence of `run.head` as they are. -/
def step (l : Log) (file head : Option ℕ) (f : Follower) : Follower :=
  let size := file.getD 0
  let offset := (f.reader.map Reader.offset).getD 0
  match f.place with
  | .refresh target => { f with ceiling := head.getD 18446744073709551615, bounded := head.isSome, place := .loop { target := target } }
  | .loop c => f.loop file c
  | .magic c =>
    match Reader.readMagic (l.readAt size 0 RUN_LOG_MAGIC.length) ⟨offset,false⟩ with
    | .eof => f.goTo (.ended c)
    | .corrupt why => f.goTo (.corrupt why)
    | .got r => { f with reader := some r, place := .length c }
  | .length c =>
    match Reader.readPrefix (l.readAt size offset 10) with
    | .eof => f.goTo (.ended c)
    | .corrupt why => f.goTo (.corrupt why)
    | .got (length,width) => f.goTo (.frame c length width)
  | .frame c length width =>
    match Reader.readFrame l.wire (l.readAt size (offset + width) (4 + length)) length with
    | .eof => f.goTo (.ended c)
    | .corrupt why => f.goTo (.corrupt why)
    | .got payload => f.advance l.wire c ⟨offset + width + (4 + length),true⟩ payload
  | .stat c payload => f.goTo (.observe c payload size)
  | .observe c payload _ => f.accept c payload
  | .ended c => if size < offset then f.goTo (.corrupt "append-only file replaced or truncated") else f.eof c
  | _ => f

def cancel (f : Follower) : Follower :=
  match f.place with
  | .refresh _ => f.goTo .idle
  | .waits _ => f.goTo .idle
  | .loop c => if c.batch ≠ [] then f.give c.batch else f.goTo .idle
  | _ => f

def wake (f : Follower) : Follower :=
  match f.place with
  | .waits target => f.goTo (.refresh target)
  | _ => f

def read (f : Follower) (target : ℤ) : Follower :=
  match f.place with
  | .idle => f.goTo (.refresh target)
  | _ => f

end Follower

/-- The size of the file, when there is one, and the committed sequence of `run.head`, when it names one. -/
structure World where
  file : Option ℕ := none
  head : Option ℕ := none
  index : Index := {}
  followers : List Follower := []
  deriving DecidableEq

inductive Act
  | grow (n : ℕ)
  | publish (seq : ℕ)
  | follow (fromSeq : ℕ) (size : ℕ)
  | read (i : ℕ) (target : ℤ)
  | step (i : ℕ)
  | cancel (i : ℕ)
  | wake (i : ℕ)
  deriving DecidableEq

namespace World

/-- The follower that a seek starts. The index may have been told a later size of the file meanwhile. -/
def follow (w : World) (fromSeq size : ℕ) : World :=
  let position := if w.file.isNone then {} else w.index.Before size fromSeq
  { w with index := if w.file.isNone then w.index else w.index.file size
           followers := w.followers ++
             [{ fromSeq := fromSeq, start := position.ThroughSeq, position := position, headed := w.head.isSome }] }

def observe (w : World) (f : Follower) : Index :=
  match f.place with
  | .observe _ _ size => w.index.Observe size f.position
  | _ => w.index

/-- `run.head` is replaced only by one that commits no less, and no more than the file holds. -/
def step (l : Log) (w : World) : Act → World
  | .grow n => { w with file := some (min (w.file.getD 0 + n) l.image.length) }
  | .publish seq =>
    if (∀ c ∈ w.head, c ≤ seq) ∧ l.Holds (w.file.getD 0) seq then { w with head := some seq } else w
  | .follow fromSeq size => w.follow fromSeq size
  | .read i target => { w with followers := w.followers.modify i fun f => f.read target }
  | .step i =>
    { w with index := (w.followers[i]?.map w.observe).getD w.index
             followers := w.followers.modify i fun f => f.step l w.file w.head }
  | .cancel i => { w with followers := w.followers.modify i Follower.cancel }
  | .wake i => { w with followers := w.followers.modify i Follower.wake }

end World

end Vibesys.Tail
