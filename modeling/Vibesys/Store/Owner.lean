import Vibesys.Core.Job
import Vibesys.Library.Run

/-!
# Who owns a file store

An open of a file store writes the owner record, and every commit, recovery and reclaim of the open
store reads it first and is refused unless it is what this open wrote. The bytes of a record are an
arbitrary type with a codec that reads back what it writes.
-/
namespace Vibesys.Store
open Vibesys.Core Vibesys.Library

structure Owner where
  host : String
  dir : String
  pid : ℤ
  deriving DecidableEq, Repr

structure OwnerRec where
  generation : UInt64
  host : String
  dir : String
  pid : ℤ
  givenUp : List JobID
  deriving DecidableEq, Repr

namespace OwnerRec

def String (r : OwnerRec) : String := s!"process {r.pid} on {r.host}, runtime directory {r.dir}"

def owner (r : OwnerRec) : Owner := ⟨r.host,r.dir,r.pid⟩

def without (r : OwnerRec) (job : JobID) : OwnerRec := { r with givenUp := r.givenUp.filter (· ≠ job) }

end OwnerRec

inductive Mark
  | away | ownedElsewhere | ownerLeaving | noLocks
  deriving DecidableEq, Repr

structure Refusal where
  failure : Failure
  marks : List Mark := []
  deriving DecidableEq, Repr

def refused (message : String) (marks : List Mark := []) : Refusal := ⟨⟨.conflict,message⟩,marks⟩

def unavailable (root err : String) : Refusal :=
  ⟨⟨.unavailable,s!"the store at {root} cannot be opened: {err}"⟩,[.away]⟩

/-- A store this owner may not touch now, which says nothing about the jobs in it. -/
def fenced (message : String) : Refusal := ⟨⟨.unavailable,message⟩,[.away]⟩

def ownerFile (root : String) : String := root ++ "/.owner"

/-- How a record is written and read. A record of generation zero is not a valid file. -/
structure Codec (Bytes : Type) where
  marshal : OwnerRec → Bytes
  decode : Bytes → Except Refusal OwnerRec
  /-- What the validation says of a generation that is not positive. -/
  notPositive : String
  decode_marshal : ∀ r, r.generation ≠ 0 → decode (marshal r) = .ok r

variable {Bytes : Type}

def Codec.plain : Codec OwnerRec where
  marshal := id
  decode := .ok
  notPositive := "generation: must be greater than 0"
  decode_marshal _ _ := rfl

def Codec.encode (codec : Codec Bytes) (r : OwnerRec) : Except String Bytes :=
  if r.generation = 0 then .error codec.notPositive else .ok (codec.marshal r)

/-- How writing the record went: a write that fails may have taken effect. -/
inductive Publish
  | done | failed (err : String) | failedAfter (err : String)
  deriving DecidableEq, Repr

inductive LockResult
  | held | locked | noLocks (err : String) | failed (err : String)
  deriving DecidableEq, Repr

/-- How the file system answers one open: the lock, the read of the record, the read of the jobs and
the write of the record. -/
structure OpenAnswers where
  lock : LockResult := .held
  read : Option String := none
  jobs : Option String := none
  publish : Publish := .done
  deriving DecidableEq, Repr

structure Guard (Bytes : Type) where
  rec_ : OwnerRec
  mine : Bytes
  closed : Bool := false
  deriving DecidableEq

def readOwner (codec : Codec Bytes) (root : String) (file : Option Bytes) (read : Option String) :
    Except Refusal (Option OwnerRec) :=
  match read,file with
  | some err,_ => .error (unavailable root err)
  | none,none => .ok none
  | none,some data => (codec.decode data).map some

def elsewhere (last : Option OwnerRec) (owner : Owner) : Bool :=
  last.any fun l => l.host ≠ owner.host || l.dir ≠ owner.dir

/-- Only a record that is gone, names another place or gives jobs up needs the jobs read. -/
def needsJobs (last : Option OwnerRec) (owner : Owner) : Bool :=
  last.isNone || elsewhere last owner || last.any fun l => l.givenUp ≠ []

def nextRecord (last : Option OwnerRec) (owner : Owner) (running : List JobID) : OwnerRec :=
  match last with
  | none => ⟨1,owner.host,owner.dir,owner.pid,running⟩
  | some l => ⟨l.generation+1,owner.host,owner.dir,owner.pid,running.filter (· ∈ l.givenUp)⟩

def ownedThere (root : String) (last : Option OwnerRec) : Refusal :=
  let who := (last.map OwnerRec.String).getD ""
  refused s!"the store at {root} has running jobs that belong to {who}: start the daemon there, or, if that place is gone for good, remove {ownerFile root} and those of them that no run can be found of here will be marked lost"
    [.ownedElsewhere,.away]

/-- Decides the caller's record, unless the last owner's work is live. A store with running jobs and
no record was given up by the user, who removed the record: those jobs are given up, and stay so in
every later record while they run. -/
def takeRecord (root : String) (last : Option OwnerRec) (owner : Owner) (running : List JobID)
    (jobs : Option String) : Except Refusal OwnerRec :=
  if needsJobs last owner then
    match jobs with
    | some err => .error (unavailable root err)
    | none =>
      if elsewhere last owner && !running.isEmpty then .error (ownedThere root last)
      else .ok (nextRecord last owner running)
  else .ok (nextRecord last owner [])

def inUse (root : String) (last : Except Refusal (Option OwnerRec)) (owner : Owner) : Refusal :=
  match last with
  | .ok (some l) =>
    refused s!"the store at {root} is in use by {l.String}: a store has one daemon, so stop that one or use it"
      (if l.host = owner.host ∧ l.dir = owner.dir then [.ownerLeaving,.ownedElsewhere,.away] else [.ownedElsewhere,.away])
  | _ => refused s!"the store at {root} is in use by another daemon: a store has one daemon, so stop that one or use it"
      [.ownedElsewhere,.away]

/-- The record an open is to write, or why the caller cannot be the owner. -/
def claim (codec : Codec Bytes) (root : String) (file : Option Bytes) (owner : Owner) (running : List JobID)
    (io : OpenAnswers) : Except Refusal OwnerRec :=
  match io.lock with
  | .locked => .error (inUse root (readOwner codec root file io.read) owner)
  | .noLocks err => .error (refused s!"the store at {root} cannot be kept to one daemon, because file locks on this filesystem stop at this machine or do not work ({err}). Keep the repository on a local disk, or have the filesystem mounted with working locks, without nolock or local_lock"
      [.noLocks])
  | .failed err => .error (unavailable root err)
  | .held =>
    match readOwner codec root file io.read with
    | .error e => .error e
    | .ok last => takeRecord root last owner running io.jobs

def Guard.check [DecidableEq Bytes] (codec : Codec Bytes) (root : String) (g : Guard Bytes) (file : Option Bytes)
    (read : Option String) : Option Refusal :=
  if g.closed then some (fenced s!"the store at {root} is closed")
  else match read,file with
    | some err,_ => some (unavailable root err)
    | none,none => some (fenced s!"the store at {root} no longer has the owner record {ownerFile root}: this daemon stopped using it")
    | none,some data =>
      if data = g.mine then none
      else match codec.decode data with
        | .ok r => some (fenced s!"the store at {root} now belongs to {r.String}: this daemon stopped using it")
        | .error _ => some (fenced s!"the store at {root} now belongs to another daemon: this daemon stopped using it")

/-- What comes of writing a record: a write that failed may be in the file all the same. -/
inductive Written (Bytes : Type)
  | no (why : Refusal) | unsure (data : Bytes) (why : Refusal) | yes (data : Bytes)

def write (codec : Codec Bytes) (root : String) (r : OwnerRec) (publish : Publish) : Written Bytes :=
  match codec.encode r with
  | .error err => .no (refused s!"the store at {root} cannot write its owner record {ownerFile root}: {err}")
  | .ok data =>
    match publish with
    | .done => .yes data
    | .failed err => .no (unavailable root err)
    | .failedAfter err => .unsure data (unavailable root err)

namespace OwnerRec

def key (r : OwnerRec) : UInt64 × Owner := (r.generation,r.owner)

theorem key_eq {r r' : OwnerRec} : r.key = r'.key ↔ r.generation = r'.generation ∧ r.owner = r'.owner := Prod.ext_iff

@[simp] theorem key_without (r : OwnerRec) (job : JobID) : (r.without job).key = r.key := rfl

end OwnerRec

@[simp] theorem owner_nextRecord (last : Option OwnerRec) (owner : Owner) (running : List JobID) :
    (nextRecord last owner running).owner = owner := by
  cases last <;> rfl

theorem Codec.marshal_inj (codec : Codec Bytes) {r r' : OwnerRec} (h : r.generation ≠ 0) (h' : r'.generation ≠ 0)
    (heq : codec.marshal r = codec.marshal r') : r = r' := by
  have hread := codec.decode_marshal r h
  rw [heq,codec.decode_marshal r' h'] at hread
  exact (Except.ok.inj hread).symm

theorem takeRecord_ok {root : String} {last : Option OwnerRec} {owner : Owner} {running : List JobID}
    {jobs : Option String} {r : OwnerRec} (h : takeRecord root last owner running jobs = .ok r) :
    (needsJobs last owner = true ∧ r = nextRecord last owner running ∧ (elsewhere last owner = true → running = []))
      ∨ needsJobs last owner = false ∧ r = nextRecord last owner [] := by
  unfold takeRecord at h
  cases hneeds : needsJobs last owner with
  | true =>
    rw [if_pos hneeds] at h
    cases jobs with
    | some err => cases h
    | none =>
      by_cases hthere : (elsewhere last owner && !running.isEmpty) = true
      · simp [hthere] at h
      · rw [if_neg hthere] at h
        refine .inl ⟨rfl,(Except.ok.inj h).symm,fun helse => ?_⟩
        simpa [helse] using hthere
  | false =>
    rw [if_neg (by simp [hneeds])] at h
    exact .inr ⟨rfl,(Except.ok.inj h).symm⟩

theorem readOwner_some {codec : Codec Bytes} {root : String} {data : Bytes} {r : OwnerRec} (h : codec.decode data = .ok r) :
    readOwner codec root (some data) none = .ok (some r) := by
  simp [readOwner,h,Except.map]

theorem claim_ok {codec : Codec Bytes} {root : String} {file : Option Bytes} {owner : Owner} {running : List JobID}
    {answers : OpenAnswers} {r : OwnerRec} (h : claim codec root file owner running answers = .ok r) :
    ∃ last, readOwner codec root file none = .ok last ∧ takeRecord root last owner running answers.jobs = .ok r := by
  unfold claim at h
  split at h
  case h_4 =>
    cases hread : answers.read with
    | some err => simp [hread,readOwner] at h
    | none =>
      rw [hread] at h
      cases hlast : readOwner codec root file none with
      | error e => simp [hlast] at h
      | ok last => exact ⟨last,rfl,by simpa [hlast] using h⟩
  all_goals cases h

theorem Guard.check_eq_none [DecidableEq Bytes] {codec : Codec Bytes} {root : String} {g : Guard Bytes}
    {file : Option Bytes} {read : Option String} :
    g.check codec root file read = none ↔ g.closed = false ∧ read = none ∧ file = some g.mine := by
  unfold check
  cases hclosed : g.closed with
  | true => simp
  | false =>
    cases read with
    | some err => simp
    | none =>
      cases file with
      | none => simp
      | some data =>
        by_cases hdata : data = g.mine
        · simp [hdata]
        · cases hdecode : codec.decode data <;> simp [hdata,hdecode]

theorem write_cases (codec : Codec Bytes) (root : String) (r : OwnerRec) (publish : Publish) :
    (∃ e, write codec root r publish = .no e)
      ∨ r.generation ≠ 0 ∧ ((∃ e, write codec root r publish = .unsure (codec.marshal r) e)
        ∨ write codec root r publish = .yes (codec.marshal r)) := by
  unfold write Codec.encode
  by_cases hzero : r.generation = 0
  · simp [hzero]
  · cases publish <;> simp [hzero]

end Vibesys.Store
