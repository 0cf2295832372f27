import Vibesys.Library.Joined
import Vibesys.Library.Run

/-!
# The cached fold of a log

The digest of the first records of a log, the rule for when a start may use a cache, the start and the keeper. The
record type and its encoding, the fold, SHA-256, the encoding of a fold and of the file are parameters; a fold is of
rules that have a name. An exception of Python is `none`.
-/
namespace Vibesys.Foldcache

open Library

abbrev Bytes := List UInt8

inductive Decoded (S : Type)
  | folded (s : S)
  | rules_changed
  | refused

structure StateCache where
  schema_version : ℕ
  through_seq : ℕ
  digest : Bytes
  state : Bytes
  deriving DecidableEq

/-- A record is a block of fields, the sequence first, each of which ends itself. Decoding inverts encoding, and a fold
is read only under the rules that made it. -/
structure Schema (R S φ : Type) where
  fields : R → List φ
  encodeField : φ → Bytes
  isSeq : φ → Bool
  delimited : SelfDelimiting encodeField
  sequence_first : ∀ r, Block isSeq (fields r)
  canonical : ∀ r r', fields r = fields r' → r = r'
  sha256 : Bytes → Bytes
  apply_logged : String → Option S → R → Option S
  encode : S → String → Bytes
  decode : Bytes → String → Decoded S
  decode_encode : ∀ s s' rules rules', decode (encode s rules') rules = .folded s' → rules' = rules ∧ s' = s
  cacheToBinary : StateCache → Bytes
  cacheFromBinary : Bytes → Option StateCache
  validate : StateCache → Bool
  from_to_binary : ∀ m, cacheFromBinary (cacheToBinary m) = some m

def SCHEMA_VERSION : ℕ := 1

inductive CacheMiss
  | absent | unreadable | ahead_of_log | digest_mismatch | state_refused | rules_changed
  deriving DecidableEq

structure CachedFold where
  through_seq : ℕ
  digest : Bytes
  state : Bytes
  deriving DecidableEq

/-- The bytes hashed so far, and of how many records. -/
structure PrefixDigest where
  hashed : Bytes := []
  count : ℕ := 0

structure Keeping where
  every : ℤ
  rules : String

/-- How a start got its fold. -/
inductive FoldStart
  | used (through_seq : ℕ)
  | missed (why : CacheMiss)
  deriving DecidableEq

structure FoldKeeper (S : Type) where
  digest : PrefixDigest
  kept : Option S
  start : FoldStart
  keeping : Keeping
  written_at : ℕ := 0

variable {R S φ : Type}

namespace Schema

variable (c : Schema R S φ)

def to_binary (r : R) : Bytes := (c.fields r).flatMap c.encodeField

def extend (digest : PrefixDigest) (records : List R) : PrefixDigest :=
  records.foldl (fun digest r => ⟨digest.hashed ++ c.to_binary r,digest.count+1⟩) digest

def value (digest : PrefixDigest) : Bytes := c.sha256 digest.hashed

/-- The cache if it is of the records' own first ones, and the digest of all. -/
def judge (loaded : Except CacheMiss CachedFold) (records : List R) (digest : PrefixDigest) :
    Except CacheMiss CachedFold × PrefixDigest :=
  match loaded with
  | .error miss => (.error miss,c.extend digest records)
  | .ok cached =>
    if cached.through_seq > records.length then (.error .ahead_of_log,c.extend digest records)
    else
      let digest := c.extend digest (records.take cached.through_seq)
      let verdict := if c.value digest = cached.digest then .ok cached else .error .digest_mismatch
      (verdict,c.extend digest (records.drop cached.through_seq))

def decode_cache (data : Bytes) : Except CacheMiss CachedFold :=
  match c.cacheFromBinary data with
  | none => .error .unreadable
  | some message =>
    if c.validate message = false then .error .unreadable
    else if message.schema_version ≠ SCHEMA_VERSION then .error .unreadable
    else .ok ⟨message.through_seq,message.digest,message.state⟩

def encode_cache (cached : CachedFold) : Option Bytes :=
  let message : StateCache := ⟨SCHEMA_VERSION,cached.through_seq,cached.digest,cached.state⟩
  if c.validate message then some (c.cacheToBinary message) else none

/-- A file that is not there is absent, and one that cannot be read is unreadable. -/
def load (file : Option Bytes) (readable : Bool) : Except CacheMiss CachedFold :=
  match file with
  | none => .error .absent
  | some data => if readable then c.decode_cache data else .error .unreadable

def fold_log (rules : String) (records : List R) (prior : Option S) : Option S := records.foldl (c.apply_logged rules) prior

/-- The fold of the records, and the keeper that goes on from it. -/
def start_fold (loaded : Except CacheMiss CachedFold) (records : List R) (every : ℤ) (rules : String) : Option S × FoldKeeper S :=
  let (verdict,digest) := c.judge loaded records {}
  match verdict with
  | .ok cached =>
    match c.decode cached.state rules with
    | .folded s =>
      let folded := c.fold_log rules (records.drop cached.through_seq) (some s)
      (folded,⟨digest,folded,.used cached.through_seq,⟨every,rules⟩,0⟩)
    | .rules_changed =>
      let folded := c.fold_log rules records none
      (folded,⟨digest,folded,.missed .rules_changed,⟨every,rules⟩,0⟩)
    | .refused =>
      let folded := c.fold_log rules records none
      (folded,⟨digest,folded,.missed .state_refused,⟨every,rules⟩,0⟩)
  | .error miss =>
    let folded := c.fold_log rules records none
    (folded,⟨digest,folded,.missed miss,⟨every,rules⟩,0⟩)

/-- The keeper after the call, and the cache it gives to the store. -/
def keep (k : FoldKeeper S) (records : List R) (appended : ℕ) (resting : Bool) : FoldKeeper S × Option CachedFold :=
  if appended = k.written_at ∨ ¬ (resting = true ∨ k.keeping.every ≤ (appended : ℤ)-k.written_at) then (k,none)
  else
    let tail := records.drop k.digest.count
    let digest := c.extend k.digest tail
    let kept := c.fold_log k.keeping.rules tail k.kept
    ({ k with digest := digest, kept := kept, written_at := appended },
      kept.map fun s => ⟨digest.count,c.value digest,c.encode s k.keeping.rules⟩)

end Schema

/-! ## Processes -/

/-- The log with the records that are committed, the file of the cache, and the keeper of the process. -/
structure World (R S : Type) where
  log : List R := []
  committed : ℕ := 0
  file : Option Bytes := none
  keeper : Option (FoldKeeper S) := none

inductive Act (R : Type)
  /-- Core or the display appends a record. -/
  | append (r : R)
  | commit
  /-- A process starts from the first records of the log, with the rules of its code. -/
  | start (shown : ℕ) (every : ℤ) (rules : String) (readable : Bool)
  /-- The keeper reads the first records of the log, and the store fails or not. -/
  | keep (shown appended : ℕ) (resting fails : Bool)
  /-- What was committed is still there, and perhaps more. -/
  | crash (survivors : ℕ)
  | replace (file : Option Bytes)

namespace Schema

variable (c : Schema R S φ)

def store (file : Option Bytes) (cached : Option CachedFold) (fails : Bool) : Option Bytes :=
  match cached.bind c.encode_cache with
  | some data => if fails then file else some data
  | none => file

def step (w : World R S) : Act R → World R S
  | .append r => { w with log := w.log ++ [r] }
  | .commit => { w with committed := w.log.length }
  | .start shown every rules readable =>
    { w with keeper := some (c.start_fold (c.load w.file readable) (w.log.take shown) every rules).2 }
  | .keep shown appended resting fails =>
    match w.keeper with
    | none => w
    | some k =>
      let (k,cached) := c.keep k (w.log.take shown) appended resting
      { w with keeper := some k, file := c.store w.file cached fails }
  | .crash survivors => { w with log := w.log.take (max w.committed survivors), keeper := none }
  | .replace file => { w with file := file }

end Schema

end Vibesys.Foldcache
