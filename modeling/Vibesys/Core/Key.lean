import Vibesys.Core.Job
import Vibesys.Library.Wire

/-!
# The key of a job

The key is the digest of a canonical encoding of what a result is a result of. A string is written as its
bytes in UTF-8 with their number before them. The digest is a parameter: what is proved of keys needs of
it only that it tells two encodings apart.
-/
namespace Vibesys.Core

open Library.Wire

/-- The settings of a job, as far as a key or a join reads them. -/
inductive Settings
  | check
  | command
  | measure (samples : ℕ) (recheck : Bool)
  deriving DecidableEq, Repr

def Settings.Kind : Settings → JobKind
  | .check => .check
  | .command => .command
  | .measure .. => .measure

def Commit.Valid (c : Commit) : Bool := c.toList.length == 40 && c.toList.all Fingerprint.hexDigit

structure KeyInputs where
  kind : JobKind
  commit : Commit
  taskVersion : String
  environment : Fingerprint
  settings : Option Settings
  schemaVersion : UInt32

/-- Why the inputs have no key, if they have none. -/
def validateKeyInputs (x : KeyInputs) : Option Failure :=
  if x.kind = .command then some (failf .invalidInput "kind: command jobs are never cached, so they have no key")
  else match x.settings with
    | none => some (failf .invalidInput "settings: missing")
    | some settings =>
      if settings.Kind ≠ x.kind then
        some (failf .invalidInput s!"settings: {settings.Kind.text} settings on a {x.kind.text} job")
      else if !Commit.Valid x.commit then
        some (failf .invalidInput s!"commit: {x.commit.quote} is not 40 lowercase hexadecimal characters")
      else if x.taskVersion = "" then some (failf .invalidInput "task version: empty")
      else if x.schemaVersion = 0 then some (failf .invalidInput "schema version: zero")
      else x.environment.validatePinned

def bytesOf (s : String) : Bytes := s.toUTF8.data.toList

namespace Encoder

def number (e : Bytes) (n : UInt32) : Bytes := e ++ be32 n

def string (e : Bytes) (s : String) : Bytes := e ++ framed (bytesOf s)

def names (f : Fingerprint) : List String := sortedKeys f.facts

def fact (f : Fingerprint) (name : String) : String := (f.facts.lookup name).getD ""

def fingerprint (e : Bytes) (f : Fingerprint) : Bytes :=
  let e := string e f.kind.text
  let e := string e f.backend.text
  let e := string e f.imageDigest
  let e := number e f.facts.keys.card.toUInt32
  (names f).foldl (fun e name => string (string e name) (fact f name)) e

end Encoder

def keyDomain : String := "vibesys-cli/job-key"

/-- The canonical encoding of inputs with these settings. -/
def KeyInputs.encoding (x : KeyInputs) (settings : Settings) : Bytes :=
  let e := Encoder.string [] keyDomain
  let e := Encoder.number e x.schemaVersion
  let e := Encoder.string e x.kind.text
  let e := Encoder.string e x.commit
  let e := Encoder.string e x.taskVersion
  let e := Encoder.fingerprint e x.environment.identity
  Encoder.string e settings.Kind.text

def hexByte (b : UInt8) : List Char := [Nat.digitChar (b.toNat/16),Nat.digitChar (b.toNat%16)]

def hexOf (digest : Bytes) : String := String.ofList (digest.flatMap hexByte)

/-- What `NewJobKey` hashes. The settings are there when the inputs are valid. -/
def KeyInputs.hashed (x : KeyInputs) : Bytes := x.encoding (x.settings.getD .check)

/-- `NewJobKey`, over the digest it takes. -/
def NewJobKey (sha256 : Bytes → Bytes) (x : KeyInputs) : Except Failure JobKey :=
  match validateKeyInputs x with
  | some failure => .error failure
  | none => .ok (hexOf (sha256 x.hashed))

theorem bytesOf_inj {s s' : String} (h : bytesOf s = bytesOf s') : s = s' := by
  have harray : s.toUTF8.data = s'.toUTF8.data := Array.toList_inj.mp h
  exact String.toByteArray_inj.mp (ByteArray.ext harray)

theorem JobKind.text_inj {k k' : JobKind} (h : k.text = k'.text) : k = k' := by
  cases k <;> cases k' <;> first | rfl | exact absurd h (by decide)

theorem EnvironmentKind.text_inj {k k' : EnvironmentKind} (h : k.text = k'.text) : k = k' := by
  cases k <;> cases k' <;> first | rfl | exact absurd h (by decide)

theorem BackendKind.text_inj {b b' : BackendKind} (hb : b.Known = true) (hb' : b'.Known = true) (h : b.text = b'.text) :
    b = b' := by
  cases b <;> cases b' <;> first | rfl | exact absurd h (by decide) | simp [BackendKind.Known] at hb hb'

namespace Encoder

theorem foldl_facts (f : Fingerprint) (l : List String) (e : Bytes) :
    l.foldl (fun e name => string (string e name) (fact f name)) e
      = e ++ ((l.map fun name => (bytesOf name,bytesOf (fact f name))).flatMap fun p => [p.1,p.2]).flatMap framed := by
  induction l generalizing e with
  | nil => simp
  | cons name l ih =>
    rw [List.foldl_cons,ih]
    simp only [string,List.map_cons,List.flatMap_cons,List.cons_append,List.nil_append,List.append_assoc]

theorem mem_names {f : Fingerprint} {name : String} : name ∈ names f ↔ name ∈ f.facts := by
  simp [names,sortedKeys,Finmap.mem_keys]

theorem facts_inj {f f' : Fingerprint} (h : (names f).map (fun name => (bytesOf name,bytesOf (fact f name)))
    = (names f').map fun name => (bytesOf name,bytesOf (fact f' name))) : f.facts = f'.facts := by
  have hnames : names f = names f' := by
    have hfirst := congrArg (List.map Prod.fst) h
    rw [List.map_map,List.map_map] at hfirst
    exact List.map_injective_iff.mpr (fun s s' => bytesOf_inj) hfirst
  have hfacts : ∀ name ∈ names f, fact f name = fact f' name := by
    intro name hname
    rw [← hnames] at h
    exact bytesOf_inj (Prod.ext_iff.mp (List.map_inj_left.mp h name hname)).2
  refine Finmap.ext_lookup fun name => ?_
  have hmem : name ∈ f.facts ↔ name ∈ f'.facts := by rw [← mem_names,hnames,mem_names]
  by_cases hname : name ∈ f.facts
  · obtain ⟨v,hv⟩ := Finmap.mem_iff.mp hname
    obtain ⟨v',hv'⟩ := Finmap.mem_iff.mp (hmem.mp hname)
    have heq := hfacts name (mem_names.mpr hname)
    rw [fact,fact,hv,hv',Option.getD_some,Option.getD_some] at heq
    rw [hv,hv',heq]
  · rw [Finmap.lookup_eq_none.mpr hname,Finmap.lookup_eq_none.mpr (mt hmem.mpr hname)]

def tail (f : Fingerprint) (kind : JobKind) : List Bytes :=
  ((names f).map fun name => (bytesOf name,bytesOf (fact f name))).flatMap (fun p => [p.1,p.2]) ++ [bytesOf kind.text]

theorem tail_inj {f f' : Fingerprint} {kind kind' : JobKind} (h : tail f kind = tail f' kind') :
    f.facts = f'.facts ∧ kind = kind' := by
  obtain ⟨hpairs,hkind⟩ := List.append_inj' h rfl
  exact ⟨facts_inj (pairs_inj hpairs),JobKind.text_inj (bytesOf_inj (List.cons.inj hkind).1)⟩

end Encoder

theorem KeyInputs.encoding_eq (x : KeyInputs) (settings : Settings) : x.encoding settings
    = framed (bytesOf keyDomain) ++ (be32 x.schemaVersion ++ (framed (bytesOf x.kind.text) ++ (framed (bytesOf x.commit)
      ++ (framed (bytesOf x.taskVersion) ++ (framed (bytesOf x.environment.identity.kind.text)
      ++ (framed (bytesOf x.environment.identity.backend.text) ++ (framed (bytesOf x.environment.identity.imageDigest)
      ++ (be32 x.environment.identity.facts.keys.card.toUInt32
      ++ (Encoder.tail x.environment.identity settings.Kind).flatMap framed)))))))) := by
  simp only [KeyInputs.encoding,Encoder.fingerprint,Encoder.foldl_facts]
  simp only [Encoder.string,Encoder.number,Encoder.tail,List.flatMap_append,List.flatMap_cons,List.flatMap_nil,
    List.append_assoc,List.nil_append,List.append_nil]

/-- The inputs are of one computation: what is computed, of which commit, for which task and where. -/
def KeyInputs.Same (x y : KeyInputs) : Prop :=
  x.schemaVersion = y.schemaVersion ∧ x.kind = y.kind ∧ x.commit = y.commit ∧ x.taskVersion = y.taskVersion
    ∧ x.environment.Equal y.environment = true

theorem digitChar_inj {m n : ℕ} (hm : m < 16) (hn : n < 16) (h : Nat.digitChar m = Nat.digitChar n) : m = n := by
  have hall : ∀ m < 16, ∀ n < 16, Nat.digitChar m = Nat.digitChar n → m = n := by decide
  exact hall m hm n hn h

theorem hexOf_inj {a b : Bytes} (h : hexOf a = hexOf b) : a = b := by
  let split : UInt8 → Char × Char := fun b => (Nat.digitChar (b.toNat/16),Nat.digitChar (b.toNat%16))
  have hsplit : ∀ l : Bytes, l.flatMap hexByte = (l.map split).flatMap fun p => [p.1,p.2] := fun l => by
    rw [List.flatMap_map]
    rfl
  have hchars : a.flatMap hexByte = b.flatMap hexByte := String.ofList_injective h
  rw [hsplit,hsplit] at hchars
  refine List.map_injective_iff.mpr (fun x y hxy => ?_) (pairs_inj hchars)
  obtain ⟨hhigh,hlow⟩ := Prod.ext_iff.mp hxy
  have hx := x.toNat_lt
  have hy := y.toNat_lt
  have hhigh' := digitChar_inj (by omega) (by omega) hhigh
  have hlow' := digitChar_inj (by omega) (by omega) hlow
  exact UInt8.toNat_inj.mp (by omega)

theorem of_validateKeyInputs {x : KeyInputs} (h : validateKeyInputs x = none) :
    (x.settings.getD .check).Kind = x.kind ∧ x.environment.backend.Known = true := by
  obtain ⟨_,h⟩ := of_refusal h
  cases hs : x.settings with
  | none => rw [hs] at h; cases h
  | some settings =>
    rw [hs] at h
    obtain ⟨hkind,h⟩ := of_refusal h
    obtain ⟨_,h⟩ := of_refusal h
    obtain ⟨_,h⟩ := of_refusal h
    obtain ⟨_,h⟩ := of_refusal h
    refine ⟨by simpa using hkind,?_⟩
    by_contra hb
    unfold Fingerprint.validatePinned at h
    cases hk : x.environment.kind <;> simp [hk,hb] at h
    · split_ifs at h
    · split_ifs at h

theorem Fingerprint.identity_backend (f : Fingerprint) : f.identity.backend = f.backend := by
  unfold Fingerprint.identity
  split_ifs <;> rfl

theorem Fingerprint.ext_iff {f f' : Fingerprint} :
    f = f' ↔ f.kind = f'.kind ∧ f.backend = f'.backend ∧ f.imageDigest = f'.imageDigest ∧ f.facts = f'.facts := by
  cases f
  cases f'
  simp

/-- The bytes a key is the digest of are those of another exactly when both are of one computation. -/
theorem hashed_eq_iff {x y : KeyInputs} (hx : validateKeyInputs x = none) (hy : validateKeyInputs y = none) :
    x.hashed = y.hashed ↔ x.Same y := by
  obtain ⟨hxkind,hxknown⟩ := of_validateKeyInputs hx
  obtain ⟨hykind,hyknown⟩ := of_validateKeyInputs hy
  constructor
  · intro h
    rw [KeyInputs.hashed,KeyInputs.hashed,KeyInputs.encoding_eq,KeyInputs.encoding_eq] at h
    obtain ⟨hschema,h⟩ := be32_append_inj (framed_append_inj h).2
    obtain ⟨hkind,h⟩ := framed_append_inj h
    obtain ⟨hcommit,h⟩ := framed_append_inj h
    obtain ⟨htask,h⟩ := framed_append_inj h
    obtain ⟨henv,h⟩ := framed_append_inj h
    obtain ⟨hbackend,h⟩ := framed_append_inj h
    obtain ⟨himage,h⟩ := framed_append_inj h
    obtain ⟨_,h⟩ := be32_append_inj h
    obtain ⟨hfacts,_⟩ := Encoder.tail_inj (frames_inj h)
    refine ⟨hschema,JobKind.text_inj (bytesOf_inj hkind),bytesOf_inj hcommit,bytesOf_inj htask,?_⟩
    have hidentity : x.environment.identity = y.environment.identity := by
      refine Fingerprint.ext_iff.mpr ⟨EnvironmentKind.text_inj (bytesOf_inj henv),?_,bytesOf_inj himage,hfacts⟩
      refine BackendKind.text_inj ?_ ?_ (bytesOf_inj hbackend)
      · rw [Fingerprint.identity_backend]
        exact hxknown
      · rw [Fingerprint.identity_backend]
        exact hyknown
    simp [Fingerprint.Equal,hidentity]
  · rintro ⟨hschema,hkind,hcommit,htask,hequal⟩
    have hidentity : x.environment.identity = y.environment.identity := by simpa [Fingerprint.Equal] using hequal
    rw [KeyInputs.hashed,KeyInputs.hashed,KeyInputs.encoding_eq,KeyInputs.encoding_eq,hschema,hkind,hcommit,htask,hidentity,
      hxkind,hykind,hkind]

/-- A job key identifies the computation, as far as the digest tells the two encodings apart. -/
theorem key_identifies (x y : KeyInputs) (hx : validateKeyInputs x = none) (hy : validateKeyInputs y = none) :
    (x.hashed = y.hashed ↔ x.Same y)
      ∧ ∀ sha256 : Bytes → Bytes, (sha256 x.hashed = sha256 y.hashed → x.hashed = y.hashed) →
        ∃ kx ky, NewJobKey sha256 x = .ok kx ∧ NewJobKey sha256 y = .ok ky ∧ (kx = ky ↔ x.Same y) := by
  refine ⟨hashed_eq_iff hx hy,fun sha256 hfree => ⟨hexOf (sha256 x.hashed),hexOf (sha256 y.hashed),?_,?_,?_⟩⟩
  · rw [NewJobKey,hx]
  · rw [NewJobKey,hy]
  · rw [← hashed_eq_iff hx hy]
    exact ⟨fun h => hfree (hexOf_inj h),fun h => by rw [h]⟩

/-- Two measurements of one commit on one host, asked for with other sample counts, have one key; a fact
of the host changes it. -/
theorem key_identifies_host :
    let host : Finmap (fun _ : String => String) → Fingerprint := fun facts => ⟨.host,.cpu,"",facts⟩
    let x : KeyInputs := ⟨.measure,String.ofList (List.replicate 40 'a'),"v1",host (Finmap.singleton "os" "linux"),
      some (.measure 3 false),1⟩
    let y : KeyInputs := { x with settings := some (.measure 9 true) }
    let z : KeyInputs := { x with environment := host (Finmap.singleton "os" "darwin") }
    (∃ k, NewJobKey id x = .ok k ∧ NewJobKey id y = .ok k) ∧ x.hashed ≠ z.hashed := by
  intro host x y z
  have hx : validateKeyInputs x = none := by decide +kernel
  have hy : validateKeyInputs y = none := by decide +kernel
  have hz : validateKeyInputs z = none := by decide +kernel
  have hsame : x.Same y := ⟨rfl,rfl,rfl,rfl,by decide +kernel⟩
  have hother : ¬ x.Same z := fun h => absurd h.2.2.2.2 (by decide +kernel)
  obtain ⟨kx,ky,hkx,hky,heq⟩ := (key_identifies x y hx hy).2 id id
  refine ⟨⟨kx,hkx,(heq.mpr hsame) ▸ hky⟩,?_⟩
  exact fun h => hother ((key_identifies x z hx hz).1.mp h)

end Vibesys.Core
