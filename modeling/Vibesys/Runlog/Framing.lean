import Mathlib.Algebra.Order.Field.Rat
import Mathlib.Tactic.Ring
import Vibesys.Library.Framed

/-!
# The frames of a run.log

A frame is the length of a record's encoding in groups of seven bits, the checksum of the encoding, and the
encoding. The reader tells a frame that was cut from one that is corrupt, at every byte. How a record is encoded,
what validation accepts, the checksum, and the projections over the records are parameters.
-/
namespace Vibesys.Runlog

open Library

abbrev Bytes := List UInt8

structure Record (B : Type) where
  seq : ℕ
  clock : ℚ
  body : B
  deriving DecidableEq

/-- What the headline of a skeleton is: it may find attributes that do not decode, or no declaration. -/
inductive Headline
  | raises
  | absent
  | present
  deriving DecidableEq

/-- The record type, its validation, the checksum, and what is projected from records. -/
structure Schema (B K : Type) where
  to_binary : Record B → Bytes
  from_binary : Bytes → Option (Record B)
  validate : Record B → Bool
  crc32c : Bytes → Bytes
  isBoundary : B → Bool
  blank : K
  append_skeleton : K → Record B → K
  /-- The input upgrade decodes the attributes of this record. -/
  observes : B → Bool
  headline : K → Headline
  from_to_binary : ∀ r, validate r = true → from_binary (to_binary r) = some r
  length_crc32c : ∀ payload, (crc32c payload).length = 4

def RUN_LOG_MAX_RECORD_BYTES : ℕ := 1048576

/-- The bytes of `VSRLOG01`. -/
def RUN_LOG_MAGIC : Bytes := [86,83,82,76,79,71,48,49]

def MAX_VARINT_BYTES : ℕ := 10

def lengthBytes : ℕ → ℕ → Bytes
  | 0, _ => []
  | fuel+1, length =>
    if length < 128 then [UInt8.ofNat length] else UInt8.ofNat (length % 128+128) :: lengthBytes fuel (length/128)

def readLength : ℕ → ℕ → ℕ → Bytes → Found ℕ UInt8
  | 0, _, _, _ => .corrupt "invalid length varint"
  | _+1, index, _, [] => if index = 0 then .ended else .torn
  | fuel+1, index, length, byte :: rest =>
    let length := length+byte.toNat % 128*128^index
    if length > RUN_LOG_MAX_RECORD_BYTES then .corrupt "length exceeds record cap"
    else if byte.toNat < 128 then .got length rest
    else readLength fuel (index+1) length rest

section Frames

variable {B K : Type} (s : Schema B K)

/-- The record passes validation and its encoding the cap. -/
def Schema.Accepts (r : Record B) : Prop :=
  s.validate r = true ∧ (s.to_binary r).length ≤ RUN_LOG_MAX_RECORD_BYTES

instance (r : Record B) : Decidable (s.Accepts r) := inferInstanceAs (Decidable (_ ∧ _))

def frameOf (r : Record B) : Bytes :=
  lengthBytes MAX_VARINT_BYTES (s.to_binary r).length ++ (s.crc32c (s.to_binary r) ++ s.to_binary r)

def encode_frame (r : Record B) : Option Bytes := if s.Accepts r then some (frameOf s r) else none

def readPayload (length : ℕ) (bytes : Bytes) : Found (Record B) UInt8 :=
  let checksum := bytes.take 4
  let payload := (bytes.drop 4).take length
  if checksum.length ≠ 4 ∨ payload.length ≠ length then .torn
  else if s.crc32c payload ≠ checksum then .corrupt "CRC32C mismatch"
  else
    match s.from_binary payload with
    | some record =>
      if s.validate record then .got record (bytes.drop (4+length)) else .corrupt "invalid Record"
    | none => .corrupt "invalid Record"

/-- At most one frame, without consuming an incomplete tail. -/
def read_frame (bytes : Bytes) : Found (Record B) UInt8 :=
  match readLength MAX_VARINT_BYTES 0 0 bytes with
  | .ended => .ended
  | .torn => .torn
  | .corrupt why => .corrupt why
  | .got length rest => readPayload s length rest

end Frames

/-! ## Lengths -/

lemma lengthBytes_ne_nil (fuel length : ℕ) : lengthBytes (fuel+1) length ≠ [] := by
  unfold lengthBytes
  split_ifs <;> simp

lemma split_length (length n index : ℕ) :
    length+n % 128*128^index+n/128*128^(index+1) = length+n*128^index := by
  have hn : n % 128+128*(n/128) = n := Nat.mod_add_div n 128
  calc length+n % 128*128^index+n/128*128^(index+1)
      = length+(n % 128+128*(n/128))*128^index := by ring
    _ = length+n*128^index := by rw [hn]

lemma toNat_ofNat_lt {n : ℕ} (h : n < 256) : (UInt8.ofNat n).toNat = n := by
  rw [UInt8.toNat_ofNat']
  exact Nat.mod_eq_of_lt h

lemma readLength_cons {n : ℕ} (fuel index length : ℕ) (rest : Bytes) (hcap : length+n*128^index ≤ RUN_LOG_MAX_RECORD_BYTES) :
    readLength (fuel+1) index length (UInt8.ofNat (n % 128+128) :: rest) =
      readLength fuel (index+1) (length+n % 128*128^index) rest := by
  have hbyte : (UInt8.ofNat (n % 128+128)).toNat = n % 128+128 := toNat_ofNat_lt (by omega)
  have hlow : (n % 128+128) % 128 = n % 128 := by omega
  have hle : n % 128*128^index ≤ n*128^index := Nat.mul_le_mul_right _ (Nat.mod_le _ _)
  simp only [readLength,hbyte,hlow]
  rw [if_neg (by omega),if_neg (by omega)]

lemma readLength_last {n : ℕ} (hn : n < 128) (fuel index length : ℕ) (rest : Bytes)
    (hcap : length+n*128^index ≤ RUN_LOG_MAX_RECORD_BYTES) :
    readLength (fuel+1) index length (UInt8.ofNat n :: rest) = .got (length+n*128^index) rest := by
  have hbyte : (UInt8.ofNat n).toNat = n := toNat_ofNat_lt (by omega)
  simp only [readLength,hbyte,Nat.mod_eq_of_lt hn]
  rw [if_neg (by omega),if_pos hn]

theorem readLength_lengthBytes {fuel n : ℕ} (hn : n < 128^(fuel+1)) (index length : ℕ) (rest : Bytes)
    (hcap : length+n*128^index ≤ RUN_LOG_MAX_RECORD_BYTES) :
    readLength (fuel+1) index length (lengthBytes (fuel+1) n ++ rest) = .got (length+n*128^index) rest := by
  induction fuel generalizing n index length with
  | zero =>
    have hlt : n < 128 := by simpa using hn
    rw [lengthBytes,if_pos hlt]
    exact readLength_last hlt 0 index length rest hcap
  | succ fuel ih =>
    rw [lengthBytes]
    split_ifs with hlt
    · exact readLength_last hlt (fuel+1) index length rest hcap
    · have hrest : n/128 < 128^(fuel+1) := Nat.div_lt_of_lt_mul (by rw [← pow_succ']; exact hn)
      rw [List.cons_append,readLength_cons (fuel+1) index length _ hcap,ih hrest (index+1) _ (by rw [split_length]; exact hcap),
        split_length]

lemma prefix_singleton {t : Bytes} {byte : UInt8} (h : t <+: [byte]) : t = [] ∨ t = [byte] := by
  cases t with
  | nil => exact .inl rfl
  | cons b t =>
    obtain ⟨rfl,ht⟩ := List.cons_prefix_cons.mp h
    rw [List.prefix_nil.mp ht]
    exact .inr rfl

theorem readLength_torn {fuel n : ℕ} (hn : n < 128^(fuel+1)) (index length : ℕ)
    (hcap : length+n*128^index ≤ RUN_LOG_MAX_RECORD_BYTES) {t : Bytes} (ht : t <+: lengthBytes (fuel+1) n)
    (hne : t ≠ lengthBytes (fuel+1) n) :
    readLength (fuel+1) index length t = if index = 0 ∧ t = [] then .ended else .torn := by
  induction fuel generalizing n index length t with
  | zero =>
    have hlt : n < 128 := by simpa using hn
    rw [lengthBytes,if_pos hlt] at ht hne
    have hnil : t = [] := (prefix_singleton ht).resolve_right hne
    subst hnil
    simp [readLength]
  | succ fuel ih =>
    cases t with
    | nil => simp [readLength]
    | cons byte t =>
      rw [lengthBytes] at ht hne
      split_ifs at ht hne with hlt
      · rcases prefix_singleton ht with hnil | hall
        · cases hnil
        · exact absurd hall hne
      · obtain ⟨rfl,htail⟩ := List.cons_prefix_cons.mp ht
        have hrest : n/128 < 128^(fuel+1) := Nat.div_lt_of_lt_mul (by rw [← pow_succ']; exact hn)
        rw [readLength_cons (fuel+1) index length t hcap,
          ih hrest (index+1) _ (by rw [split_length]; exact hcap) htail fun heq => hne (by rw [heq])]
        simp

/-! ## Frames -/

section Laws

variable {B K : Type} (s : Schema B K) {r : Record B}

lemma length_lt_of_accepts (h : s.Accepts r) : (s.to_binary r).length < 128^(9+1) :=
  lt_of_le_of_lt h.2 (by decide)

lemma readLength_frame (h : s.Accepts r) (rest : Bytes) :
    readLength MAX_VARINT_BYTES 0 0 (lengthBytes MAX_VARINT_BYTES (s.to_binary r).length ++ rest) =
      .got (s.to_binary r).length rest := by
  have hcap : 0+(s.to_binary r).length*128^0 ≤ RUN_LOG_MAX_RECORD_BYTES := by
    rw [pow_zero,Nat.mul_one,Nat.zero_add]
    exact h.2
  have hread := readLength_lengthBytes (length_lt_of_accepts s h) 0 0 rest hcap
  rwa [pow_zero,Nat.mul_one,Nat.zero_add] at hread

lemma readPayload_frame (h : s.Accepts r) (rest : Bytes) :
    readPayload s (s.to_binary r).length (s.crc32c (s.to_binary r) ++ s.to_binary r ++ rest) = .got r rest := by
  have hcrc := s.length_crc32c (s.to_binary r)
  have htake : (s.crc32c (s.to_binary r) ++ s.to_binary r ++ rest).take 4 = s.crc32c (s.to_binary r) := by
    rw [List.append_assoc,List.take_append_of_le_length hcrc.ge,List.take_of_length_le hcrc.le]
  have hdrop : (s.crc32c (s.to_binary r) ++ s.to_binary r ++ rest).drop 4 = s.to_binary r ++ rest := by
    rw [List.append_assoc,← hcrc]
    exact List.drop_left
  have hpayload : (s.to_binary r ++ rest).take (s.to_binary r).length = s.to_binary r := List.take_left
  have hrest : (s.crc32c (s.to_binary r) ++ s.to_binary r ++ rest).drop (4+(s.to_binary r).length) = rest := by
    rw [← List.drop_drop,hdrop]
    exact List.drop_left
  simp only [readPayload,htake,hdrop,hpayload,hrest,s.from_to_binary _ h.1,h.1]
  simp [hcrc]

theorem read_frame_frameOf (h : s.Accepts r) (rest : Bytes) : read_frame s (frameOf s r ++ rest) = .got r rest := by
  unfold read_frame frameOf
  rw [List.append_assoc,readLength_frame s h]
  exact readPayload_frame s h rest

lemma readPayload_torn {length : ℕ} {bytes : Bytes} (h : bytes.length < 4+length) : readPayload s length bytes = .torn := by
  unfold readPayload
  refine if_pos ?_
  rw [List.length_take,List.length_take,List.length_drop]
  omega

theorem read_frame_torn (h : s.Accepts r) {t : Bytes} (ht : t <+: frameOf s r) (hne : t ≠ frameOf s r) (hnil : t ≠ []) :
    read_frame s t = .torn := by
  unfold read_frame
  by_cases hlength : lengthBytes MAX_VARINT_BYTES (s.to_binary r).length <+: t
  · -- the length is whole, and something is missing of what follows
    obtain ⟨rest,rfl⟩ := hlength
    rw [readLength_frame s h]
    have hrest : rest <+: s.crc32c (s.to_binary r) ++ s.to_binary r := (List.prefix_append_right_inj _).mp ht
    have hshort : rest ≠ s.crc32c (s.to_binary r) ++ s.to_binary r := fun heq => hne (by rw [heq]; rfl)
    have hlt : rest.length < 4+(s.to_binary r).length := by
      refine lt_of_le_of_ne ?_ fun heq => hshort (hrest.eq_of_length ?_)
      · have := hrest.length_le
        rwa [List.length_append,s.length_crc32c] at this
      · rw [heq,List.length_append,s.length_crc32c]
    exact readPayload_torn s hlt
  · have hpre : t <+: lengthBytes MAX_VARINT_BYTES (s.to_binary r).length :=
      (List.prefix_or_prefix_of_prefix ht (List.prefix_append _ _)).resolve_right hlength
    have hcut : t ≠ lengthBytes MAX_VARINT_BYTES (s.to_binary r).length := fun heq => hlength (heq ▸ List.prefix_rfl)
    have hcap : 0+(s.to_binary r).length*128^0 ≤ RUN_LOG_MAX_RECORD_BYTES := by
      rw [pow_zero,Nat.mul_one,Nat.zero_add]
      exact h.2
    have hread : readLength MAX_VARINT_BYTES 0 0 t = _ := readLength_torn (length_lt_of_accepts s h) 0 0 hcap hpre hcut
    rw [hread,if_neg fun hboth => hnil hboth.2]

/-- The frames of records that pass validation and the cap. -/
def framing : Framing (Record B) UInt8 where
  Ok := s.Accepts
  frame := frameOf s
  read := read_frame s
  frame_ne_nil := fun _ hnil => lengthBytes_ne_nil 9 _ (List.append_eq_nil_iff.mp hnil).1
  read_nil := rfl
  read_frame := fun h rest => read_frame_frameOf s h rest
  read_torn := fun h ht hne hnil => read_frame_torn s h ht hne hnil

end Laws

/-! ## The reader of a log -/

section Reader

variable {B K : Type} (s : Schema B K)

/-- The complete records of a log, leaving torn and corrupt frames unconsumed. -/
def RunLogReader (bytes : Bytes) : Scan (Record B) :=
  let magic := bytes.take RUN_LOG_MAGIC.length
  if magic ≠ RUN_LOG_MAGIC then
    if magic.isPrefixOf RUN_LOG_MAGIC then ⟨[],.torn,0⟩ else ⟨[],.corrupt "bad magic",0⟩
  else (framing s).scan (bytes.length+1) RUN_LOG_MAGIC.length (bytes.drop RUN_LOG_MAGIC.length)

def logOf (rs : List (Record B)) : Bytes := RUN_LOG_MAGIC ++ (framing s).frames rs

variable {s} {rs : List (Record B)} {t : Bytes}

lemma length_frames_ge (hrs : ∀ r ∈ rs, s.Accepts r) : rs.length ≤ ((framing s).frames rs).length := by
  induction rs with
  | nil => exact Nat.zero_le _
  | cons r rs ih =>
    have hpos : 0 < ((framing s).frame r).length :=
      List.length_pos_of_ne_nil ((framing s).frame_ne_nil (hrs r List.mem_cons_self))
    have hrest := ih fun r' hr' => hrs r' (List.mem_cons_of_mem _ hr')
    rw [Framing.frames_cons,List.length_append,List.length_cons]
    omega

theorem RunLogReader_logOf (hrs : ∀ r ∈ rs, s.Accepts r) (ht : (framing s).Torn t) :
    (RunLogReader s (logOf s rs ++ t)).records = rs ∧ (RunLogReader s (logOf s rs ++ t)).offset = (logOf s rs).length ∧
      ((RunLogReader s (logOf s rs ++ t)).stop = .ended ∧ t = [] ∨ (RunLogReader s (logOf s rs ++ t)).stop = .torn) := by
  have htake : (logOf s rs ++ t).take RUN_LOG_MAGIC.length = RUN_LOG_MAGIC := by
    rw [logOf,List.append_assoc]
    exact List.take_left
  have hdrop : (logOf s rs ++ t).drop RUN_LOG_MAGIC.length = (framing s).frames rs ++ t := by
    rw [logOf,List.append_assoc]
    exact List.drop_left
  have hfuel : rs.length < (logOf s rs ++ t).length+1 := by
    have := length_frames_ge hrs
    rw [logOf,List.length_append,List.length_append]
    omega
  unfold RunLogReader
  simp only [htake,hdrop,ne_eq,not_true_eq_false,if_false]
  have hlength : (logOf s rs).length = RUN_LOG_MAGIC.length+((framing s).frames rs).length := List.length_append
  rw [hlength]
  exact Framing.scan_frames hrs ht hfuel RUN_LOG_MAGIC.length

theorem RunLogReader_magic {n : ℕ} (hn : n < RUN_LOG_MAGIC.length) :
    RunLogReader s (RUN_LOG_MAGIC.take n) = ⟨[],.torn,0⟩ := by
  have htake : (RUN_LOG_MAGIC.take n).take RUN_LOG_MAGIC.length = RUN_LOG_MAGIC.take n :=
    List.take_of_length_le ((List.take_prefix _ _).length_le)
  have hne : RUN_LOG_MAGIC.take n ≠ RUN_LOG_MAGIC := by
    intro heq
    have := congrArg List.length heq
    rw [List.length_take] at this
    omega
  have hpre : (RUN_LOG_MAGIC.take n).isPrefixOf RUN_LOG_MAGIC = true := List.isPrefixOf_iff_prefix.mpr (List.take_prefix _ _)
  unfold RunLogReader
  simp only [htake]
  rw [if_pos hne,if_pos hpre]

end Reader
end Vibesys.Runlog
