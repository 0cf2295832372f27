import Vibesys.Runlog.Framing

/-!
# Reading a run.log that grows

The gateway reads a run.log by offset while it is appended to: each of a record's three reads finds the bytes there
are at that moment. A log is given by the records it will come to hold; a file of some size holds that many of its
bytes. At the boundary before a record the reader finds that record or too few bytes, and never corruption.

The checksum, and how wide the value of a field is, are parameters: they are those of the checksum and the wire
format's libraries.
-/
namespace Vibesys.Tail

open Runlog (Bytes RUN_LOG_MAGIC RUN_LOG_MAX_RECORD_BYTES lengthBytes)

structure Wire where
  checksum : Bytes → Bytes
  length_checksum : ∀ payload, (checksum payload).length = 4
  ConsumeFieldValue : ℕ → ℕ → Bytes → Option ℕ

/-- What `binary.Uvarint` makes of bytes. -/
inductive Varint
  | value (x width : ℕ)
  | short
  | overflow
  deriving DecidableEq

/-- The groups of seven bits from the `index`th on. -/
def uvarint : ℕ → ℕ → Bytes → Varint
  | _,_,[] => .short
  | index,x,byte :: rest =>
    if index = 10 then .overflow
    else if byte.toNat < 128 then
      if index = 9 ∧ 1 < byte.toNat then .overflow else .value (x + byte.toNat*128^index) (index + 1)
    else uvarint (index + 1) (x + byte.toNat % 128*128^index) rest

def Uvarint (bytes : Bytes) : Varint := uvarint 0 0 bytes

/-- The number of a field and its kind, with what follows. -/
def ConsumeTag (payload : Bytes) : Option (ℕ × ℕ × Bytes) :=
  match Uvarint payload with
  | .value x width => if x/8 = 0 ∨ x/8 > 2147483647 then none else some (x/8,x % 8,payload.drop width)
  | _ => none

/-- The fields of a record one after the other, as many as there can be bytes. -/
def sequenceFrom (w : Wire) : ℕ → ℕ → Bytes → Except String ℕ
  | 0,seq,_ => .ok seq
  | fuel+1,seq,payload =>
    if payload = [] then .ok seq
    else
      match ConsumeTag payload with
      | none => .error "invalid Record field tag"
      | some (number,kind,rest) =>
        if number = 1 then
          if kind ≠ 0 then .error "Record.seq is not a uint64"
          else
            match Uvarint rest with
            | .value x width => sequenceFrom w fuel x (rest.drop width)
            | _ => .error "invalid Record.seq"
        else
          match w.ConsumeFieldValue number kind rest with
          | none => .error "invalid Record field"
          | some width => sequenceFrom w fuel seq (rest.drop width)

def Sequence (w : Wire) (payload : Bytes) : Except String ℕ := sequenceFrom w payload.length 0 payload

def frame (w : Wire) (payload : Bytes) : Bytes := lengthBytes 10 payload.length ++ (w.checksum payload ++ payload)

/-- The records that a log comes to hold; their sequences are 1, 2, 3 and so on. -/
structure Log where
  wire : Wire
  payloads : List Bytes
  small : ∀ payload ∈ payloads, payload.length ≤ RUN_LOG_MAX_RECORD_BYTES
  dense : ∀ k payload, payloads[k]? = some payload → Sequence wire payload = .ok (k + 1)

namespace Log

variable (l : Log)

def frames (payloads : List Bytes) : Bytes := payloads.flatMap (frame l.wire)

def image : Bytes := RUN_LOG_MAGIC ++ l.frames l.payloads

/-- The bytes that a read at an offset finds when the file has the size. -/
def readAt (size offset n : ℕ) : Bytes := ((l.image.take size).drop offset).take n

/-- The offset right after the frame of a sequence. -/
def boundary (seq : ℕ) : ℕ := RUN_LOG_MAGIC.length + (l.frames (l.payloads.take seq)).length

/-- The size holds the frame of the sequence and all before it. -/
def Holds (size seq : ℕ) : Prop := seq = 0 ∨ (seq ≤ l.payloads.length ∧ l.boundary seq ≤ size)

instance (size seq : ℕ) : Decidable (l.Holds size seq) := inferInstanceAs (Decidable (_ ∨ _))

end Log

/-! ## The reader -/

structure Reader where
  offset : ℕ
  magicRead : Bool := false
  deriving DecidableEq

/-- What a read of the reader came to. -/
inductive Got (α : Type)
  | eof
  | corrupt (reason : String)
  | got (a : α)
  deriving DecidableEq

namespace Reader

def readMagic (bytes : Bytes) (r : Reader) : Got Reader :=
  if bytes.length < RUN_LOG_MAGIC.length then .eof
  else if bytes ≠ RUN_LOG_MAGIC then .corrupt "invalid magic"
  else .got ⟨if r.offset = 0 then RUN_LOG_MAGIC.length else r.offset,true⟩

def readPrefix (bytes : Bytes) : Got (ℕ × ℕ) :=
  match Uvarint bytes with
  | .short => if bytes.length = 10 then .corrupt "length varint overflow" else .eof
  | .overflow => .corrupt "length varint overflow"
  | .value length width =>
    if length > RUN_LOG_MAX_RECORD_BYTES then .corrupt s!"record exceeds {RUN_LOG_MAX_RECORD_BYTES} byte limit"
    else .got (length,width)

def readFrame (w : Wire) (bytes : Bytes) (length : ℕ) : Got Bytes :=
  if bytes.length < 4 + length then .eof
  else if bytes.take 4 ≠ w.checksum (bytes.drop 4) then .corrupt "CRC32C mismatch"
  else .got (bytes.drop 4)

end Reader

/-! ## Lengths -/

theorem uvarint_lengthBytes {m n : ℕ} (hn : n < 128^(m+1)) (fuel index : ℕ) (hfuel : m < fuel) (hindex : index + m < 9)
    (x : ℕ) (rest : Bytes) :
    uvarint index x (lengthBytes fuel n ++ rest) = .value (x + n*128^index) (index + (lengthBytes fuel n).length) := by
  induction m generalizing n fuel index x with
  | zero =>
    obtain ⟨fuel,rfl⟩ := Nat.exists_eq_succ_of_ne_zero (by omega : fuel ≠ 0)
    have hlt : n < 128 := by simpa using hn
    have hbyte : (UInt8.ofNat n).toNat = n := Runlog.toNat_ofNat_lt (by omega)
    rw [lengthBytes,if_pos hlt,List.singleton_append,uvarint,if_neg (by omega),hbyte,if_pos hlt,if_neg (by omega)]
    rfl
  | succ m ih =>
    obtain ⟨fuel,rfl⟩ := Nat.exists_eq_succ_of_ne_zero (by omega : fuel ≠ 0)
    rw [lengthBytes]
    split_ifs with hlt
    · have hbyte : (UInt8.ofNat n).toNat = n := Runlog.toNat_ofNat_lt (by omega)
      rw [List.singleton_append,uvarint,if_neg (by omega),hbyte,if_pos hlt,if_neg (by omega)]
      rfl
    · have hbyte : (UInt8.ofNat (n % 128+128)).toNat = n % 128+128 := Runlog.toNat_ofNat_lt (by omega)
      have hlow : (n % 128+128) % 128 = n % 128 := by omega
      have hrest : n/128 < 128^(m+1) := Nat.div_lt_of_lt_mul (by rw [← pow_succ']; exact hn)
      rw [List.cons_append,uvarint,if_neg (by omega),hbyte,if_neg (by omega),hlow,
        ih hrest fuel (index + 1) (by omega) (by omega),Runlog.split_length,List.length_cons]
      congr 1
      omega

theorem uvarint_cut {m n : ℕ} (hn : n < 128^(m+1)) (fuel index : ℕ) (hfuel : m < fuel) (hindex : index + m < 9) (x : ℕ)
    {t : Bytes} (ht : t <+: lengthBytes fuel n) (hne : t ≠ lengthBytes fuel n) :
    uvarint index x t = .short ∧ index + t.length < 9 := by
  induction m generalizing n fuel index x t with
  | zero =>
    obtain ⟨fuel,rfl⟩ := Nat.exists_eq_succ_of_ne_zero (by omega : fuel ≠ 0)
    have hlt : n < 128 := by simpa using hn
    rw [lengthBytes,if_pos hlt] at ht hne
    rw [(Runlog.prefix_singleton ht).resolve_right hne]
    exact ⟨rfl,hindex⟩
  | succ m ih =>
    obtain ⟨fuel,rfl⟩ := Nat.exists_eq_succ_of_ne_zero (by omega : fuel ≠ 0)
    cases t with
    | nil => exact ⟨rfl,by simp only [List.length_nil]; omega⟩
    | cons byte t =>
      rw [lengthBytes] at ht hne
      split_ifs at ht hne with hlt
      · rcases Runlog.prefix_singleton ht with hnil | hall
        · cases hnil
        · exact absurd hall hne
      · obtain ⟨rfl,htail⟩ := List.cons_prefix_cons.mp ht
        have hbyte : (UInt8.ofNat (n % 128+128)).toNat = n % 128+128 := Runlog.toNat_ofNat_lt (by omega)
        have hrest : n/128 < 128^(m+1) := Nat.div_lt_of_lt_mul (by rw [← pow_succ']; exact hn)
        obtain ⟨hshort,hlength⟩ := ih hrest fuel (index + 1) (by omega) (by omega)
          (x + (n % 128+128) % 128*128^index) htail fun heq => hne (by rw [heq])
        rw [uvarint,if_neg (by omega),hbyte,if_neg (by omega),hshort,List.length_cons]
        exact ⟨rfl,by omega⟩

/-! ## Boundaries -/

namespace Log

variable {l : Log} {k : ℕ} {payload : Bytes}

lemma lt_length (hk : l.payloads[k]? = some payload) : k < l.payloads.length :=
  (List.getElem?_eq_some_iff.mp hk).1

lemma take_succ (hk : l.payloads[k]? = some payload) : l.payloads.take (k + 1) = l.payloads.take k ++ [payload] := by
  rw [List.take_add_one,hk]
  rfl

lemma frames_append (a b : List Bytes) : l.frames (a ++ b) = l.frames a ++ l.frames b := List.flatMap_append

lemma frames_singleton (payload : Bytes) : l.frames [payload] = frame l.wire payload := List.flatMap_singleton ..

theorem boundary_succ (hk : l.payloads[k]? = some payload) :
    l.boundary (k + 1) = l.boundary k + (frame l.wire payload).length := by
  unfold boundary
  rw [take_succ hk,frames_append,frames_singleton,List.length_append]
  omega

theorem boundary_mono {i j : ℕ} (h : i ≤ j) : l.boundary i ≤ l.boundary j := by
  unfold boundary
  have hsplit : l.payloads.take j = l.payloads.take i ++ (l.payloads.take j).drop i := by
    conv_lhs => rw [← List.take_append_drop i (l.payloads.take j),List.take_take,Nat.min_eq_left h]
  rw [hsplit,frames_append,List.length_append]
  omega

lemma boundary_pos : RUN_LOG_MAGIC.length ≤ l.boundary k := Nat.le_add_right _ _

theorem drop_image (k : ℕ) : l.image.drop (l.boundary k) = l.frames (l.payloads.drop k) := by
  have himage : l.image = (RUN_LOG_MAGIC ++ l.frames (l.payloads.take k)) ++ l.frames (l.payloads.drop k) := by
    rw [List.append_assoc,← frames_append,List.take_append_drop]
    rfl
  have hlength : l.boundary k = (RUN_LOG_MAGIC ++ l.frames (l.payloads.take k)).length := List.length_append.symm
  rw [himage,hlength]
  exact List.drop_left

theorem drop_image_some (hk : l.payloads[k]? = some payload) :
    l.image.drop (l.boundary k) = frame l.wire payload ++ l.frames (l.payloads.drop (k + 1)) := by
  obtain ⟨hlt,rfl⟩ := List.getElem?_eq_some_iff.mp hk
  rw [drop_image,List.drop_eq_getElem_cons hlt]
  rfl

theorem readAt_eq (size offset n : ℕ) : l.readAt size offset n = (l.image.drop offset).take (min n (size - offset)) := by
  unfold readAt
  rw [List.drop_take,List.take_take]

lemma length_frame (w : Wire) (payload : Bytes) :
    (frame w payload).length = (lengthBytes 10 payload.length).length + 4 + payload.length := by
  unfold frame
  rw [List.length_append,List.length_append,w.length_checksum]
  omega

/-! ## What the reader finds -/

theorem readMagic_eq (r : Reader) (size : ℕ) :
    r.readMagic (l.readAt size 0 RUN_LOG_MAGIC.length) =
      if size < RUN_LOG_MAGIC.length then .eof
      else .got ⟨if r.offset = 0 then RUN_LOG_MAGIC.length else r.offset,true⟩ := by
  have hread : l.readAt size 0 RUN_LOG_MAGIC.length = RUN_LOG_MAGIC.take (min RUN_LOG_MAGIC.length size) := by
    rw [readAt_eq,List.drop_zero,Nat.sub_zero]
    exact List.take_append_of_le_length (Nat.min_le_left _ _)
  unfold Reader.readMagic
  rw [hread,List.length_take]
  by_cases hsize : size < RUN_LOG_MAGIC.length
  · rw [if_pos (by omega),if_pos hsize]
  · rw [if_neg (by omega),if_neg hsize,Nat.min_eq_left (by omega),List.take_length]
    simp

section Small

variable (hk : l.payloads[k]? = some payload)

include hk

lemma length_lt : payload.length < 128^(2+1) := by
  have hsmall := l.small payload (List.mem_of_getElem? hk)
  have hcap : RUN_LOG_MAX_RECORD_BYTES < 128^(2+1) := by decide
  omega

theorem readPrefix_eq (size : ℕ) :
    Reader.readPrefix (l.readAt size (l.boundary k) 10) = .eof ∧ size < l.boundary (k + 1) ∨
      Reader.readPrefix (l.readAt size (l.boundary k) 10) =
        .got (payload.length,(lengthBytes 10 payload.length).length) := by
  have hlt := length_lt hk
  have hnext := boundary_succ hk
  rw [length_frame] at hnext
  rw [readAt_eq,drop_image_some hk]
  unfold frame
  rw [List.append_assoc]
  generalize l.wire.checksum payload ++ payload ++ l.frames (l.payloads.drop (k + 1)) = rest
  by_cases hcut : min 10 (size - l.boundary k) < (lengthBytes 10 payload.length).length
  · left
    rw [List.take_append_of_le_length (by omega)]
    have hne : (lengthBytes 10 payload.length).take (min 10 (size - l.boundary k)) ≠ lengthBytes 10 payload.length := by
      intro heq
      have hlength := congrArg List.length heq
      rw [List.length_take] at hlength
      omega
    obtain ⟨hshort,hlength⟩ := uvarint_cut hlt 10 0 (by omega) (by omega) 0 (List.take_prefix _ _) hne
    unfold Reader.readPrefix Uvarint
    rw [hshort]
    refine ⟨if_neg (by omega),?_⟩
    -- a whole length has at most three bytes, so it is the file that ends
    have hpos : 0 < (lengthBytes 10 payload.length).length := List.length_pos_of_ne_nil (Runlog.lengthBytes_ne_nil 9 _)
    have hlast : (lengthBytes 10 payload.length).dropLast ≠ lengthBytes 10 payload.length := by
      intro heq
      have hl := congrArg List.length heq
      rw [List.length_dropLast] at hl
      omega
    have hwidth := (uvarint_cut hlt 10 0 (by omega) (by omega) 0 (List.dropLast_prefix _) hlast).2
    rw [List.length_dropLast] at hwidth
    omega
  · right
    have htake : (lengthBytes 10 payload.length ++ rest).take (min 10 (size - l.boundary k)) =
        lengthBytes 10 payload.length ++ rest.take (min 10 (size - l.boundary k) - (lengthBytes 10 payload.length).length) := by
      rw [List.take_append,List.take_of_length_le (by omega)]
    unfold Reader.readPrefix Uvarint
    rw [htake,uvarint_lengthBytes hlt 10 0 (by omega) (by omega)]
    have hsmall := l.small payload (List.mem_of_getElem? hk)
    simp only [pow_zero,Nat.mul_one,Nat.zero_add]
    rw [if_neg (by omega)]

theorem readFrame_eq (size : ℕ) :
    Reader.readFrame l.wire
        (l.readAt size (l.boundary k + (lengthBytes 10 payload.length).length) (4 + payload.length)) payload.length =
      if size < l.boundary (k + 1) then .eof else .got payload := by
  have hnext := boundary_succ hk
  rw [length_frame] at hnext
  have hdrop : l.image.drop (l.boundary k + (lengthBytes 10 payload.length).length) =
      (l.wire.checksum payload ++ payload) ++ l.frames (l.payloads.drop (k + 1)) := by
    rw [← List.drop_drop,drop_image_some hk]
    unfold frame
    rw [List.append_assoc]
    exact List.drop_left
  have hbody : (l.wire.checksum payload ++ payload).length = 4 + payload.length := by
    rw [List.length_append,l.wire.length_checksum]
  unfold Reader.readFrame
  rw [readAt_eq,hdrop,List.take_append_of_le_length (by omega),List.length_take,hbody]
  by_cases hsize : size < l.boundary (k + 1)
  · rw [if_pos hsize,if_pos (by omega)]
  · have hwhole : min (4 + payload.length) (size - (l.boundary k + (lengthBytes 10 payload.length).length)) =
        (l.wire.checksum payload ++ payload).length := by omega
    rw [if_neg hsize,if_neg (by omega),hwhole,List.take_length]
    have hhead : (l.wire.checksum payload ++ payload).take 4 = l.wire.checksum payload := by
      rw [← l.wire.length_checksum payload]
      exact List.take_left
    have htail : (l.wire.checksum payload ++ payload).drop 4 = payload := by
      rw [← l.wire.length_checksum payload]
      exact List.drop_left
    rw [hhead,htail]
    simp

end Small

theorem readPrefix_end (hk : l.payloads.length ≤ k) (size : ℕ) :
    Reader.readPrefix (l.readAt size (l.boundary k) 10) = .eof := by
  have hnil : l.frames [] = [] := rfl
  rw [readAt_eq,drop_image,List.drop_of_length_le hk,hnil,List.take_nil]
  rfl

end Log

end Vibesys.Tail
