import Vibesys.Runlog.Steps

/-!
# A committed record survives

Whatever is called, however the committer's steps fall, whichever write, sync or publication fails and wherever the
process ends: a log whose records can be projected is opened again, with a beginning of the records that were
appended, and with every record for which a call returned that waits for durability.
-/
namespace Vibesys.Runlog

open Library

variable {B K : Type}

section Runs

variable {s : Schema B K} {rs : List (Record B)}

theorem Store.holds_empty (s : Schema B K) : Store.Holds s {} [] :=
  ⟨List.nil_prefix,⟨sound_nil s,.absent,Nat.zero_le _,fun _ hn => (by cases hn),fun n k hk => (by cases hk)⟩,
    Durable.zero s 0 [],fun _ hv => (by cases hv)⟩

variable [DecidableEq K] {w : Store B K}

/-- A record that is appended can be projected, unless the append is refused. -/
def Store.Meets (s : Schema B K) (w : Store B K) : Act B → Prop
  | .append record _ _ => w.takes s record = true →
      s.observes record.body = true ∧ s.headline (s.fold (w.records ++ [record])) ≠ .raises
  | _ => True

instance (s : Schema B K) (w : Store B K) : (a : Act B) → Decidable (w.Meets s a)
  | .append _ _ _ => inferInstanceAs (Decidable (_ → _))
  | .commit | .checkpoint | .close | .returns _ | .take _ | .sync _ | .fold _ | .keyframe _ | .head _ | .stops _ | .opens _ =>
    inferInstanceAs (Decidable True)

theorem Store.Holds.step (h : w.Holds s rs) (a : Act B) (hmeets : w.Meets s a) : ∃ rs', (w.step s a).Holds s rs' := by
  cases a with
  | append record now failed => exact h.append hmeets now failed
  | commit => exact ⟨rs,h.request false⟩
  | checkpoint => exact ⟨rs,h.request true⟩
  | close => exact ⟨rs,h.close⟩
  | returns i => exact ⟨rs,h.returns i⟩
  | take now => exact ⟨rs,h.take_batch now⟩
  | sync ok => exact ⟨rs,h.sync ok⟩
  | fold p => exact ⟨rs,h.fold p⟩
  | keyframe p => exact ⟨rs,h.keyframe p⟩
  | head p => exact ⟨rs,h.head p⟩
  | stops bytes => exact h.stops bytes
  | opens cut =>
    cases hv : w.writer with
    | none => exact ⟨rs,(h.opens hv cut).1⟩
    | some v =>
      have hsame : w.opens s cut = w := by
        unfold Store.opens
        rw [hv]
      show ∃ rs', (w.opens s cut).Holds s rs'
      rw [hsame]
      exact ⟨rs,h⟩

theorem Store.holds_run {acts : List (Act B)} (h : Along (Store.step s) (Store.Meets s) {} acts) :
    ∃ rs, (run (Store.step s) {} acts).Holds s rs :=
  Along.invariant (I := fun w : Store B K => ∃ rs, w.Holds s rs) (fun _ a hw hmeets => hw.elim fun _ hw => hw.step a hmeets)
    ⟨[],Store.holds_empty s⟩ h

/-- What the first store holds is in the second, which was opened after it. -/
structure Store.Survives (s : Schema B K) (w w' : Store B K) : Prop where
  opened : ∃ v, w'.writer = some v ∧ v.sequence = w'.records.length
  kept : w'.records <+: w.records
  dense : Dense w'.records
  returned : w.returned ≤ w'.records.length
  head : ∀ n, w.disk.head = some n → n ≤ w'.records.length
  keyframes : ∀ n k, w.disk.keyframes.find? n = some k → n ≤ w'.records.length
  folded : ∀ n k, w'.disk.keyframes.find? n = some k → n ≤ w'.records.length ∧ k = keyframeAt s w'.records n
  again : ∀ n ≤ w'.records.length, (w'.disk.write_keyframe (keyframeAt s w'.records n) .ok).2 = false

theorem Disk.Keeps.publishes_again {d : Disk K} (h : d.Keeps s rs) (n : ℕ) :
    (d.write_keyframe (keyframeAt s rs n) .ok).2 = false := by
  unfold Disk.write_keyframe
  rw [if_neg (by decide)]
  cases hfind : d.keyframes.find? (keyframeAt s rs n).through_seq with
  | some old =>
    obtain ⟨-,rfl⟩ := h.keyframes _ _ hfind
    show (decide (keyframeAt s rs n ≠ keyframeAt s rs n) || decide (Publish.ok = .after)) = false
    simp
  | none => rfl

/-- If every record that is appended can be projected, then in every state that is reached each keyframe is the fold
of the first records, and opening the log raises nothing: what it opens with is a beginning of what was appended that
has every record a call returned for and every record that the head or a keyframe covers. -/
theorem a_committed_record_survives (s : Schema B K) (acts : List (Act B))
    (h : Along (Store.step s) (Store.Meets s) {} acts) :
    (∀ n k, (run (Store.step s) {} acts).disk.keyframes.find? n = some k →
      n ≤ (run (Store.step s) {} acts).records.length ∧ k = keyframeAt s (run (Store.step s) {} acts).records n) ∧
    ((run (Store.step s) {} acts).writer = none →
      Store.Survives s (run (Store.step s) {} acts) ((run (Store.step s) {} acts).opens s none)) := by
  obtain ⟨rs,hrs⟩ := Store.holds_run h
  generalize run (Store.step s) {} acts = w at hrs
  refine ⟨fun n k hk => ?_,fun hclosed => ?_⟩
  · obtain ⟨hn,rfl⟩ := hrs.keeps.keyframes n k hk
    obtain ⟨more,hmore⟩ := hrs.held
    rw [← hmore,keyframeAt,keyframeAt,endOf_append hn.held,List.take_append_of_le_length hn.held,List.length_append]
    exact ⟨hn.held.trans (Nat.le_add_right _ _),rfl⟩
  · obtain ⟨hopens,hopened⟩ := hrs.opens hclosed none
    obtain ⟨⟨log_offset,hv⟩,hrecords⟩ := hopened rfl
    refine ⟨⟨_,hv,?_⟩,?_,?_,?_,fun n hn => ?_,fun n k hk => ?_,fun n k hk => ?_,fun n _ => ?_⟩
    · rw [hrecords]
      rfl
    · rw [hrecords]
      exact hrs.held
    · rw [hrecords]
      exact hopens.keeps.sound.dense
    · rw [hrecords]
      exact hrs.returned.held
    · rw [hrecords]
      exact (hrs.keeps.head n hn).held
    · rw [hrecords]
      exact (hrs.keeps.keyframes n k hk).1.held
    · rw [hrecords]
      exact ⟨(hopens.keeps.keyframes n k hk).1.held,(hopens.keeps.keyframes n k hk).2⟩
    · rw [hrecords]
      exact hopens.keeps.publishes_again n

end Runs

/-! ## A log of three kinds of records -/

namespace Sample

inductive Body
  | plain
  | boundary
  /-- Attributes that pass validation and that no projection decodes. -/
  | garbled
  deriving DecidableEq

def Body.byte : Body → UInt8
  | .plain => 0
  | .boundary => 1
  | .garbled => 2

def Body.ofByte (byte : UInt8) : Body := if byte = 0 then .plain else if byte = 1 then .boundary else .garbled

lemma Body.ofByte_byte (b : Body) : Body.ofByte b.byte = b := by
  cases b <;> rfl

/-- A record is three bytes, and the facts are the number of records. -/
def schema : Schema Body ℕ where
  to_binary r := [UInt8.ofNat r.seq,UInt8.ofNat r.clock.num.toNat,r.body.byte]
  from_binary
    | [seq,clock,body] => some ⟨seq.toNat,(clock.toNat : ℚ),Body.ofByte body⟩
    | _ => none
  validate r := decide (r.seq < 256) && decide (r.clock = (r.clock.num.toNat : ℚ)) && decide (r.clock.num.toNat < 256)
  crc32c payload := [payload.foldl (· ^^^ ·) 0,0,0,0]
  isBoundary b := decide (b = .boundary)
  blank := 0
  append_skeleton n _ := n+1
  observes b := decide (b ≠ .garbled)
  headline _ := .present
  from_to_binary r h := by
    simp only [Bool.and_eq_true,decide_eq_true_eq] at h
    obtain ⟨⟨hseq,hclock⟩,hsmall⟩ := h
    simp only [Body.ofByte_byte,toNat_ofNat_lt hseq,toNat_ofNat_lt hsmall]
    rw [← hclock]
  length_crc32c _ := rfl

/-- A plain record and a boundary that is committed, then a record of which three bytes are written. -/
def survivingActs : List (Act Body) :=
  [.opens none,.append ⟨1,0,.plain⟩ 0 none,.append ⟨2,0,.boundary⟩ 0 none,.take 0,.sync true,.fold .ok,.fold .ok,.fold .ok,
    .keyframe .ok,.head .ok,.returns 0,.append ⟨3,1,.plain⟩ 1 (some 3),.stops 1000]

theorem a_committed_record_survives_short_write :
    (run (Store.step schema) {} survivingActs).returned = 2 ∧
      Store.Survives schema (run (Store.step schema) {} survivingActs)
        ((run (Store.step schema) {} survivingActs).opens schema none) :=
  ⟨by decide +kernel,(a_committed_record_survives schema survivingActs (by decide +kernel)).2 (by decide +kernel)⟩

/-- After a plain record that was committed stands one that no projection decodes. -/
def garbledActs : List (Act Body) :=
  [.opens none,.append ⟨1,0,.plain⟩ 0 none,.commit,.take 0,.sync true,.fold .ok,.fold .ok,.keyframe .ok,.head .ok,.returns 0,
    .append ⟨2,0,.garbled⟩ 0 none,.stops 1000]

theorem opening_raises_after_a_garbled_record :
    (run (Store.step schema) {} garbledActs).returned = 1 ∧ (run (Store.step schema) {} garbledActs).writer.isNone = true ∧
      ((run (Store.step schema) {} garbledActs).opens schema none).writer.isNone = true := by
  decide +kernel

end Sample

/-!
## The confirmed log

`ConfirmedLog` is the one appender of a run. It numbers and dates records, passes them to the writer and remembers
the records that it knows to be in the log. A call that waits for durability lets the committer work until the
records it waits for are committed. No write and no sync fails here.
-/

def Work.left (job : Work B) : ℕ :=
  match job.phase with
  | .sync => job.todo.length+4
  | .fold => job.todo.length+3
  | .keyframe => 2
  | .head => 1

def FileRunLogWriter.remaining (v : FileRunLogWriter B K) : ℕ :=
  v.work.elim 0 Work.left+if v.pending.isEmpty then 0 else v.pending.length+5

variable [DecidableEq K] (s : Schema B K)

namespace Store

def commits (w : Store B K) (now : ℚ) : Store B K :=
  match w.writer with
  | some v =>
    match v.work with
    | none => w.take_batch now
    | some job =>
      match job.phase with
      | .sync => w.sync true
      | .fold => w.fold s .ok
      | .keyframe => w.keyframe .ok
      | .head => w.head s .ok
  | none => w

/-- The committer works while a call waits. -/
def wait_committed (wait : ℕ × Bool) (now : ℚ) : ℕ → Store B K → Store B K
  | 0, w => w
  | fuel+1, w =>
    match w.writer with
    | some v => if v.failure || v.isCommitted wait then w else wait_committed wait now fuel (w.commits s now)
    | none => w

/-- The call that waits returns, or raises the committer's failure. -/
def waits (w : Store B K) (wait : ℕ × Bool) (now : ℚ) : Store B K × Bool :=
  let w := wait_committed s wait now (w.writer.elim 0 FileRunLogWriter.remaining) w
  match w.writer with
  | some v => if v.failure || !v.isCommitted wait then (w,true) else (w.returns 0,false)
  | none => (w,true)

/-- `append` of the writer, and whether it raised. -/
def appends (w : Store B K) (record : Record B) (now : ℚ) : Store B K × Bool :=
  match w.writer with
  | some v =>
    if (encode_frame s record).isNone || v.failure || v.intent.closing || decide (record.seq ≠ v.sequence+1) then (w,true)
    else
      let w := w.append s record now none
      if s.isBoundary record.body then w.waits s (record.seq,true) now else (w,false)
  | none => (w,true)

def commit (w : Store B K) (now : ℚ) : Store B K × Bool :=
  match w.writer with
  | some v =>
    if v.failure || v.intent.closing then (w,true) else (w.request false).waits s (v.sequence,false) now
  | none => (w,true)

def read (w : Store B K) : Option (List (Record B)) :=
  match w.writer with
  | some v =>
    if v.failure || v.intent.closing then none
    else some ((RunLogReader s (w.disk.log.getD [])).records.take v.committed_seq)
  | none => none

end Store

structure ConfirmedLog (B K : Type) where
  writer : Store B K
  confirmed : Option (List (Record B)) := none

inductive Reply (B : Type)
  | done
  | appended (record : Record B)
  | built (record : Record B)
  | records (rs : List (Record B))
  | raised
  deriving DecidableEq

def latest (rs : List (Record B)) : ℚ := (rs.getLast?.map Record.clock).getD 0

/-- The clock no later than the present instant, and no earlier than the last record's. -/
def dated (present : Option ℚ) (clock : ℚ) (rs : List (Record B)) : ℚ :=
  max (present.elim clock (min clock)) (latest rs)

def stamped (present : Option ℚ) (body : B) (clock : ℚ) (rs : List (Record B)) : Record B :=
  ⟨rs.length+1,dated present clock rs,body⟩

namespace ConfirmedLog

def thePrefix (c : ConfirmedLog B K) : Option (List (Record B)) :=
  match c.confirmed with
  | some rs => some rs
  | none => c.writer.read s

def records (c : ConfirmedLog B K) : Reply B × ConfirmedLog B K :=
  match c.thePrefix s with
  | none => (.raised,c)
  | some rs => (.records rs,{ c with confirmed := some rs })

def extend (c : ConfirmedLog B K) (record : Record B) (now : ℚ) : Reply B × ConfirmedLog B K :=
  match c.thePrefix s with
  | none => (.raised,c)
  | some rs =>
    if record.seq ≠ rs.length+1 ∨ record.clock < latest rs then (.raised,{ c with confirmed := some rs })
    else
      match c.writer.appends s record now with
      | (w,true) => (.raised,⟨w,none⟩)
      | (w,false) =>
        match w.commit s now with
        | (w,true) => (.raised,⟨w,none⟩)
        | (w,false) => (.appended record,⟨w,some (rs ++ [record])⟩)

def stage (c : ConfirmedLog B K) (present : Option ℚ) (record : Record B) (now : ℚ) : Reply B × ConfirmedLog B K :=
  match c.thePrefix s with
  | none => (.raised,c)
  | some rs =>
    let record := { record with seq := rs.length+1, clock := dated present record.clock rs }
    match c.writer.appends s record now with
    | (w,true) => (.raised,⟨w,none⟩)
    | (w,false) => (.done,⟨w,some (rs ++ [record])⟩)

def commit (c : ConfirmedLog B K) (now : ℚ) : Reply B × ConfirmedLog B K :=
  match c.writer.commit s now with
  | (w,true) => (.raised,{ c with writer := w })
  | (w,false) => (.done,{ c with writer := w })

def next_record (c : ConfirmedLog B K) (present : Option ℚ) (body : B) (clock : ℚ) : Reply B × ConfirmedLog B K :=
  match c.thePrefix s with
  | none => (.raised,c)
  | some rs => (.built (stamped present body clock rs),{ c with confirmed := some rs })

def append (c : ConfirmedLog B K) (present : Option ℚ) (body : B) (clock now : ℚ) : Reply B × ConfirmedLog B K :=
  match c.next_record s present body clock with
  | (.built record,c) => c.extend s record now
  | (reply,c) => (reply,c)

end ConfirmedLog

/-! ## Runs -/

/-- A call, or a step of the committer between two calls. -/
inductive Call (B : Type)
  | stage (record : Record B)
  | append (body : B) (clock : ℚ)
  | extend (record : Record B)
  | next_record (body : B) (clock : ℚ)
  | commit
  | records
  | commits

/-- A call with the run's present instant, if it has one, and the writer's clock. -/
structure Op (B : Type) where
  call : Call B
  present : Option ℚ
  now : ℚ

namespace ConfirmedLog

def answer (c : ConfirmedLog B K) (op : Op B) : Reply B × ConfirmedLog B K :=
  match op.call with
  | .stage record => c.stage s op.present record op.now
  | .append body clock => c.append s op.present body clock op.now
  | .extend record => c.extend s record op.now
  | .next_record body clock => c.next_record s op.present body clock
  | .commit => c.commit s op.now
  | .records => c.records s
  | .commits => (.done,{ c with writer := c.writer.commits s op.now })

def step (c : ConfirmedLog B K) (op : Op B) : ConfirmedLog B K := (c.answer s op).2

end ConfirmedLog

/-! ## The list of accepted records -/

namespace Accepted

/-- The record that a call gives to the log, if it follows the records and is not dated before them. -/
def given (rs : List (Record B)) (op : Op B) : Option (Record B) :=
  match op.call with
  | .stage record => some { record with seq := rs.length+1, clock := dated op.present record.clock rs }
  | .append body clock => some (stamped op.present body clock rs)
  | .extend record => if record.seq ≠ rs.length+1 ∨ record.clock < latest rs then none else some record
  | .next_record _ _ | .commit | .records | .commits => none

/-- What a log that is a list answers. -/
def answer (rs : List (Record B)) (op : Op B) : Reply B × List (Record B) :=
  match op.call with
  | .next_record body clock => (.built (stamped op.present body clock rs),rs)
  | .commit => (.done,rs)
  | .records => (.records rs,rs)
  | .commits => (.done,rs)
  | .stage _ =>
    match given rs op with
    | some record => if s.Accepts record then (.done,rs ++ [record]) else (.raised,rs)
    | none => (.raised,rs)
  | .append _ _ | .extend _ =>
    match given rs op with
    | some record => if s.Accepts record then (.appended record,rs ++ [record]) else (.raised,rs)
    | none => (.raised,rs)

def step (rs : List (Record B)) (op : Op B) : List (Record B) := (answer s rs op).2

end Accepted
end Vibesys.Runlog
