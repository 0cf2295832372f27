import Vibesys.Runlog.Healthy

/-!
# Calls of a writer that does not fail

A record that follows the log is taken or, if it breaks validation or the cap, refused. `commit` returns with the whole
log committed, and the whole log is then read back.
-/
namespace Vibesys.Runlog

open Library

variable {B K : Type} {s : Schema B K} {rs : List (Record B)}

section Writer

variable {w : Store B K} {v : FileRunLogWriter B K} {record : Record B}

def FileRunLogWriter.wrote (v : FileRunLogWriter B K) (record : Record B) (offset : ℕ) (intent : CommitIntent)
    (waiting : List (ℕ × Bool)) : FileRunLogWriter B K :=
  { v with intent := intent, pending := v.pending ++ [(record,offset)], sequence := record.seq, waiting := waiting }

lemma CommitIntent.queued_due (i : CommitIntent) (now : ℚ) : (i.queued now).due ≠ none := by
  unfold CommitIntent.queued
  cases hdue : i.due with
  | none => exact fun hno => (by cases hno)
  | some due =>
    dsimp only
    rw [hdue]
    exact fun hno => (by cases hno)

lemma CommitIntent.queued_closing (i : CommitIntent) (now : ℚ) : (i.queued now).closing = i.closing := by
  unfold CommitIntent.queued
  split <;> rfl

theorem Store.append_ok (hv : w.writer = some v) (hfailure : v.failure = false) (hclosing : v.intent.closing = false)
    (haccepts : s.Accepts record) (hnext : record.seq = v.sequence+1) (now : ℚ) :
    (w.append s record now none).records = w.records ++ [record] ∧
      (w.append s record now none).writer = some (v.wrote record (w.disk.log.getD [] ++ frameOf s record).length
        (if s.isBoundary record.body then (v.intent.queued now).requested record.seq true false else v.intent.queued now)
        (if s.isBoundary record.body then v.waiting ++ [(record.seq,true)] else v.waiting)) := by
  have hencode : encode_frame s record = some (frameOf s record) := if_pos haccepts
  have hopen : ¬(v.failure || v.intent.closing) = true := by simp [hfailure,hclosing]
  unfold Store.append
  rw [hv,hencode]
  dsimp only
  rw [if_neg hopen,if_neg (not_not.mpr hnext)]
  refine ⟨rfl,?_⟩
  cases s.isBoundary record.body <;> rfl

theorem Store.read_ok (h : w.Holds s rs) (hv : w.writer = some v) (hh : v.Healthy s rs) (hall : v.committed_seq = rs.length) :
    w.read s = some rs := by
  have hlog := h.log hv hh.failure
  have hrecords : (RunLogReader s (logOf s rs ++ [])).records = rs :=
    (RunLogReader_logOf h.keeps.sound.accepts Framing.torn_nil).1
  rw [List.append_nil] at hrecords
  unfold Store.read
  rw [hv]
  dsimp only
  rw [if_neg (by simp [hh.failure,hh.closing]),hlog,Option.getD_some,hrecords,hall,List.take_length]

variable [DecidableEq K]

theorem Store.appends_refused (hv : w.writer = some v) (hrefused : ¬s.Accepts record) (now : ℚ) :
    w.appends s record now = (w,true) := by
  have hencode : encode_frame s record = none := if_neg hrefused
  unfold Store.appends
  rw [hv]
  dsimp only
  rw [hencode]
  rfl

theorem Store.appends_ok (h : w.Holds s rs) (hv : w.writer = some v) (hh : v.Healthy s rs) (haccepts : s.Accepts record)
    (hseq : record.seq = rs.length+1) (hobserves : s.observes record.body = true)
    (hheadline : s.headline (s.fold (rs ++ [record])) ≠ .raises) (now : ℚ) :
    ∃ w' v', w.appends s record now = (w',false) ∧ w'.Holds s (rs ++ [record]) ∧ w'.writer = some v' ∧
      v'.Healthy s (rs ++ [record]) := by
  obtain ⟨rfl,hinv⟩ := h.writer v hv
  have hnext : record.seq = v.sequence+1 := by rw [hinv.sequence hh.failure,hseq]
  have hencode : encode_frame s record = some (frameOf s record) := if_pos haccepts
  have hhealthy : ∀ (offset : ℕ) (intent : CommitIntent) (waiting : List (ℕ × Bool)), intent.due ≠ none →
      intent.closing = false → (v.wrote record offset intent waiting).Healthy s (w.records ++ [record]) := by
    intro offset intent waiting hdue hclosing
    refine ⟨hh.failure,hh.done,hclosing,hh.idle,fun _ => hdue,fun r hr => ?_⟩
    have hr' : r ∈ (w.records ++ [record]).take v.skeleton.through_seq := hr
    rw [List.take_append_of_le_length hinv.durable.held] at hr'
    exact hh.boundaries r hr'
  have hclosing : (v.intent.queued now).closing = false := by rw [CommitIntent.queued_closing,hh.closing]
  obtain ⟨rs',hholds⟩ := h.append (fun _ => ⟨hobserves,hheadline⟩) now none
  obtain ⟨hrecords,hwriter⟩ := Store.append_ok hv hh.failure hh.closing haccepts hnext now
  obtain ⟨rfl,-⟩ := hholds.writer _ hwriter
  rw [hrecords] at hholds
  unfold Store.appends
  rw [hv]
  dsimp only
  rw [hencode,hh.failure,hh.closing,if_neg (by simp [hnext])]
  cases hboundary : s.isBoundary record.body with
  | false =>
    rw [hboundary] at hwriter
    exact ⟨_,_,rfl,hholds,hwriter,hhealthy _ _ _ (CommitIntent.queued_due _ now) hclosing⟩
  | true =>
    rw [hboundary] at hwriter
    have hlength : (w.records ++ [record]).length = record.seq := by
      rw [List.length_append,List.length_singleton,hseq]
    have hwait : IsWait s (w.records ++ [record]) (record.seq,true) :=
      ⟨hlength.symm,fun _ => ⟨record,List.mem_append_right _ (List.mem_singleton_self _),hlength.symm,hboundary⟩⟩
    obtain ⟨w',v',heq,hholds',hv',hh',-⟩ := Store.waits_ok hwait now hholds hwriter (hhealthy _ _ _ (CommitIntent.queued_due _ now) (by rw [if_pos rfl]; simpa [CommitIntent.requested] using hclosing))
      (by rw [hlength]; exact le_max_right _ _)
    exact ⟨w',v',heq,hholds',hv',hh'⟩

theorem Store.commit_ok (h : w.Holds s rs) (hv : w.writer = some v) (hh : v.Healthy s rs) (now : ℚ) :
    ∃ w' v', w.commit s now = (w',false) ∧ w'.Holds s rs ∧ w'.writer = some v' ∧ v'.Healthy s rs ∧
      v'.committed_seq = rs.length := by
  have hsequence : v.sequence = rs.length := (h.writer v hv).2.sequence hh.failure
  have hopen : ¬(v.failure || v.intent.closing) = true := by simp [hh.failure,hh.closing]
  have hrequest : (w.request false).writer = some { v.request_commit v.sequence false false with
      waiting := v.waiting ++ [(v.sequence,false)] } := by
    unfold Store.request
    rw [hv]
    dsimp only
    rw [if_neg hopen]
  unfold Store.commit
  rw [hv]
  dsimp only
  rw [if_neg hopen]
  refine Store.waits_ok ⟨hsequence,fun hno => (by cases hno)⟩ now (h.request false) hrequest
    ⟨hh.failure,hh.done,?_,hh.idle,hh.queued,hh.boundaries⟩ ?_
  · show (v.intent.closing || false) = false
    rw [hh.closing]
    rfl
  · show rs.length ≤ max v.intent.urgent_seq v.sequence
    rw [hsequence]
    exact le_max_right _ _

end Writer

/-!
## One dense, dated log

Over a writer that does not fail the confirmed log answers every call as a list of records would: a record is refused
as a whole or stands at the end of the list, numbered and dated after the one before. This needs that no staged record
is uncommitted whenever a record breaks validation or the cap, because the confirmed records are then read again from
what is committed.
-/

/-! ## Calls of the confirmed log -/

def Dated (rs : List (Record B)) : Prop := rs.Pairwise fun a b => a.clock ≤ b.clock

instance (rs : List (Record B)) : Decidable (Dated rs) := inferInstanceAs (Decidable (List.Pairwise _ _))

theorem Dated.concat (h : Dated rs) {record : Record B} (hclock : latest rs ≤ record.clock) : Dated (rs ++ [record]) := by
  refine List.pairwise_append.mpr ⟨h,List.pairwise_singleton _ _,fun a ha b hb => ?_⟩
  rw [List.mem_singleton.mp hb]
  refine le_trans ?_ hclock
  rcases List.eq_nil_or_concat rs with rfl | ⟨init,last,rfl⟩
  · exact absurd ha List.not_mem_nil
  · have hlatest : latest (init.concat last) = last.clock := by simp [latest]
    rw [hlatest]
    rw [List.concat_eq_append] at h ha
    rcases List.mem_append.mp ha with ha | ha
    · exact (List.pairwise_append.mp h).2.2 a ha last (List.mem_singleton_self _)
    · rw [List.mem_singleton.mp ha]

/-- The clock is no later than the present instant or the clock before. -/
def Op.Bounds (op : Op B) (rs : List (Record B)) (record : Record B) : Prop :=
  ∀ present ∈ op.present, record.clock ≤ max present (latest rs)

instance (op : Op B) (rs : List (Record B)) (record : Record B) : Decidable (op.Bounds rs record) :=
  inferInstanceAs (Decidable (∀ present ∈ op.present, _))

namespace ConfirmedLog

variable {c : ConfirmedLog B K} {record : Record B}

/-- The writer is healthy and holds the records, and they are confirmed, or committed if none are. -/
structure Inv (s : Schema B K) (c : ConfirmedLog B K) (rs : List (Record B)) : Prop where
  holds : c.writer.Holds s rs
  writer : ∃ v, c.writer.writer = some v ∧ v.Healthy s rs ∧
    (c.confirmed = some rs ∨ c.confirmed = none ∧ v.committed_seq = rs.length)

def IsCommitted (c : ConfirmedLog B K) : Prop := ∀ v ∈ c.writer.writer, v.committed_seq = v.sequence

instance (c : ConfirmedLog B K) : Decidable c.IsCommitted := inferInstanceAs (Decidable (∀ v ∈ c.writer.writer, _))

def Projects (s : Schema B K) (rs : List (Record B)) (record : Record B) : Prop :=
  s.observes record.body = true ∧ s.headline (s.fold (rs ++ [record])) ≠ .raises

instance (s : Schema B K) (rs : List (Record B)) (record : Record B) : Decidable (Projects s rs record) :=
  inferInstanceAs (Decidable (_ ∧ _))

theorem Inv.records (h : c.Inv s rs) : c.writer.records = rs := by
  obtain ⟨v,hv,-⟩ := h.writer
  exact (h.holds.writer v hv).1.symm

theorem Inv.thePrefix (h : c.Inv s rs) : c.thePrefix s = some rs := by
  obtain ⟨v,hv,hh,hconfirmed | ⟨hnone,hall⟩⟩ := h.writer
  · unfold ConfirmedLog.thePrefix
    rw [hconfirmed]
  · unfold ConfirmedLog.thePrefix
    rw [hnone]
    exact Store.read_ok h.holds hv hh hall

theorem Inv.confirm (h : c.Inv s rs) : Inv s { c with confirmed := some rs } rs := by
  obtain ⟨v,hv,hh,-⟩ := h.writer
  exact ⟨h.holds,v,hv,hh,.inl rfl⟩

variable [DecidableEq K]

theorem Inv.refuse (h : c.Inv s rs) (hcommitted : c.IsCommitted) (hrefused : ¬s.Accepts record) (now : ℚ) :
    c.writer.appends s record now = (c.writer,true) ∧ Inv s ⟨c.writer,none⟩ rs := by
  obtain ⟨v,hv,hh,-⟩ := h.writer
  have hsequence : v.sequence = rs.length := (h.holds.writer v hv).2.sequence hh.failure
  exact ⟨Store.appends_refused hv hrefused now,h.holds,v,hv,hh,.inr ⟨rfl,(hcommitted v hv).trans hsequence⟩⟩

theorem Inv.take (h : c.Inv s rs) (haccepts : s.Accepts record) (hseq : record.seq = rs.length+1)
    (hprojects : Projects s rs record) (now : ℚ) :
    ∃ w, c.writer.appends s record now = (w,false) ∧ Inv s ⟨w,some (rs ++ [record])⟩ (rs ++ [record]) := by
  obtain ⟨v,hv,hh,-⟩ := h.writer
  obtain ⟨w,v',heq,hholds,hv',hh'⟩ := Store.appends_ok h.holds hv hh haccepts hseq hprojects.1 hprojects.2 now
  exact ⟨w,heq,hholds,v',hv',hh',.inl rfl⟩

theorem Inv.commit (h : c.Inv s rs) (now : ℚ) :
    ∃ w, c.writer.commit s now = (w,false) ∧ Inv s { c with writer := w } rs := by
  obtain ⟨v,hv,hh,hconfirmed⟩ := h.writer
  obtain ⟨w,v',heq,hholds,hv',hh',hall⟩ := Store.commit_ok h.holds hv hh now
  refine ⟨w,heq,hholds,v',hv',hh',?_⟩
  rcases hconfirmed with hconfirmed | ⟨hnone,-⟩
  · exact .inl hconfirmed
  · exact .inr ⟨hnone,hall⟩

/-- What the confirmed log and the list of records answer, and what they go on with. -/
def Agrees (s : Schema B K) (answer : Reply B × ConfirmedLog B K) (answer' : Reply B × List (Record B)) : Prop :=
  answer.1 = answer'.1 ∧ Inv s answer.2 answer'.2

/-- What is needed of the record that a call gives to the log. -/
def Fits (s : Schema B K) (c : ConfirmedLog B K) (rs : List (Record B)) (record : Record B) : Prop :=
  if s.Accepts record then Projects s rs record else c.IsCommitted

instance (s : Schema B K) (c : ConfirmedLog B K) (rs : List (Record B)) (record : Record B) : Decidable (Fits s c rs record) :=
  inferInstanceAs (Decidable (if s.Accepts record then Projects s rs record else c.IsCommitted))

theorem Inv.extend (h : c.Inv s rs) (hseq : record.seq = rs.length+1) (hclock : latest rs ≤ record.clock)
    (hfits : Fits s c rs record) (now : ℚ) :
    Agrees s (c.extend s record now) (if s.Accepts record then (.appended record,rs ++ [record]) else (.raised,rs)) := by
  unfold ConfirmedLog.extend
  rw [h.thePrefix]
  dsimp only
  rw [if_neg fun hno => hno.elim (fun hne => hne hseq) (not_lt.mpr hclock)]
  unfold Fits at hfits
  split at hfits
  · rename_i haccepts
    obtain ⟨w,happends,hinv⟩ := h.take haccepts hseq hfits now
    obtain ⟨w',hcommit,hinv'⟩ := hinv.commit now
    rw [happends,if_pos haccepts]
    have hcommit' : w.commit s now = (w',false) := hcommit
    dsimp only
    rw [hcommit']
    exact ⟨rfl,hinv'⟩
  · rename_i hrefused
    obtain ⟨happends,hinv⟩ := h.refuse hfits hrefused now
    rw [happends,if_neg hrefused]
    exact ⟨rfl,hinv⟩

theorem Inv.stage (h : c.Inv s rs) (present : Option ℚ)
    (hfits : Fits s c rs { record with seq := rs.length+1, clock := dated present record.clock rs }) (now : ℚ) :
    Agrees s (c.stage s present record now)
      (if s.Accepts { record with seq := rs.length+1, clock := dated present record.clock rs } then
        (.done,rs ++ [{ record with seq := rs.length+1, clock := dated present record.clock rs }]) else (.raised,rs)) := by
  unfold ConfirmedLog.stage
  rw [h.thePrefix]
  dsimp only
  unfold Fits at hfits
  split at hfits
  · rename_i haccepts
    obtain ⟨w,happends,hinv⟩ := h.take haccepts rfl hfits now
    rw [happends,if_pos haccepts]
    exact ⟨rfl,hinv⟩
  · rename_i hrefused
    obtain ⟨happends,hinv⟩ := h.refuse hfits hrefused now
    rw [happends,if_neg hrefused]
    exact ⟨rfl,hinv⟩

/-- The condition: a record that is given to the log can be projected, or everything is committed if it breaks validation
or the cap; and it is not dated after both the present instant and the record before. -/
def Meets (s : Schema B K) (c : ConfirmedLog B K) (op : Op B) : Prop :=
  ∀ record ∈ Accepted.given c.writer.records op, Fits s c c.writer.records record ∧ op.Bounds c.writer.records record

instance (s : Schema B K) (c : ConfirmedLog B K) (op : Op B) : Decidable (c.Meets s op) :=
  inferInstanceAs (Decidable (∀ record ∈ Accepted.given c.writer.records op, _))

theorem Inv.answer (h : c.Inv s rs) (op : Op B) (hmeets : c.Meets s op) : Agrees s (c.answer s op) (Accepted.answer s rs op) := by
  obtain ⟨call,present,now⟩ := op
  unfold Meets at hmeets
  rw [h.records] at hmeets
  cases call with
  | stage record => exact h.stage present (hmeets _ rfl).1 now
  | append body clock =>
    have hnext : c.next_record s present body clock = (.built (stamped present body clock rs),{ c with confirmed := some rs }) := by
      unfold ConfirmedLog.next_record
      rw [h.thePrefix]
    show Agrees s (c.append s present body clock now) _
    unfold ConfirmedLog.append
    rw [hnext]
    exact h.confirm.extend rfl (le_max_right _ _) (hmeets _ rfl).1 now
  | extend record =>
    show Agrees s (c.extend s record now) _
    by_cases hrefused : record.seq ≠ rs.length+1 ∨ record.clock < latest rs
    · have hanswer : Accepted.answer s rs ⟨.extend record,present,now⟩ = (.raised,rs) := by
        simp only [Accepted.answer,Accepted.given]
        rw [if_pos hrefused]
      unfold ConfirmedLog.extend
      rw [h.thePrefix,hanswer]
      dsimp only
      rw [if_pos hrefused]
      exact ⟨rfl,h.confirm⟩
    · have hgiven : Accepted.given rs ⟨.extend record,present,now⟩ = some record := if_neg hrefused
      obtain ⟨hseq,hclock⟩ := not_or.mp hrefused
      have hextend := h.extend (not_not.mp hseq) (not_lt.mp hclock) (hmeets record hgiven).1 now
      simp only [Accepted.answer,hgiven]
      exact hextend
  | next_record body clock =>
    show Agrees s (c.next_record s present body clock) (.built (stamped present body clock rs),rs)
    unfold ConfirmedLog.next_record
    rw [h.thePrefix]
    exact ⟨rfl,h.confirm⟩
  | commit =>
    obtain ⟨w,hcommit,hinv⟩ := h.commit now
    show Agrees s (c.commit s now) (.done,rs)
    unfold ConfirmedLog.commit
    rw [hcommit]
    exact ⟨rfl,hinv⟩
  | records =>
    show Agrees s (c.records s) (.records rs,rs)
    unfold ConfirmedLog.records
    rw [h.thePrefix]
    exact ⟨rfl,h.confirm⟩
  | commits =>
    obtain ⟨v,hv,hh,hconfirmed⟩ := h.writer
    obtain ⟨hholds,v',hv',hgoes⟩ := Store.commits_goes h.holds hv hh now
    refine ⟨rfl,hholds,v',hv',hgoes.healthy,?_⟩
    rcases hconfirmed with hconfirmed | ⟨hnone,hall⟩
    · exact .inl hconfirmed
    · have hinv := (hholds.writer v' hv').2
      exact .inr ⟨hnone,le_antisymm (hinv.committed.trans hinv.durable.held) (hall ▸ hgoes.committed)⟩

end ConfirmedLog

/-! ## Runs -/

/-- A record that is given to the log follows the one before, in number and in date. -/
def Accepted.Follows (rs : List (Record B)) (op : Op B) : Prop :=
  ∀ record ∈ Accepted.given rs op, record.seq = rs.length+1 ∧ latest rs ≤ record.clock ∧ op.Bounds rs record

theorem Accepted.given_follows {op : Op B} {record : Record B} (h : Accepted.given rs op = some record) :
    record.seq = rs.length+1 ∧ latest rs ≤ record.clock := by
  obtain ⟨call,present,now⟩ := op
  cases call with
  | extend given =>
    simp only [Accepted.given] at h
    split at h
    · cases h
    · rename_i hfits
      obtain rfl := Option.some.inj h
      obtain ⟨hseq,hclock⟩ := not_or.mp hfits
      exact ⟨not_not.mp hseq,not_lt.mp hclock⟩
  | stage given =>
    obtain rfl := Option.some.inj h
    exact ⟨rfl,le_max_right _ _⟩
  | append body clock =>
    obtain rfl := Option.some.inj h
    exact ⟨rfl,le_max_right _ _⟩
  | next_record _ _ | commit | records | commits => cases h

theorem Accepted.step_cases (s : Schema B K) (rs : List (Record B)) (op : Op B) :
    Accepted.step s rs op = rs ∨ ∃ record ∈ Accepted.given rs op, Accepted.step s rs op = rs ++ [record] := by
  obtain ⟨call,present,now⟩ := op
  cases call with
  | stage given =>
    unfold Accepted.step Accepted.answer
    dsimp only [Accepted.given]
    split
    · exact .inr ⟨_,rfl,rfl⟩
    · exact .inl rfl
  | append body clock =>
    unfold Accepted.step Accepted.answer
    dsimp only [Accepted.given]
    split
    · exact .inr ⟨_,rfl,rfl⟩
    · exact .inl rfl
  | extend given =>
    by_cases hfits : given.seq ≠ rs.length+1 ∨ given.clock < latest rs
    · left
      simp only [Accepted.step,Accepted.answer,Accepted.given]
      rw [if_pos hfits]
    · have hgiven : Accepted.given rs ⟨.extend given,present,now⟩ = some given := if_neg hfits
      simp only [Accepted.step,Accepted.answer,hgiven]
      split
      · exact .inr ⟨given,rfl,rfl⟩
      · exact .inl rfl
  | next_record _ _ | commit | records | commits => exact .inl rfl

theorem Accepted.dated_run (s : Schema B K) {ops : List (Op B)} (h : Dated rs) : Dated (run (Accepted.step s) rs ops) :=
  run_invariant (fun _ op hdated => by
    rcases Accepted.step_cases s _ op with heq | ⟨record,hrecord,heq⟩
    · rw [heq]
      exact hdated
    · rw [heq]
      exact hdated.concat (Accepted.given_follows hrecord).2) h ops

variable [DecidableEq K]

theorem ConfirmedLog.inv_opened {w : Store B K} (h : w.Holds s rs) (hclosed : w.writer = none) :
    ConfirmedLog.Inv s ⟨w.opens s none,none⟩ rs := by
  obtain ⟨hopens,hopened⟩ := h.opens hclosed none
  obtain ⟨⟨log_offset,hv⟩,-⟩ := hopened rfl
  refine ⟨hopens,_,hv,⟨rfl,rfl,rfl,fun _ => rfl,fun hno => absurd rfl hno,fun r hr _ => ?_⟩,.inr ⟨rfl,rfl⟩⟩
  obtain ⟨i,hi⟩ := List.mem_iff_getElem?.mp (List.mem_of_mem_take hr)
  have hlt : i < rs.length := (List.getElem?_eq_some_iff.mp hi).1
  have hseq : r.seq = i+1 := h.keeps.sound.dense.seq hi
  show r.seq ≤ rs.length
  omega

/-- Over a log that was left behind by any calls and crashes and is opened: if each call meets the condition, the confirmed
log answers every call as the list of accepted records would, the file holds exactly these records, they are dense and
dated in order, and each of them follows the one before. -/
theorem one_dense_dated_log (s : Schema B K) (acts : List (Act B)) (hacts : Along (Store.step s) (Store.Meets s) {} acts)
    (hclosed : (run (Store.step s) {} acts).writer = none)
    (hdated : Dated ((run (Store.step s) {} acts).opens s none).records) (ops : List (Op B))
    (hops : Along (ConfirmedLog.step s) (ConfirmedLog.Meets s) ⟨(run (Store.step s) {} acts).opens s none,none⟩ ops) :
    answers (ConfirmedLog.answer s) ⟨(run (Store.step s) {} acts).opens s none,none⟩ ops =
        answers (Accepted.answer s) ((run (Store.step s) {} acts).opens s none).records ops ∧
      (run (ConfirmedLog.step s) ⟨(run (Store.step s) {} acts).opens s none,none⟩ ops).writer.disk.log =
        some (logOf s (run (Accepted.step s) ((run (Store.step s) {} acts).opens s none).records ops)) ∧
      Dense (run (Accepted.step s) ((run (Store.step s) {} acts).opens s none).records ops) ∧
      Dated (run (Accepted.step s) ((run (Store.step s) {} acts).opens s none).records ops) ∧
      Along (Accepted.step s) Accepted.Follows ((run (Store.step s) {} acts).opens s none).records ops := by
  obtain ⟨rs,hrs⟩ := Store.holds_run hacts
  generalize run (Store.step s) {} acts = w at hrs hclosed hdated hops
  have hinv := ConfirmedLog.inv_opened hrs hclosed
  have hrecords : (w.opens s none).records = rs := hinv.records
  rw [hrecords] at hdated ⊢
  obtain ⟨hreplies,hend,hfollows⟩ := @Along.simulates _ _ _ _ (ConfirmedLog.answer s) (Accepted.answer s)
    (ConfirmedLog.Inv s) _ Accepted.Follows (fun c rs op hc hmeets => by
      obtain ⟨hreply,hnext⟩ := hc.answer op hmeets
      refine ⟨hreply,hnext,fun record hrecord => ?_⟩
      unfold ConfirmedLog.Meets at hmeets
      rw [hc.records] at hmeets
      obtain ⟨hseq,hclock⟩ := Accepted.given_follows hrecord
      exact ⟨hseq,hclock,(hmeets record hrecord).2⟩) _ _ _ hinv hops
  obtain ⟨v,hv,hh,-⟩ := hend.writer
  exact ⟨hreplies,hend.holds.log hv hh.failure,hend.holds.keeps.sound.dense,Accepted.dated_run s hdated,hfollows⟩

namespace Sample

/-- Two records are staged and committed, one that breaks validation is refused, and core appends after it. -/
def refusingOps : List (Op Body) :=
  [⟨.stage ⟨0,1,.plain⟩,some 3,0⟩,⟨.records,none,0⟩,⟨.commits,none,1⟩,⟨.stage ⟨0,7,.plain⟩,some 3,1⟩,⟨.commit,none,1⟩,
    ⟨.stage ⟨0,999,.plain⟩,none,1⟩,⟨.append .boundary 2,some 4,1⟩,⟨.extend ⟨9,4,.plain⟩,some 4,1⟩,⟨.records,none,2⟩]

theorem one_dense_dated_log_refusing :
    answers (ConfirmedLog.answer schema) ⟨({} : Store Body ℕ).opens schema none,none⟩ refusingOps =
      answers (Accepted.answer schema) [] refusingOps :=
  (one_dense_dated_log schema [] trivial rfl (by decide +kernel) refusingOps (by decide +kernel)).1

/-- After a record that is refused, staged records are gone from the confirmed ones and no record is taken; and a record
that is dated after the present instant is. -/
theorem refusal_hides_staged_records :
    answers (ConfirmedLog.answer schema) ⟨({} : Store Body ℕ).opens schema none,none⟩
        [⟨.stage ⟨0,1,.plain⟩,none,0⟩,⟨.stage ⟨0,999,.plain⟩,none,0⟩,⟨.records,none,0⟩,⟨.stage ⟨0,2,.plain⟩,none,0⟩] =
        [.done,.raised,.records [],.raised] ∧
      answers (ConfirmedLog.answer schema) ⟨({} : Store Body ℕ).opens schema none,none⟩
        [⟨.extend ⟨1,9,.plain⟩,some 3,0⟩] = [.appended ⟨1,9,.plain⟩] := by
  decide +kernel

end Sample
end Vibesys.Runlog
