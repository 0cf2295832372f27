import Vibesys.Runlog.Confirmed

/-!
# The committer gets there

While nothing fails and every record can be projected, a call that waits for the current prefix returns after the
steps that are left: the batch the committer is at, and one more with what is pending.
-/
namespace Vibesys.Runlog

open Library

variable {B K : Type} {s : Schema B K} {rs : List (Record B)}

/-- The committer runs, nothing failed, and what is pending is due. -/
structure FileRunLogWriter.Healthy (s : Schema B K) (rs : List (Record B)) (v : FileRunLogWriter B K) : Prop where
  failure : v.failure = false
  done : v.done = false
  closing : v.intent.closing = false
  idle : v.work = none → v.committed_seq = v.skeleton.through_seq
  queued : v.pending ≠ [] → v.intent.due ≠ none
  boundaries : ∀ r ∈ rs.take v.skeleton.through_seq, s.isBoundary r.body = true → r.seq ≤ v.checkpoint_seq

/-- What a step of the committer makes of a writer that is healthy. -/
structure FileRunLogWriter.Goes (s : Schema B K) (rs : List (Record B)) (v v' : FileRunLogWriter B K) : Prop where
  healthy : v'.Healthy s rs
  urgent : v'.intent.urgent_seq = v.intent.urgent_seq
  committed : v.committed_seq ≤ v'.committed_seq
  remaining : v.committed_seq < rs.length → v.committed_seq < v.intent.urgent_seq → v'.remaining < v.remaining

open FileRunLogWriter

section Phases

variable {w : Store B K} {v : FileRunLogWriter B K} {job : Work B}

theorem Store.work_eq {phase : Phase} (hv : w.writer = some v) (hjob : v.work = some job) (hphase : job.phase = phase)
    (f : FileRunLogWriter B K → Work B → Store B K) : w.work phase f = f v job := by
  unfold Store.work
  rw [hv]
  dsimp only
  rw [hjob]
  dsimp only
  rw [if_pos hphase]

lemma remaining_lt {job' : Work B} (hjob : v.work = some job) (hleft : job'.left < job.left) {v' : FileRunLogWriter B K}
    (hwork : v'.work = some job') (hpending : v'.pending = v.pending) : v'.remaining < v.remaining := by
  unfold FileRunLogWriter.remaining
  rw [hwork,hjob,hpending]
  exact Nat.add_lt_add_right hleft _

theorem Store.take_batch_goes (h : w.Holds s rs) (hv : w.writer = some v) (hh : v.Healthy s rs) (hwork : v.work = none) (now : ℚ) :
    ∃ v', (w.take_batch now).writer = some v' ∧ v.Goes s rs v' := by
  have hinv := (h.writer v hv).2
  have hahead : v.pending.length+v.committed_seq = rs.length := by
    have hlength := (hinv.follows hh.failure).2
    unfold FileRunLogWriter.ahead at hlength
    rw [hwork] at hlength
    rw [hh.idle hwork]
    simp only [Option.elim_none,List.nil_append] at hlength
    omega
  have hpending : v.committed_seq < rs.length → v.pending ≠ [] := by
    intro hlt hnil
    rw [hnil] at hahead
    simp only [List.length_nil] at hahead
    omega
  unfold Store.take_batch
  rw [hv]
  dsimp only
  rw [hwork,hh.done,hh.failure]
  simp only [Option.isSome_none,Bool.or_self,Bool.false_eq_true,if_false]
  split
  · rename_i hnext
    simp only [CommitIntent.next,hh.closing,Bool.false_eq_true,if_false] at hnext
    split at hnext <;> split at hnext <;> cases hnext
  · rename_i delay hnext
    refine ⟨v,hv,hh,rfl,le_rfl,fun hlt hurgent => ?_⟩
    -- something is pending, so it is due, and it is urgent
    exfalso
    cases hdue : v.intent.due with
    | none => exact hh.queued (hpending hlt) hdue
    | some due =>
      simp only [CommitIntent.next,hdue,Bool.false_eq_true,if_false] at hnext
      rw [if_neg fun hno => absurd hno.2.2 (not_le.mpr hurgent)] at hnext
      cases hnext
  · rename_i checkpoint hnext
    refine ⟨_,rfl,⟨rfl,rfl,hh.closing,fun hno => (by cases hno),fun hno => absurd rfl hno,hh.boundaries⟩,rfl,le_rfl,
      fun hlt _ => ?_⟩
    have hne : v.pending.isEmpty = false := by
      rw [List.isEmpty_eq_false_iff]
      exact hpending hlt
    simp only [FileRunLogWriter.remaining,hwork,hne,Option.elim_some,Option.elim_none,Work.left,List.isEmpty_nil,if_true,
      Bool.false_eq_true,if_false]
    omega

theorem Store.sync_goes (hv : w.writer = some v) (hh : v.Healthy s rs) (hjob : v.work = some job) (hphase : job.phase = .sync) :
    ∃ v', (w.sync true).writer = some v' ∧ v.Goes s rs v' := by
  unfold Store.sync
  rw [Store.work_eq hv hjob hphase]
  refine ⟨_,rfl,⟨hh.failure,hh.done,hh.closing,fun hno => (by cases hno),hh.queued,hh.boundaries⟩,rfl,le_rfl,fun _ _ => ?_⟩
  refine remaining_lt hjob ?_ rfl rfl
  unfold Work.left
  rw [hphase]
  exact Nat.lt_succ_self _

theorem Store.head_goes (h : w.Holds s rs) (hv : w.writer = some v) (hh : v.Healthy s rs) (hjob : v.work = some job)
    (hphase : job.phase = .head) : ∃ v', (w.head s .ok).writer = some v' ∧ v.Goes s rs v' := by
  have hinv := (h.writer v hv).2
  have htodo : job.todo = [] := hinv.emptied job hjob (.inr hphase)
  unfold Store.head
  rw [Store.work_eq hv hjob hphase]
  obtain ⟨d,hpublish⟩ : ∃ d, (if job.batch then
      w.disk.publish_head v.skeleton.through_seq (s.headline v.skeleton.facts) .ok else (w.disk,false)) = (d,false) := by
    split
    · rename_i hbatch
      have hpos := hinv.batched job hjob hbatch
      rw [htodo] at hpos
      have hheadline : s.headline v.skeleton.facts ≠ .raises := by
        rw [hinv.facts]
        exact h.keeps.sound.headlines _ hinv.durable.held hpos
      exact ⟨_,Prod.ext rfl ((h.keeps.publish_head hinv.durable hheadline .ok).2.2.2 rfl)⟩
    · exact ⟨_,rfl⟩
  rw [hpublish]
  refine ⟨_,rfl,⟨hh.failure,hh.done,hh.closing,fun _ => rfl,hh.queued,hh.boundaries⟩,rfl,hinv.committed,fun _ _ => ?_⟩
  show Option.elim none 0 Work.left+_ < v.remaining
  unfold FileRunLogWriter.remaining
  rw [hjob]
  refine Nat.add_lt_add_right ?_ _
  show 0 < job.left
  unfold Work.left
  rw [hphase]
  exact Nat.one_pos

variable [DecidableEq K]

theorem Store.fold_goes (h : w.Holds s rs) (hv : w.writer = some v) (hh : v.Healthy s rs) (hjob : v.work = some job)
    (hphase : job.phase = .fold) : ∃ v', (w.fold s .ok).writer = some v' ∧ v.Goes s rs v' := by
  have hinv := (h.writer v hv).2
  unfold Store.fold
  rw [Store.work_eq hv hjob hphase]
  cases htodo : job.todo with
  | nil =>
    refine ⟨_,rfl,⟨hh.failure,hh.done,hh.closing,fun hno => (by cases hno),hh.queued,hh.boundaries⟩,rfl,le_rfl,fun _ _ => ?_⟩
    refine remaining_lt hjob ?_ rfl rfl
    unfold Work.left
    rw [hphase,htodo]
    exact Nat.lt_succ_self _
  | cons p todo =>
    obtain ⟨record,offset⟩ := p
    obtain ⟨hseq,hdurable,hfolded⟩ := hinv.fold hjob hphase htodo h.keeps.sound.dense
    have haligned := hinv.todo job hjob
    rw [htodo] at haligned
    have hget : rs[v.skeleton.through_seq]? = some record := haligned.1
    have hobserves : s.observes record.body = true := h.keeps.sound.observes record (List.mem_of_getElem? hget)
    have htake : rs.take record.seq = rs.take v.skeleton.through_seq ++ [record] := by
      rw [hseq,take_succ_of_getElem? hget]
    have hleft : ∀ {v' : FileRunLogWriter B K}, v'.work = some { job with todo := todo } → v'.pending = v.pending →
        v'.remaining < v.remaining := by
      intro v' hwork hpending
      refine remaining_lt hjob ?_ hwork hpending
      unfold Work.left
      dsimp only
      rw [hphase,htodo,List.length_cons]
      exact Nat.lt_succ_self _
    dsimp only
    rw [if_neg (by simp [hseq,hobserves])]
    split
    · -- a boundary: the keyframe is published
      have hskeleton := hfolded.skeleton (show 0 < record.seq by omega)
      have hframe : (⟨record.seq,offset,s.append_skeleton v.skeleton.facts record⟩ : Keyframe K) = keyframeAt s rs record.seq :=
        hskeleton
      have hraised : (w.disk.write_keyframe ⟨record.seq,offset,s.append_skeleton v.skeleton.facts record⟩ .ok).2 = false := by
        rw [hframe]
        exact h.keeps.publishes_again record.seq
      rw [hraised]
      refine ⟨_,rfl,⟨hh.failure,hh.done,hh.closing,fun hno => (by cases hno),hh.queued,fun r hr hb => ?_⟩,rfl,le_rfl,
        fun _ _ => hleft rfl rfl⟩
      have hr' : r ∈ rs.take record.seq := hr
      rw [htake,List.mem_append,List.mem_singleton] at hr'
      show r.seq ≤ record.seq
      rcases hr' with hr' | rfl
      · have := (hh.boundaries r hr' hb).trans hinv.checkpointed
        omega
      · exact le_rfl
    · rename_i hplain
      refine ⟨_,rfl,⟨hh.failure,hh.done,hh.closing,fun hno => (by cases hno),hh.queued,fun r hr hb => ?_⟩,rfl,le_rfl,
        fun _ _ => hleft rfl rfl⟩
      have hr' : r ∈ rs.take record.seq := hr
      rw [htake,List.mem_append,List.mem_singleton] at hr'
      rcases hr' with hr' | rfl
      · exact hh.boundaries r hr' hb
      · exact absurd hb hplain

theorem Store.keyframe_goes (h : w.Holds s rs) (hv : w.writer = some v) (hh : v.Healthy s rs) (hjob : v.work = some job)
    (hphase : job.phase = .keyframe) : ∃ v', (w.keyframe .ok).writer = some v' ∧ v.Goes s rs v' := by
  have hinv := (h.writer v hv).2
  have hleft : ∀ {v' : FileRunLogWriter B K}, v'.work = some { job with phase := .head } → v'.pending = v.pending →
      v'.remaining < v.remaining := by
    intro v' hwork hpending
    refine remaining_lt hjob ?_ hwork hpending
    unfold Work.left
    dsimp only
    rw [hphase]
    exact Nat.lt_succ_self _
  unfold Store.keyframe
  rw [Store.work_eq hv hjob hphase]
  dsimp only
  split
  · rename_i hdue
    have hpos : 0 < v.skeleton.through_seq := by
      simp only [Bool.or_eq_true,Bool.and_eq_true,decide_eq_true_eq] at hdue
      rcases hdue with ⟨-,hdue⟩ | hdue
      · exact (Nat.zero_le _).trans_lt hdue
      · have hmany : 256 ≤ v.skeleton.through_seq-v.checkpoint_seq := hdue
        omega
    have hraised : (w.disk.write_keyframe v.skeleton .ok).2 = false := by
      rw [hinv.skeleton hpos]
      exact h.keeps.publishes_again _
    rw [hraised]
    refine ⟨_,rfl,⟨hh.failure,hh.done,hh.closing,fun hno => (by cases hno),hh.queued,fun r hr hb => ?_⟩,rfl,le_rfl,
      fun _ _ => hleft rfl rfl⟩
    exact (hh.boundaries r hr hb).trans hinv.checkpointed
  · exact ⟨_,rfl,⟨hh.failure,hh.done,hh.closing,fun hno => (by cases hno),hh.queued,hh.boundaries⟩,rfl,le_rfl,
      fun _ _ => hleft rfl rfl⟩

theorem Store.commits_goes (h : w.Holds s rs) (hv : w.writer = some v) (hh : v.Healthy s rs) (now : ℚ) :
    (w.commits s now).Holds s rs ∧ ∃ v', (w.commits s now).writer = some v' ∧ v.Goes s rs v' := by
  unfold Store.commits
  rw [hv]
  dsimp only
  cases hjob : v.work with
  | none => exact ⟨h.take_batch now,Store.take_batch_goes h hv hh hjob now⟩
  | some job =>
    dsimp only
    cases hphase : job.phase with
    | sync => exact ⟨h.sync true,Store.sync_goes hv hh hjob hphase⟩
    | fold => exact ⟨h.fold .ok,Store.fold_goes h hv hh hjob hphase⟩
    | keyframe => exact ⟨h.keyframe .ok,Store.keyframe_goes h hv hh hjob hphase⟩
    | head => exact ⟨h.head .ok,Store.head_goes h hv hh hjob hphase⟩

end Phases

/-! ## Waiting -/

section Waiting

variable {w : Store B K} {v : FileRunLogWriter B K}

/-- The wait of a call for the whole log: after a boundary it is for a keyframe too. -/
def IsWait (s : Schema B K) (rs : List (Record B)) (wait : ℕ × Bool) : Prop :=
  wait.1 = rs.length ∧ (wait.2 = true → ∃ r ∈ rs, r.seq = rs.length ∧ s.isBoundary r.body = true)

theorem isCommitted_of_committed {d : Disk K} (hinv : v.Inv s d rs) (hh : v.Healthy s rs) {wait : ℕ × Bool}
    (hwait : IsWait s rs wait) (hcommitted : rs.length ≤ v.committed_seq) : v.isCommitted wait = true := by
  have hthrough : rs.length ≤ v.skeleton.through_seq := hcommitted.trans hinv.committed
  unfold FileRunLogWriter.isCommitted
  rw [Bool.and_eq_true,decide_eq_true_eq,Bool.or_eq_true,decide_eq_true_eq,hwait.1]
  refine ⟨hcommitted,?_⟩
  cases hcheckpoint : wait.2 with
  | false => exact .inl rfl
  | true =>
    obtain ⟨r,hr,hseq,hb⟩ := hwait.2 hcheckpoint
    refine .inr ?_
    rw [← hseq]
    refine hh.boundaries r ?_ hb
    rw [List.take_of_length_le hthrough]
    exact hr

/-- With no steps left everything is committed. -/
theorem committed_of_remaining {d : Disk K} (hinv : v.Inv s d rs) (hh : v.Healthy s rs) (hzero : v.remaining = 0) :
    v.committed_seq = rs.length := by
  unfold FileRunLogWriter.remaining at hzero
  obtain ⟨hleft,hpending⟩ := Nat.add_eq_zero_iff.mp hzero
  have hwork : v.work = none := by
    cases hjob : v.work with
    | none => rfl
    | some job =>
      rw [hjob] at hleft
      have hpos : 0 < job.left := by
        unfold Work.left
        split <;> omega
      exact absurd hleft (Nat.ne_of_gt hpos)
  have hnil : v.pending = [] := by
    by_contra hne
    rw [if_neg fun hempty => hne (List.isEmpty_iff.mp hempty)] at hpending
    omega
  have hlength := (hinv.follows hh.failure).2
  unfold FileRunLogWriter.ahead at hlength
  rw [hwork,hnil] at hlength
  rw [hh.idle hwork]
  exact hlength

variable [DecidableEq K]

theorem Store.wait_committed_ok {wait : ℕ × Bool} (hwait : IsWait s rs wait) (now : ℚ) (fuel : ℕ) (h : w.Holds s rs)
    (hv : w.writer = some v) (hh : v.Healthy s rs) (hurgent : rs.length ≤ v.intent.urgent_seq) (hfuel : v.remaining ≤ fuel) :
    (Store.wait_committed s wait now fuel w).Holds s rs ∧
      ∃ v', (Store.wait_committed s wait now fuel w).writer = some v' ∧ v'.Healthy s rs ∧ v'.isCommitted wait = true := by
  induction fuel generalizing w v with
  | zero =>
    refine ⟨h,v,hv,hh,?_⟩
    have hinv := (h.writer v hv).2
    exact isCommitted_of_committed hinv hh hwait (committed_of_remaining hinv hh (Nat.le_zero.mp hfuel)).ge
  | succ fuel ih =>
    unfold Store.wait_committed
    rw [hv]
    dsimp only
    rw [hh.failure,Bool.false_or]
    split
    · rename_i hyes
      exact ⟨h,v,hv,hh,hyes⟩
    · rename_i hnot
      have hlt : v.committed_seq < rs.length :=
        not_le.mp fun hle => hnot (isCommitted_of_committed (h.writer v hv).2 hh hwait hle)
      obtain ⟨hholds,v',hv',hgoes⟩ := Store.commits_goes h hv hh now
      have hless := hgoes.remaining hlt (hlt.trans_le hurgent)
      exact ih hholds hv' hgoes.healthy (by rw [hgoes.urgent]; exact hurgent) (by omega)

/-- A call that waits for the whole log returns, and then the whole log is committed. -/
theorem Store.waits_ok {wait : ℕ × Bool} (hwait : IsWait s rs wait) (now : ℚ) (h : w.Holds s rs) (hv : w.writer = some v)
    (hh : v.Healthy s rs) (hurgent : rs.length ≤ v.intent.urgent_seq) :
    ∃ w' v', w.waits s wait now = (w',false) ∧ w'.Holds s rs ∧ w'.writer = some v' ∧ v'.Healthy s rs ∧
      v'.committed_seq = rs.length := by
  have hfuel : v.remaining ≤ w.writer.elim 0 FileRunLogWriter.remaining := by
    rw [hv]
    exact le_rfl
  obtain ⟨hholds,v',hv',hh',hyes⟩ := Store.wait_committed_ok hwait now _ h hv hh hurgent hfuel
  unfold Store.waits
  generalize Store.wait_committed s wait now _ w = w' at hholds hv'
  have hcommitted : v'.committed_seq = rs.length := by
    have hinv := (hholds.writer v' hv').2
    simp only [FileRunLogWriter.isCommitted,Bool.and_eq_true,decide_eq_true_eq] at hyes
    exact le_antisymm (hinv.committed.trans hinv.durable.held) (hwait.1 ▸ hyes.1)
  dsimp only
  rw [hv']
  dsimp only
  rw [hh'.failure,hyes]
  have hreturns : ∃ v'', (w'.returns 0).writer = some v'' ∧ v''.Healthy s rs ∧ v''.committed_seq = rs.length := by
    unfold Store.returns
    rw [hv']
    dsimp only
    split
    · split
      · exact ⟨_,rfl,⟨hh'.failure,hh'.done,hh'.closing,hh'.idle,hh'.queued,hh'.boundaries⟩,hcommitted⟩
      · exact ⟨v',hv',hh',hcommitted⟩
    · exact ⟨v',hv',hh',hcommitted⟩
  obtain ⟨v'',hv'',hh'',hcommitted''⟩ := hreturns
  exact ⟨_,v'',rfl,hholds.returns 0,hv'',hh'',hcommitted''⟩

end Waiting

end Vibesys.Runlog
