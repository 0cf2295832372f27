import Vibesys.Runlog.Opening

/-!
# Calls and the committer

Each call, each step of the committer and each end of the process keeps the files sound for some of the records, and
for all of them while the writer is open.
-/
namespace Vibesys.Runlog

open Library

variable {B K : Type} {s : Schema B K} {rs : List (Record B)}

/-! ## Calls -/

section Calls

variable {w : Store B K} {v : FileRunLogWriter B K}

theorem Store.Holds.log (h : w.Holds s rs) (hv : w.writer = some v) (hfailure : v.failure = false) :
    w.disk.log = some (logOf s rs) := by
  obtain ⟨t,-,hlog,hnil⟩ := (h.writer v hv).2.log
  rw [hlog,hnil hfailure,List.append_nil]

theorem Store.Holds.update (h : w.Holds s rs) (hv : w.writer = some v) {d : Disk K} {v' : FileRunLogWriter B K}
    (hd : d.Keeps s rs) (hsynced : w.disk.synced ≤ d.synced) (hv' : v'.Inv s d rs) :
    Store.Holds s { w with disk := d, writer := some v' } rs := by
  refine ⟨h.held,hd,h.returned.mono hsynced,fun v'' hv'' => ?_⟩
  obtain rfl := Option.some.inj hv''
  exact ⟨(h.writer v hv).1,hv'⟩

/-- The append is not refused. -/
def Store.takes (s : Schema B K) (w : Store B K) (record : Record B) : Bool :=
  match w.writer with
  | some v => (encode_frame s record).isSome && !(v.failure || v.intent.closing) && decide (record.seq = v.sequence+1)
  | none => false

theorem Store.Holds.append [DecidableEq K] (h : w.Holds s rs) {record : Record B}
    (hproject : w.takes s record = true →
      s.observes record.body = true ∧ s.headline (s.fold (w.records ++ [record])) ≠ .raises) (now : ℚ)
    (failed : Option ℕ) : ∃ rs', (w.append s record now failed).Holds s rs' := by
  cases hv : w.writer with
  | none =>
    simp only [Store.append,hv]
    exact ⟨rs,h⟩
  | some v =>
    by_cases haccepts : s.Accepts record
    · have hencode : encode_frame s record = some (frameOf s record) := if_pos haccepts
      simp only [Store.append,hv,hencode]
      by_cases hopen : (v.failure || v.intent.closing) = true
      · rw [if_pos hopen]
        exact ⟨rs,h⟩
      by_cases hseq : record.seq ≠ v.sequence+1
      · rw [if_neg hopen,if_pos hseq]
        exact ⟨rs,h⟩
      rw [if_neg hopen,if_neg hseq]
      have htakes : w.takes s record = true := by
        simp only [Store.takes,hv,hencode,Bool.eq_false_iff.mpr hopen,not_not.mp hseq]
        rfl
      obtain ⟨hobserves,hheadline⟩ := hproject htakes
      have hfailure : v.failure = false := (Bool.or_eq_false_iff.mp (Bool.eq_false_iff.mpr hopen)).1
      obtain ⟨rfl,hinv⟩ := h.writer v hv
      have hlog := h.log hv hfailure
      have hnext : record.seq = w.records.length+1 := by
        rw [← hinv.sequence hfailure]
        exact not_not.mp hseq
      have hsound : Sound s (w.records ++ [record]) := h.keeps.sound.concat haccepts hnext hobserves hheadline
      have hkeeps := h.keeps.concat hlog hsound
      have hwritten := hinv.write hfailure hnext
      have hreturned : Durable s w.disk.synced (w.records ++ [record]) w.returned := h.returned.append _
      rw [hlog,Option.getD_some]
      cases failed with
      | none =>
        dsimp only
        refine ⟨w.records ++ [record],List.prefix_rfl,hkeeps,hreturned,fun v' hv' => ?_⟩
        obtain rfl := Option.some.inj hv'
        refine ⟨rfl,?_⟩
        split
        · exact hwritten.request ((v.intent.queued now).requested record.seq true false) (v.waiting ++ [(record.seq,true)])
        · exact hwritten.request (v.intent.queued now) v.waiting
      | some written =>
        by_cases hwhole : (frameOf s record).length ≤ written
        · simp only [if_pos hwhole,List.take_of_length_le hwhole]
          refine ⟨w.records ++ [record],List.prefix_rfl,hkeeps,hreturned,fun v' hv' => ?_⟩
          obtain rfl := Option.some.inj hv'
          exact ⟨rfl,hwritten.abort v.pending v.sequence⟩
        · have htorn : (framing s).Torn ((frameOf s record).take written) :=
            Framing.torn_take (F := framing s) haccepts (not_le.mp hwhole)
          simp only [if_neg hwhole]
          refine ⟨w.records,List.prefix_rfl,h.keeps.tear hlog htorn,h.returned,fun v' hv' => ?_⟩
          obtain rfl := Option.some.inj hv'
          exact ⟨rfl,hinv.tear htorn⟩
    · have hencode : encode_frame s record = none := if_neg haccepts
      simp only [Store.append,hv,hencode]
      exact ⟨rs,h⟩

theorem Store.Holds.request (h : w.Holds s rs) (checkpoint : Bool) : (w.request checkpoint).Holds s rs := by
  cases hv : w.writer with
  | none =>
    simp only [Store.request,hv]
    exact h
  | some v =>
    simp only [Store.request,hv]
    split
    · exact h
    · exact h.update hv h.keeps le_rfl ((h.writer v hv).2.request _ _)

theorem Store.Holds.close (h : w.Holds s rs) : w.close.Holds s rs := by
  cases hv : w.writer with
  | none =>
    have hsame : w.close = w := by
      unfold Store.close
      rw [hv]
      cases w
      simp only at hv
      simp [hv]
    rw [hsame]
    exact h
  | some v =>
    have hclose : w.close = { w with writer := some (v.request_commit v.sequence true true) } := by
      unfold Store.close
      rw [hv]
      rfl
    rw [hclose]
    exact h.update hv h.keeps le_rfl ((h.writer v hv).2.request _ _)

theorem Store.Holds.returns (h : w.Holds s rs) (i : ℕ) : (w.returns i).Holds s rs := by
  unfold Store.returns
  split
  · rename_i v hv
    split
    · rename_i wait hwait
      split
      · rename_i hcommitted
        have hinv := (h.writer v hv).2
        have hle : wait.1 ≤ v.committed_seq := by
          simp only [FileRunLogWriter.isCommitted,Bool.and_eq_true,decide_eq_true_eq] at hcommitted
          exact hcommitted.2.1
        have hdurable := hinv.durable.le (hle.trans hinv.committed)
        have hupdate := h.update hv h.keeps le_rfl (hinv.request v.intent (v.waiting.eraseIdx i))
        exact ⟨hupdate.held,hupdate.keeps,h.returned.max hdurable,hupdate.writer⟩
      · exact h
    · exact h
  · exact h

end Calls

/-! ## The committer -/

section Steps

variable {w : Store B K}

theorem Store.work_cases (w : Store B K) (phase : Phase) (f : FileRunLogWriter B K → Work B → Store B K) :
    w.work phase f = w ∨
      ∃ v job, w.writer = some v ∧ v.work = some job ∧ job.phase = phase ∧ w.work phase f = f v job := by
  unfold Store.work
  split
  · rename_i v hv
    split
    · rename_i job hjob
      split
      · rename_i hphase
        exact .inr ⟨v,job,hv,hjob,hphase,rfl⟩
      · exact .inl rfl
    · exact .inl rfl
  · exact .inl rfl

theorem Store.Holds.take_batch (h : w.Holds s rs) (now : ℚ) : (w.take_batch now).Holds s rs := by
  unfold Store.take_batch
  split
  · rename_i v hv
    have hinv := (h.writer v hv).2
    split
    · exact h
    rename_i hidle
    have hwork : v.work = none := by
      cases hjob : v.work with
      | none => rfl
      | some job => simp [hjob] at hidle
    split
    · refine h.update hv h.keeps le_rfl ?_
      exact ⟨hinv.log,hinv.sequence,hinv.durable,hinv.facts,hinv.offset,hinv.committed,hinv.checkpointed,hinv.todo,
        hinv.follows,hinv.synced,hinv.emptied,hinv.batched⟩
    · exact h
    · rename_i checkpoint hnext
      have hfailure : v.failure = false := by
        refine Bool.eq_false_iff.mpr fun hyes => ?_
        simp [CommitIntent.next,hyes] at hnext
      refine h.update hv h.keeps le_rfl (hinv.take hfailure hwork _ _ (fun hphase => ?_) fun hbatch hnil => ?_)
      · by_contra hne
        exact hphase (if_neg fun hempty => hne (List.isEmpty_iff.mp hempty))
      · rw [hnil] at hbatch
        cases hbatch
  · exact h

theorem Store.Holds.sync (h : w.Holds s rs) (ok : Bool) : (w.sync ok).Holds s rs := by
  unfold Store.sync
  rcases w.work_cases .sync _ with heq | ⟨v,job,hv,hjob,hphase,heq⟩
  · rw [heq]
    exact h
  rw [heq]
  have hinv := (h.writer v hv).2
  split
  · have hsync : v.Inv s { w.disk with synced := (w.disk.log.getD []).length } rs := hinv.sync h.keeps.synced
    refine h.update hv (h.keeps.sync h.keeps.synced le_rfl) h.keeps.synced (hsync.phase hjob rfl rfl (fun _ => ?_) fun hlate => ?_)
    · obtain ⟨t,-,hlog,-⟩ := hinv.log
      refine Durable.of_length ?_ (hinv.todo job hjob).held
      show (logOf s rs).length ≤ (w.disk.log.getD []).length
      rw [hlog,Option.getD_some,List.length_append]
      exact Nat.le_add_right _ _
    · rcases hlate with hlate | hlate <;> cases hlate
  · exact h.update hv h.keeps le_rfl hinv.fail

theorem Store.Holds.head (h : w.Holds s rs) (p : Publish) : (w.head s p).Holds s rs := by
  unfold Store.head
  rcases w.work_cases .head _ with heq | ⟨v,job,hv,hjob,hphase,heq⟩
  · rw [heq]
    exact h
  rw [heq]
  have hinv := (h.writer v hv).2
  have htodo : job.todo = [] := hinv.emptied job hjob (.inr hphase)
  obtain ⟨d,raised,hpublish,hkeeps,hlog,hsynced⟩ : ∃ d raised,
      (if job.batch then w.disk.publish_head v.skeleton.through_seq (s.headline v.skeleton.facts) p else (w.disk,false))
        = (d,raised) ∧ Disk.Keeps s d rs ∧ d.log = w.disk.log ∧ d.synced = w.disk.synced := by
    split
    · rename_i hbatch
      have hpos := hinv.batched job hjob hbatch
      rw [htodo] at hpos
      have hheadline : s.headline v.skeleton.facts ≠ .raises := by
        rw [hinv.facts]
        exact h.keeps.sound.headlines _ hinv.durable.held hpos
      obtain ⟨hkeeps,hlog,hsynced,-⟩ := h.keeps.publish_head hinv.durable hheadline p
      exact ⟨_,_,rfl,hkeeps,hlog,hsynced⟩
    · exact ⟨w.disk,false,rfl,h.keeps,rfl,rfl⟩
  rw [hpublish]
  have hdisk := hinv.disk hlog hsynced
  dsimp only
  split
  · exact h.update hv hkeeps hsynced.ge hdisk.fail
  · exact h.update hv hkeeps hsynced.ge (hdisk.finish hjob htodo)

variable [DecidableEq K]

theorem Store.Holds.fold (h : w.Holds s rs) (p : Publish) : (w.fold s p).Holds s rs := by
  unfold Store.fold
  rcases w.work_cases .fold _ with heq | ⟨v,job,hv,hjob,hphase,heq⟩
  · rw [heq]
    exact h
  rw [heq]
  have hinv := (h.writer v hv).2
  split
  · rename_i htodo
    refine h.update hv h.keeps le_rfl (hinv.phase hjob rfl rfl (fun _ => ?_) fun _ => htodo)
    exact hinv.synced job hjob (by rw [hphase]; decide)
  · rename_i record offset todo htodo
    obtain ⟨hseq,hdurable,hfolded⟩ := hinv.fold hjob hphase htodo h.keeps.sound.dense
    split
    · exact h.update hv h.keeps le_rfl hinv.fail
    dsimp only
    split
    · have hskeleton := hfolded.skeleton (show 0 < record.seq by omega)
      have hframe : (⟨record.seq,offset,s.append_skeleton v.skeleton.facts record⟩ : Keyframe K) = keyframeAt s rs record.seq :=
        hskeleton
      obtain ⟨hkeeps,hlog,hsynced,-⟩ := h.keeps.write_keyframe hdurable p
      rw [hframe] at hfolded ⊢
      have hdisk := hfolded.disk hlog hsynced
      split
      · exact h.update hv hkeeps hsynced.ge hdisk.fail
      · exact h.update hv hkeeps hsynced.ge (hdisk.checkpoint le_rfl)
    · exact h.update hv h.keeps le_rfl hfolded

theorem Store.Holds.keyframe (h : w.Holds s rs) (p : Publish) : (w.keyframe p).Holds s rs := by
  unfold Store.keyframe
  rcases w.work_cases .keyframe _ with heq | ⟨v,job,hv,hjob,hphase,heq⟩
  · rw [heq]
    exact h
  rw [heq]
  have hinv := (h.writer v hv).2
  have htodo : job.todo = [] := hinv.emptied job hjob (.inl hphase)
  have hlate : ∀ {d : Disk K} {v' : FileRunLogWriter B K}, v'.Inv s d rs → v'.work = some job →
      FileRunLogWriter.Inv s d rs { v' with work := some { job with phase := .head } } := by
    intro d v' hinv' hjob'
    exact hinv'.phase hjob' rfl rfl (fun _ => hinv'.synced job hjob' (by rw [hphase]; decide)) fun _ => htodo
  dsimp only
  split
  · rename_i hdue
    have hpos : 0 < v.skeleton.through_seq := by
      simp only [Bool.or_eq_true,Bool.and_eq_true,decide_eq_true_eq] at hdue
      rcases hdue with ⟨-,hdue⟩ | hdue
      · exact (Nat.zero_le _).trans_lt hdue
      · have hmany : 256 ≤ v.skeleton.through_seq-v.checkpoint_seq := hdue
        omega
    obtain ⟨hkeeps,hlog,hsynced,-⟩ := h.keeps.write_keyframe hinv.durable p
    rw [← hinv.skeleton hpos] at hkeeps hlog hsynced
    have hdisk := hinv.disk hlog hsynced
    split
    · exact h.update hv hkeeps hsynced.ge hdisk.fail
    · exact h.update hv hkeeps hsynced.ge (hlate (hdisk.checkpoint le_rfl) hjob)
  · exact h.update hv h.keeps le_rfl (hlate hinv hjob)

end Steps

theorem Store.Holds.stops {w : Store B K} (h : w.Holds s rs) (bytes : ℕ) : ∃ rs', (w.stops bytes).Holds s rs' := by
  obtain ⟨m,-,hkeeps,hdurable⟩ := h.keeps.cut bytes
  exact ⟨rs.take m,(List.take_prefix m rs).trans h.held,hkeeps,hdurable _ h.returned,fun v hv => (by cases hv)⟩

end Vibesys.Runlog
