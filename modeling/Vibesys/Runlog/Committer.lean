import Vibesys.Runlog.Durable

/-!
# What holds while the writer is open

The records that are pending follow those that were folded, and what the committer folds was synced before. Every
call and every step of the committer keeps this, whether it succeeds or fails.
-/
namespace Vibesys.Runlog

open Library

variable {B K : Type} {s : Schema B K} {rs : List (Record B)} {r : Record B}

/-! ## Pending records -/

/-- The records of the log after the first ones, each with the offset after its frame. -/
def Aligned (s : Schema B K) (rs : List (Record B)) : ℕ → List (Record B × ℕ) → Prop
  | m, [] => m ≤ rs.length
  | m, (r,offset) :: l => rs[m]? = some r ∧ offset = endOf s rs (m+1) ∧ Aligned s rs (m+1) l

namespace Aligned

variable {m : ℕ} {l l' : List (Record B × ℕ)}

theorem held (h : Aligned s rs m l) : m+l.length ≤ rs.length := by
  induction l generalizing m with
  | nil => exact h
  | cons p l ih =>
    have := ih h.2.2
    rw [List.length_cons]
    omega

theorem append_records (h : Aligned s rs m l) (more : List (Record B)) : Aligned s (rs ++ more) m l := by
  induction l generalizing m with
  | nil => exact h.trans (by rw [List.length_append]; omega)
  | cons p l ih =>
    obtain ⟨hget,hend,hrest⟩ := h
    have hlt : m < rs.length := (List.getElem?_eq_some_iff.mp hget).1
    refine ⟨?_,?_,ih hrest⟩
    · rw [List.getElem?_append_left hlt]
      exact hget
    · rw [endOf_append hlt]
      exact hend

theorem push (h : Aligned s rs m l) (hall : m+l.length = rs.length) (r : Record B) :
    Aligned s (rs ++ [r]) m (l ++ [(r,(logOf s (rs ++ [r])).length)]) := by
  induction l generalizing m with
  | nil =>
    have hm : m = rs.length := hall
    subst hm
    refine ⟨?_,?_,?_⟩
    · rw [List.getElem?_append_right le_rfl,Nat.sub_self]
      rfl
    · rw [← endOf_length,List.length_append,List.length_singleton]
    · show rs.length+1 ≤ (rs ++ [r]).length
      rw [List.length_append,List.length_singleton]
  | cons p l ih =>
    have hheld := h.append_records [r]
    refine ⟨hheld.1,hheld.2.1,ih h.2.2 ?_⟩
    rw [List.length_cons] at hall
    omega

end Aligned

/-! ## The writer -/

namespace FileRunLogWriter

def ahead (v : FileRunLogWriter B K) : List (Record B × ℕ) := (v.work.elim [] Work.todo) ++ v.pending

structure Inv (s : Schema B K) (d : Disk K) (rs : List (Record B)) (v : FileRunLogWriter B K) : Prop where
  log : ∃ t, (framing s).Torn t ∧ d.log = some (logOf s rs ++ t) ∧ (v.failure = false → t = [])
  sequence : v.failure = false → v.sequence = rs.length
  durable : Durable s d.synced rs v.skeleton.through_seq
  facts : v.skeleton.facts = s.fold (rs.take v.skeleton.through_seq)
  offset : 0 < v.skeleton.through_seq → v.skeleton.log_offset = endOf s rs v.skeleton.through_seq
  committed : v.committed_seq ≤ v.skeleton.through_seq
  checkpointed : v.checkpoint_seq ≤ v.skeleton.through_seq
  todo : ∀ job ∈ v.work, Aligned s rs v.skeleton.through_seq job.todo
  follows : v.failure = false → Aligned s rs v.skeleton.through_seq v.ahead ∧ v.skeleton.through_seq+v.ahead.length = rs.length
  synced : ∀ job ∈ v.work, job.phase ≠ .sync → Durable s d.synced rs (v.skeleton.through_seq+job.todo.length)
  emptied : ∀ job ∈ v.work, job.phase = .keyframe ∨ job.phase = .head → job.todo = []
  batched : ∀ job ∈ v.work, job.batch = true → 0 < v.skeleton.through_seq+job.todo.length

namespace Inv

variable {d : Disk K} {v : FileRunLogWriter B K}

theorem skeleton (h : v.Inv s d rs) (hpos : 0 < v.skeleton.through_seq) :
    v.skeleton = keyframeAt s rs v.skeleton.through_seq := by
  rw [keyframeAt,← h.facts,← h.offset hpos]

theorem fail (h : v.Inv s d rs) : v.fail.Inv s d rs := by
  obtain ⟨t,ht,hlog,-⟩ := h.log
  exact ⟨⟨t,ht,hlog,fun hno => (by cases hno)⟩,fun hno => (by cases hno),h.durable,h.facts,h.offset,h.committed,h.checkpointed,
    fun _ hjob => (by cases hjob),fun hno => (by cases hno),fun _ hjob => (by cases hjob),fun _ hjob => (by cases hjob),
    fun _ hjob => (by cases hjob)⟩

theorem disk (h : v.Inv s d rs) {d' : Disk K} (hlog : d'.log = d.log) (hsynced : d'.synced = d.synced) : v.Inv s d' rs := by
  refine ⟨?_,h.sequence,?_,h.facts,h.offset,h.committed,h.checkpointed,h.todo,h.follows,?_,h.emptied,h.batched⟩
  · rw [hlog]
    exact h.log
  · rw [hsynced]
    exact h.durable
  · rw [hsynced]
    exact h.synced

theorem request (h : v.Inv s d rs) (intent : CommitIntent) (waiting : List (ℕ × Bool)) :
    Inv s d rs { v with intent := intent, waiting := waiting } :=
  ⟨h.log,h.sequence,h.durable,h.facts,h.offset,h.committed,h.checkpointed,h.todo,h.follows,h.synced,h.emptied,h.batched⟩

theorem write (h : v.Inv s d rs) (hfailure : v.failure = false) (hseq : r.seq = rs.length+1) :
    Inv s { d with log := some (logOf s rs ++ frameOf s r) } (rs ++ [r])
      { v with pending := v.pending ++ [(r,(logOf s rs ++ frameOf s r).length)], sequence := r.seq } := by
  have hwhole : logOf s rs ++ frameOf s r = logOf s (rs ++ [r]) := by
    rw [logOf,logOf,Framing.frames_concat,List.append_assoc]
    rfl
  obtain ⟨hahead,hlength⟩ := h.follows hfailure
  have hthrough := h.durable.held
  refine ⟨⟨[],Framing.torn_nil,?_,fun _ => rfl⟩,fun _ => ?_,h.durable.append _,?_,fun hpos => ?_,h.committed,h.checkpointed,
    fun job hjob => (h.todo job hjob).append_records _,fun _ => ⟨?_,?_⟩,fun job hjob hphase => (h.synced job hjob hphase).append _,
    h.emptied,h.batched⟩
  · show some (logOf s rs ++ frameOf s r) = _
    rw [hwhole,List.append_nil]
  · show r.seq = (rs ++ [r]).length
    rw [List.length_append,List.length_singleton]
    exact hseq
  · rw [List.take_append_of_le_length hthrough]
    exact h.facts
  · rw [endOf_append hthrough]
    exact h.offset hpos
  · show Aligned s (rs ++ [r]) v.skeleton.through_seq (v.work.elim [] Work.todo ++ (v.pending ++ [_]))
    rw [hwhole,← List.append_assoc]
    exact hahead.push hlength r
  · show v.skeleton.through_seq+(v.work.elim [] Work.todo ++ (v.pending ++ [_])).length = _
    unfold ahead at hlength
    simp only [List.length_append,List.length_singleton] at hlength ⊢
    omega

theorem abort (h : v.Inv s d rs) (pending : List (Record B × ℕ)) (sequence : ℕ) :
    Inv s d rs { v with failure := true, pending := pending, sequence := sequence } := by
  obtain ⟨t,ht,hlog,-⟩ := h.log
  exact ⟨⟨t,ht,hlog,fun hno => (by cases hno)⟩,fun hno => (by cases hno),h.durable,h.facts,h.offset,h.committed,h.checkpointed,
    h.todo,fun hno => (by cases hno),h.synced,h.emptied,h.batched⟩

theorem tear (h : v.Inv s d rs) {t : Bytes} (ht : (framing s).Torn t) :
    Inv s { d with log := some (logOf s rs ++ t) } rs { v with failure := true } :=
  ⟨⟨t,ht,rfl,fun hno => (by cases hno)⟩,fun hno => (by cases hno),h.durable,h.facts,h.offset,h.committed,h.checkpointed,h.todo,
    fun hno => (by cases hno),h.synced,h.emptied,h.batched⟩

theorem take (h : v.Inv s d rs) (hfailure : v.failure = false) (hwork : v.work = none) (intent : CommitIntent)
    (checkpoint : Bool) {phase : Phase} (hphase : phase ≠ .sync → v.pending = []) {batch : Bool}
    (hbatch : batch = true → v.pending ≠ []) :
    Inv s d rs { v with pending := [], intent := intent, work := some ⟨v.pending,checkpoint,batch,phase⟩ } := by
  have hahead : v.ahead = v.pending := by
    unfold ahead
    rw [hwork]
    rfl
  obtain ⟨haligned,hlength⟩ := h.follows hfailure
  rw [hahead] at haligned hlength
  refine ⟨h.log,h.sequence,h.durable,h.facts,h.offset,h.committed,h.checkpointed,fun job hjob => ?_,fun _ => ⟨?_,?_⟩,
    fun job hjob hnot => ?_,fun job hjob hlate => ?_,fun job hjob hyes => ?_⟩
  · obtain rfl := Option.some.inj hjob
    exact haligned
  · show Aligned s rs v.skeleton.through_seq (v.pending ++ [])
    rw [List.append_nil]
    exact haligned
  · show v.skeleton.through_seq+(v.pending ++ []).length = rs.length
    rw [List.append_nil]
    exact hlength
  · obtain rfl := Option.some.inj hjob
    show Durable s d.synced rs (v.skeleton.through_seq+v.pending.length)
    rw [hphase hnot]
    exact h.durable
  · obtain rfl := Option.some.inj hjob
    refine hphase fun heq => ?_
    rcases hlate with hlate | hlate
    · exact absurd (heq.symm.trans hlate) (by decide)
    · exact absurd (heq.symm.trans hlate) (by decide)
  · obtain rfl := Option.some.inj hjob
    exact Nat.add_pos_right _ (List.length_pos_of_ne_nil (hbatch hyes))

theorem phase (h : v.Inv s d rs) {job job' : Work B} (hwork : v.work = some job) (htodo : job'.todo = job.todo)
    (hbatch : job'.batch = job.batch)
    (hphase : job'.phase ≠ .sync → Durable s d.synced rs (v.skeleton.through_seq+job.todo.length))
    (hlate : job'.phase = .keyframe ∨ job'.phase = .head → job.todo = []) :
    Inv s d rs { v with work := some job' } := by
  refine ⟨h.log,h.sequence,h.durable,h.facts,h.offset,h.committed,h.checkpointed,fun j hj => ?_,fun hfailure => ?_,
    fun j hj hnot => ?_,fun j hj hend => ?_,fun j hj hyes => ?_⟩
  · obtain rfl := Option.some.inj hj
    rw [htodo]
    exact h.todo job hwork
  · have hahead : v.ahead = job'.todo ++ v.pending := by
      unfold ahead
      rw [hwork,htodo]
      rfl
    have hfollows := h.follows hfailure
    rw [hahead] at hfollows
    exact hfollows
  · obtain rfl := Option.some.inj hj
    rw [htodo]
    exact hphase hnot
  · obtain rfl := Option.some.inj hj
    rw [htodo]
    exact hlate hend
  · obtain rfl := Option.some.inj hj
    rw [htodo]
    exact h.batched job hwork (hbatch ▸ hyes)

theorem sync (h : v.Inv s d rs) {n : ℕ} (hn : d.synced ≤ n) : v.Inv s { d with synced := n } rs :=
  ⟨h.log,h.sequence,h.durable.mono hn,h.facts,h.offset,h.committed,h.checkpointed,h.todo,h.follows,
    fun job hjob hphase => (h.synced job hjob hphase).mono hn,h.emptied,h.batched⟩

theorem fold (h : v.Inv s d rs) {job : Work B} (hwork : v.work = some job) (hphase : job.phase = .fold) {offset : ℕ}
    {todo : List (Record B × ℕ)} (htodo : job.todo = (r,offset) :: todo) (hdense : Dense rs) :
    r.seq = v.skeleton.through_seq+1 ∧ Durable s d.synced rs r.seq ∧
      Inv s d rs { v with
        skeleton := ⟨r.seq,offset,s.append_skeleton v.skeleton.facts r⟩
        work := some { job with todo := todo } } := by
  have haligned := h.todo job hwork
  have hsynced := h.synced job hwork (by rw [hphase]; decide)
  rw [htodo] at haligned hsynced
  obtain ⟨hget,hoffset,hrest⟩ := haligned
  have hseq : r.seq = v.skeleton.through_seq+1 := hdense.seq hget
  have hdurable : Durable s d.synced rs r.seq := by
    refine hsynced.le ?_
    rw [List.length_cons,hseq]
    omega
  refine ⟨hseq,hdurable,⟨h.log,h.sequence,hdurable,?_,fun _ => ?_,?_,?_,fun j hj => ?_,fun hfailure => ?_,fun j hj _ => ?_,
    fun j hj hlate => ?_,fun j hj _ => ?_⟩⟩
  · show s.append_skeleton v.skeleton.facts r = s.fold (rs.take r.seq)
    rw [hseq,take_succ_of_getElem? hget,Schema.fold_concat,h.facts]
  · show offset = endOf s rs r.seq
    rw [hseq]
    exact hoffset
  · show v.committed_seq ≤ r.seq
    have := h.committed
    omega
  · show v.checkpoint_seq ≤ r.seq
    have := h.checkpointed
    omega
  · obtain rfl := Option.some.inj hj
    show Aligned s rs r.seq todo
    rw [hseq]
    exact hrest
  · obtain ⟨hall,hlength⟩ := h.follows hfailure
    have hahead : v.ahead = (r,offset) :: (todo ++ v.pending) := by
      unfold ahead
      rw [hwork]
      show job.todo ++ v.pending = _
      rw [htodo,List.cons_append]
    rw [hahead] at hall hlength
    show Aligned s rs r.seq (todo ++ v.pending) ∧ r.seq+(todo ++ v.pending).length = rs.length
    rw [hseq]
    refine ⟨hall.2.2,?_⟩
    rw [List.length_cons] at hlength
    omega
  · obtain rfl := Option.some.inj hj
    show Durable s d.synced rs (r.seq+todo.length)
    have hle : v.skeleton.through_seq+((r,offset) :: todo).length = r.seq+todo.length := by
      rw [List.length_cons,hseq]
      omega
    rw [← hle]
    exact hsynced
  · obtain rfl := Option.some.inj hj
    have hfold : ({ job with todo := todo } : Work B).phase = .fold := hphase
    rw [hfold] at hlate
    exact absurd hlate (by decide)
  · show 0 < r.seq+j.todo.length
    omega

theorem checkpoint (h : v.Inv s d rs) {n : ℕ} (hn : n ≤ v.skeleton.through_seq) : Inv s d rs { v with checkpoint_seq := n } :=
  ⟨h.log,h.sequence,h.durable,h.facts,h.offset,h.committed,hn,h.todo,h.follows,h.synced,h.emptied,h.batched⟩

theorem finish (h : v.Inv s d rs) {job : Work B} (hwork : v.work = some job) (htodo : job.todo = []) :
    Inv s d rs { v with committed_seq := v.skeleton.through_seq, work := none } := by
  refine ⟨h.log,h.sequence,h.durable,h.facts,h.offset,le_rfl,h.checkpointed,fun _ hj => (by cases hj),fun hfailure => ?_,
    fun _ hj => (by cases hj),fun _ hj => (by cases hj),fun _ hj => (by cases hj)⟩
  have hahead : v.ahead = [] ++ v.pending := by
    unfold ahead
    rw [hwork]
    show job.todo ++ v.pending = _
    rw [htodo]
  have hfollows := h.follows hfailure
  rw [hahead] at hfollows
  exact hfollows

end Inv
end FileRunLogWriter
end Vibesys.Runlog
