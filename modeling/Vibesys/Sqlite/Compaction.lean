import Vibesys.Sqlite.Sound

/-!
# Compaction changes no answer

What a file says of its log is a fact of one file and its log, so it survives a power cut, which brings an
earlier pair back. A `Compact` that is under way adds what it knows of the file from its looks, and commits
between its steps keep that true.
-/
namespace Vibesys.Sqlite

open Library Orchestrator
open Outbox (Outcome)

/-- The events of a target may go: they are under the checkpoint and their run is over. -/
def Target.Fit (f : File) (log : List Event) (t : Target) : Prop :=
  t.through ≤ f.checkpointSequence ∧ (t.run = "" ∨ Finished log t.run)

/-- What a `Compact` knows of the file where it stands. -/
def Stage.Knows (f : File) (log : List Event) : Stage → Prop
  | .clearing state seq gen =>
    state = Replay {} (log.take seq) ∧ f.checkpointSequence ≤ seq ∧ seq ≤ log.length ∧ gen = f.checkpointGen+1
  | .writing rest from_ seq gen =>
    Replay {} (f.queryCheckpoint gen ++ rest) = Replay {} (log.take seq) ∧
      f.checkpointSequence ≤ seq ∧ seq ≤ log.length ∧ gen = f.checkpointGen+1 ∧
      ∀ r ∈ f.checkpoint, r.gen < gen ∨ r.gen = gen ∧ r.idx ≤ from_
  | .dropping ckpt gen => ckpt = f.checkpointSequence ∧ gen = f.checkpointGen
  | .pruning ckpt => ckpt = f.checkpointSequence
  | .marking t rest => ∀ x ∈ t :: rest, x.Fit f log
  | .deleting t rest =>
    (∀ x ∈ t :: rest, x.Fit f log) ∧ t.through ≤ f.prunedMax ∧ t.through ≤ (f.pruned.find? t.run).getD 0

theorem map_event_batchRows (gen n : ℕ) (es : List Event) : (batchRows gen n es).map CheckpointRow.event = es := by
  induction es generalizing n with
  | nil => rfl
  | cons e es ih => simp [batchRows,ih]

theorem mem_batchRows {gen n : ℕ} {es : List Event} {r : CheckpointRow} (h : r ∈ batchRows gen n es) :
    r.gen = gen ∧ n < r.idx ∧ r.idx ≤ n+es.length := by
  induction es generalizing n with
  | nil => cases h
  | cons e es ih =>
    rw [List.length_cons]
    rcases List.mem_cons.mp h with rfl | h
    · refine ⟨rfl,?_⟩
      dsimp only
      omega
    · obtain ⟨hgen,hlow,hhigh⟩ := ih h
      exact ⟨hgen,by omega,by omega⟩

theorem pairwise_batchRows (gen n : ℕ) (es : List Event) : (batchRows gen n es).Pairwise CheckpointRow.Before := by
  induction es generalizing n with
  | nil => exact List.Pairwise.nil
  | cons e es ih =>
    refine List.pairwise_cons.mpr ⟨fun r hr => ?_,ih (n+1)⟩
    obtain ⟨hgen,hlow,-⟩ := mem_batchRows hr
    exact Or.inr ⟨hgen.symm,hlow⟩

theorem queryCheckpoint_batch (f : File) (gen n : ℕ) (es : List Event) (g : ℕ) :
    ({ f with checkpoint := f.checkpoint ++ batchRows gen n es } : File).queryCheckpoint g =
      f.queryCheckpoint g ++ if g = gen then es else [] := by
  have hnew : (batchRows gen n es).filter (fun r => r.gen = g) = if g = gen then batchRows gen n es else [] := by
    split
    · next heq => exact List.filter_eq_self.mpr fun r hr => by simpa [heq] using (mem_batchRows hr).1
    · next hne =>
      refine List.filter_eq_nil_iff.mpr fun r hr => ?_
      simpa [(mem_batchRows hr).1] using Ne.symm hne
  simp only [File.queryCheckpoint,List.filter_append,List.map_append,hnew]
  split
  · rw [map_event_batchRows]
  · rfl

theorem queryCheckpoint_left {f : File} {p : CheckpointRow → Bool} {n : ℕ} {left : List CheckpointRow}
    (h : Left p n f.checkpoint left) {g : ℕ} (hg : ∀ r : CheckpointRow, r.gen = g → ¬ p r) :
    ({ f with checkpoint := left } : File).queryCheckpoint g = f.queryCheckpoint g := by
  have hfilter := h.filter_eq (q := fun r => decide (r.gen = g)) fun r hr => hg r (by simpa using hr)
  simp only [File.queryCheckpoint]
  rw [hfilter]

namespace Sound

variable {f : File} {log : List Event}

theorem set_checkpoint (h : Sound f log) {rows : List CheckpointRow}
    (hrows : ({ f with checkpoint := rows } : File).queryCheckpoint f.checkpointGen = f.queryCheckpoint f.checkpointGen)
    (hkeys : rows.Pairwise CheckpointRow.Before) : Sound { f with checkpoint := rows } log :=
  ⟨h.last,h.kept,h.dropped,h.checkpointed,by rw [← h.checkpoint,← hrows],h.marks,h.runs,hkeys⟩

theorem switch (h : Sound f log) {seq gen : ℕ} (hcheckpoint : Replay {} (f.queryCheckpoint gen) = Replay {} (log.take seq))
    (hold : f.checkpointSequence ≤ seq) (hseq : seq ≤ log.length) :
    Sound { f with checkpointSequence := seq, checkpointGen := gen } log where
  last := h.last
  kept := h.kept
  dropped := fun r hr hgone => ⟨(h.dropped r hr hgone).1.trans hold,(h.dropped r hr hgone).2⟩
  checkpointed := hseq
  checkpoint := hcheckpoint
  marks := h.marks
  runs := h.runs
  keys := h.keys

theorem mark (h : Sound f log) {t : Target} (ht : t.Fit f log) : Sound (f.mark t) log where
  last := h.last
  kept := h.kept
  dropped := by
    intro r hr hgone
    obtain ⟨hckpt,hmax,hmark⟩ := h.dropped r hr hgone
    refine ⟨hckpt,hmax.trans (le_max_left _ _),?_⟩
    change _ ≤ ((f.pruned.insert t.run _).find? r.event.run).getD 0
    rw [Table.find?_insert]
    split
    · next heq =>
      rw [heq] at hmark
      exact hmark.trans (le_max_left _ _)
    · exact hmark
  checkpointed := h.checkpointed
  checkpoint := h.checkpoint
  marks := by
    intro run through hfind
    change (f.pruned.insert t.run _).find? run = some through at hfind
    rw [Table.find?_insert] at hfind
    split at hfind
    · next heq => exact heq ▸ ht.2
    · exact h.marks run through hfind
  runs := h.runs
  keys := h.keys

theorem delete (h : Sound f log) {c : Compacting} {t : Target} {n : ℕ} {left : List EventRow} (ht : t.Fit f log)
    (hmax : t.through ≤ f.prunedMax) (hmark : t.through ≤ (f.pruned.find? t.run).getD 0)
    (hleft : Left (c.prunable t.run t.through) n f.events left) : Sound { f with events := left } log where
  last := h.last
  kept := hleft.1.trans h.kept
  dropped := by
    intro r hr hgone
    by_cases hold : r ∈ f.events
    · have hp := hleft.mem hold hgone
      simp only [Compacting.prunable,decide_eq_true_eq] at hp
      obtain ⟨hrun,hle,-⟩ := hp
      refine ⟨hle.trans ht.1,hle.trans hmax,?_⟩
      change _ ≤ (f.pruned.find? r.event.run).getD 0
      rw [hrun]
      exact hle.trans hmark
    · exact h.dropped r hr hold
  checkpointed := h.checkpointed
  checkpoint := h.checkpoint
  marks := h.marks
  runs := h.runs
  keys := h.keys

theorem knows_compact (h : Sound f log) (p : Retention) : (f.compact p).Knows f log := by
  rw [File.compact]
  split
  · refine ⟨?_,?_,Nat.le_of_eq h.last,rfl⟩
    · rw [h.recoverFrom,h.last,List.take_length]
    · exact h.last ▸ h.checkpointed
  · exact ⟨rfl,rfl⟩

theorem targets_fit (h : Sound f log) (c : Compacting) {t : Target} (ht : t ∈ c.targets f f.checkpointSequence) :
    t.Fit f log := by
  obtain ⟨run,hrun,hmax⟩ := List.mem_filterMap.mp ht
  obtain ⟨through,hthrough,rfl⟩ := Option.map_eq_some_iff.mp hmax
  constructor
  · obtain ⟨r,hr,rfl⟩ := List.mem_map.mp (List.max?_mem hthrough)
    have hp := (List.mem_filter.mp hr).2
    simp only [Compacting.prunable,decide_eq_true_eq] at hp
    exact hp.2.1
  · rw [Compacting.eligible,List.mem_insertionSort] at hrun
    have hover : ∀ status : RunStatus, status.Final →
        run ∈ (f.runs.values.filter fun r => r.status = status ∧ r.endedAt+c.p.keepEvents ≤ c.now).map Run.id →
        Finished log run := by
      intro status hfinal hmem
      obtain ⟨b,hb,rfl⟩ := List.mem_map.mp hmem
      obtain ⟨hb,hstatus⟩ := List.mem_filter.mp hb
      obtain ⟨e,he,hbody⟩ := h.runs b hb
      simp only [decide_eq_true_eq] at hstatus
      exact ⟨e,he,b,hbody,rfl,hstatus.1 ▸ hfinal⟩
    rcases List.mem_append.mp hrun with hrun | hrun
    · rcases List.mem_append.mp hrun with hrun | hrun
      · exact Or.inr (hover .ended rfl hrun)
      · exact Or.inr (hover .failed rfl hrun)
    · exact Or.inl (List.mem_singleton.mp hrun)

end Sound

theorem knows_nextTarget {f : File} {log : List Event} {targets : List Target} (h : ∀ t ∈ targets, t.Fit f log)
    {stage : Stage} (hstage : Compacting.nextTarget targets = some stage) : stage.Knows f log := by
  cases targets with
  | nil => cases hstage
  | cons t rest =>
    cases hstage
    exact h

def Advances (log : List Event) (x : File × Option Stage) : Prop :=
  Sound x.1 log ∧ ∀ stage, x.2 = some stage → stage.Knows x.1 log

section Step

variable {checkpoint : State → List Event} {f : File} {log : List Event}

theorem Sound.stays (h : Sound f log) {stage : Stage} (hstage : stage.Knows f log) : Advances log (f,some stage) :=
  ⟨h,fun stage' heq => by cases heq; exact hstage⟩

theorem Sound.drop_checkpoint (h : Sound f log) {p : CheckpointRow → Bool} {n : ℕ} {left : List CheckpointRow}
    (hleft : Left p n f.checkpoint left) (hforce : ∀ r : CheckpointRow, r.gen = f.checkpointGen → ¬ p r) :
    Sound { f with checkpoint := left } log :=
  h.set_checkpoint (queryCheckpoint_left hleft hforce) (h.keys.sublist hleft.1)

theorem knows_cleared (hcheckpoint : ∀ es, Replay {} (checkpoint (Replay {} es)) = Replay {} es) {seq n : ℕ}
    {left : List CheckpointRow} (hold : f.checkpointSequence ≤ seq) (hseq : seq ≤ log.length)
    (hleft : Left (fun r => decide (r.gen ≥ f.checkpointGen+1)) n f.checkpoint left)
    (hfew : (f.checkpoint.filter fun r => r.gen ≥ f.checkpointGen+1).length < n) :
    (Stage.writing (checkpoint (Replay {} (log.take seq))) 0 seq (f.checkpointGen+1)).Knows
      { f with checkpoint := left } log := by
  have hbelow : ∀ r ∈ left, r.gen < f.checkpointGen+1 := fun r hr => by simpa using hleft.done hfew r hr
  have hnone : ({ f with checkpoint := left } : File).queryCheckpoint (f.checkpointGen+1) = [] := by
    refine List.map_eq_nil_iff.mpr (List.filter_eq_nil_iff.mpr fun r hr => ?_)
    simpa using (hbelow r hr).ne
  refine ⟨?_,hold,hseq,rfl,fun r hr => Or.inl (hbelow r hr)⟩
  rw [hnone,List.nil_append,hcheckpoint]

theorem Sound.write_batch (h : Sound f log) {rest : List Event} {from_ seq : ℕ}
    (hc : (Stage.writing rest from_ seq (f.checkpointGen+1)).Knows f log) (n : ℕ) :
    Advances log ({ f with checkpoint := f.checkpoint ++ batchRows (f.checkpointGen+1) from_ (rest.take n) },
      some (.writing (rest.drop n) (from_+n) seq (f.checkpointGen+1))) := by
  obtain ⟨hwritten,hold,hseq,-,hbelow⟩ := hc
  have hforce := queryCheckpoint_batch f (f.checkpointGen+1) from_ (rest.take n) f.checkpointGen
  rw [if_neg (Nat.succ_ne_self _).symm,List.append_nil] at hforce
  have hbatch := queryCheckpoint_batch f (f.checkpointGen+1) from_ (rest.take n) (f.checkpointGen+1)
  rw [if_pos rfl] at hbatch
  have hkeys : (f.checkpoint ++ batchRows (f.checkpointGen+1) from_ (rest.take n)).Pairwise CheckpointRow.Before := by
    refine List.pairwise_append.mpr ⟨h.keys,pairwise_batchRows _ _ _,fun a ha b hb => ?_⟩
    obtain ⟨hgen,hlow,-⟩ := mem_batchRows hb
    rw [CheckpointRow.Before,hgen]
    exact (hbelow a ha).imp_right fun hidx => ⟨hidx.1,hidx.2.trans_lt hlow⟩
  refine ⟨h.set_checkpoint hforce hkeys,fun stage hstage => ?_⟩
  cases hstage
  refine ⟨?_,hold,hseq,rfl,fun r hr => ?_⟩
  · change Replay {} (({ f with checkpoint := _ } : File).queryCheckpoint (f.checkpointGen+1) ++ _) = _
    rw [hbatch,List.append_assoc,List.take_append_drop]
    exact hwritten
  · rcases List.mem_append.mp hr with hr | hr
    · exact (hbelow r hr).imp_right fun hidx => ⟨hidx.1,by omega⟩
    · obtain ⟨hgen,-,hhigh⟩ := mem_batchRows hr
      have := List.length_take_le n rest
      exact Or.inr ⟨hgen,by omega⟩

/-- A transaction of a `Compact` keeps what the file says of its log, and what the `Compact` knows of it. -/
theorem Compacting.next_sound (hcheckpoint : ∀ es, Replay {} (checkpoint (Replay {} es)) = Replay {} es)
    (h : Sound f log) {c : Compacting} (hc : c.stage.Knows f log) (n : ℕ) (left : Rest) :
    Advances log (c.next checkpoint n f left) := by
  obtain ⟨p,now,stage⟩ := c
  cases stage with
  | clearing state seq gen =>
    obtain ⟨rfl,hold,hseq,rfl⟩ := hc
    simp only [Compacting.next]
    split
    · next hleft =>
      refine ⟨h.drop_checkpoint hleft fun r hr => by simp [hr],fun stage hstage => ?_⟩
      cases hstage
      split
      · next hfew => exact knows_cleared hcheckpoint hold hseq hleft hfew
      · exact ⟨rfl,hold,hseq,rfl⟩
    · exact h.stays ⟨rfl,hold,hseq,rfl⟩
  | writing rest from_ seq gen =>
    have hgen : gen = f.checkpointGen+1 := hc.2.2.2.1
    subst hgen
    cases rest with
    | nil =>
      obtain ⟨hwritten,hold,hseq,-⟩ := hc
      rw [List.append_nil] at hwritten
      refine ⟨h.switch hwritten hold hseq,fun stage hstage => ?_⟩
      cases hstage
      exact ⟨rfl,rfl⟩
    | cons e es => exact h.write_batch hc n
  | dropping ckpt gen =>
    obtain ⟨rfl,rfl⟩ := hc
    simp only [Compacting.next]
    split
    · next hleft =>
      refine ⟨h.drop_checkpoint hleft fun r hr => by simp [hr],fun stage hstage => ?_⟩
      cases hstage
      split
      · exact rfl
      · exact ⟨rfl,rfl⟩
    · exact h.stays ⟨rfl,rfl⟩
  | pruning ckpt =>
    cases (show ckpt = f.checkpointSequence from hc)
    exact ⟨h,fun stage hstage => knows_nextTarget (fun t ht => h.targets_fit _ ht) hstage⟩
  | marking t rest =>
    refine ⟨h.mark (hc t List.mem_cons_self),fun stage hstage => ?_⟩
    cases hstage
    refine ⟨hc,le_max_right _ _,?_⟩
    change t.through ≤ ((f.pruned.insert t.run _).find? t.run).getD 0
    rw [Table.find?_insert_self]
    exact le_max_right _ _
  | deleting t rest =>
    obtain ⟨hfit,hmax,hmark⟩ := hc
    simp only [Compacting.next]
    split
    · next hleft =>
      refine ⟨h.delete (hfit t List.mem_cons_self) hmax hmark hleft,fun stage hstage => ?_⟩
      split at hstage
      · exact knows_nextTarget (fun x hx => hfit x (List.mem_cons_of_mem t hx)) hstage
      · cases hstage
        exact ⟨hfit,hmax,hmark⟩
    · exact h.stays ⟨hfit,hmax,hmark⟩

theorem Stage.Knows.append {stage : Stage} (h : stage.Knows f log) (first : ℕ) (events : List Event)
    (effects : List Effect) : stage.Knows (f.append first events effects) (log ++ events) := by
  have hlength : ∀ {seq : ℕ}, seq ≤ log.length → seq ≤ (log ++ events).length := fun hseq => by
    rw [List.length_append]
    omega
  have hfit : ∀ {x : Target}, x.Fit f log → x.Fit (f.append first events effects) (log ++ events) := fun hx =>
    ⟨hx.1,hx.2.imp_right fun hfin => hfin.append events⟩
  cases stage with
  | clearing state seq gen =>
    obtain ⟨hstate,hold,hseq,hgen⟩ := h
    exact ⟨by rwa [List.take_append_of_le_length hseq],hold,hlength hseq,hgen⟩
  | writing rest from_ seq gen =>
    obtain ⟨hwritten,hold,hseq,hgen,hbelow⟩ := h
    exact ⟨by rwa [List.take_append_of_le_length hseq],hold,hlength hseq,hgen,hbelow⟩
  | dropping ckpt gen => exact h
  | pruning ckpt => exact h
  | marking t rest => exact fun x hx => hfit (h x hx)
  | deleting t rest => exact ⟨fun x hx => hfit (h.1 x hx),h.2⟩

end Step

structure World.Inv (w : World) : Prop where
  sound : Sound w.file w.log
  earlier : ∀ v ∈ w.earlier, Sound v.1 v.2
  atEnd : w.isOpen → w.last = w.file.lastSequence
  work : ∀ c, w.work = some c → w.isOpen ∧ c.stage.Knows w.file w.log

namespace World.Inv

variable {checkpoint : State → List Event} {w : World}

theorem crash (h : w.Inv) : w.crash.Inv :=
  ⟨h.sound,h.earlier,fun hopen => (by cases hopen),fun c hc => (by cases hc)⟩

theorem versions (h : w.Inv) : ∀ v ∈ (w.file,w.log) :: w.earlier, Sound v.1 v.2 := by
  intro v hv
  rcases List.mem_cons.mp hv with rfl | hv
  · exact h.sound
  · exact h.earlier v hv

theorem commit (h : w.Inv) (hopen : w.isOpen) (events : List Event) (effects : List Effect) (o : Outcome) :
    (w.commit events effects o).Inv := by
  have hlast := h.atEnd hopen
  unfold World.commit
  extract_lets s written
  split
  · next hnone =>
    have hs : s.last = w.file.lastSequence := by
      simp only [s,Store.Commit]
      split_ifs with hempty hevents
      · exact hlast
      · exact hlast
      · cases o with
        | undone => rfl
        | ok => exact absurd rfl (hnone.resolve_left hevents)
        | lostReply => exact absurd rfl (hnone.resolve_left hevents)
    exact ⟨h.sound,h.earlier,fun _ => hs,h.work⟩
  · next hsome =>
    obtain ⟨hevents,hwritten⟩ := not_or.mp hsome
    have hs : s = ⟨w.file.append (w.file.lastSequence+1) events effects,w.file.lastSequence+1+events.length-1⟩ := by
      simp only [s,Store.Commit,hevents,false_and,if_false,hlast]
      cases o with
      | undone => exact absurd (by simp [Outcome.written]) hwritten
      | ok => rfl
      | lostReply => rfl
    clear_value s
    subst hs
    refine ⟨h.sound.append hevents effects,h.versions,fun _ => rfl,fun c hc => ?_⟩
    obtain ⟨-,hknows⟩ := h.work c hc
    exact ⟨hopen,hknows.append _ events effects⟩

theorem next (hcheckpoint : ∀ es, Replay {} (checkpoint (Replay {} es)) = Replay {} es) (h : w.Inv) {c : Compacting}
    (hc : w.work = some c) (left : Rest) (o : Outcome) : (w.next checkpoint c left o).Inv := by
  obtain ⟨hopen,hknows⟩ := h.work c hc
  obtain ⟨hsound,hnext⟩ := Compacting.next_sound hcheckpoint h.sound hknows w.step left
  have hlast : (c.next checkpoint w.step w.file left).1.lastSequence = w.file.lastSequence := by
    rw [hsound.last,h.sound.last]
  unfold World.next
  cases o with
  | ok =>
    refine ⟨hsound,h.versions,fun hopen => (h.atEnd hopen).trans hlast.symm,fun c' hc' => ⟨hopen,?_⟩⟩
    obtain ⟨stage,hstage,rfl⟩ := Option.map_eq_some_iff.mp hc'
    exact hnext stage hstage
  | undone => exact ⟨h.sound,h.earlier,h.atEnd,fun c' hc' => by cases hc'⟩
  | lostReply =>
    exact ⟨hsound,h.versions,fun hopen => (h.atEnd hopen).trans hlast.symm,fun c' hc' => by cases hc'⟩

theorem reopen (h : w.Inv) (stepRows : ℕ) : (w.reopen stepRows).Inv := by
  unfold World.reopen OpenSQLite
  rw [if_neg (by simp [h.sound.corrupt])]
  have hs := h.sound
  exact ⟨⟨hs.last,hs.kept,hs.dropped,hs.checkpointed,hs.checkpoint,hs.marks,hs.runs,hs.keys⟩,h.versions,
    fun _ => rfl,fun c hc => by cases hc⟩

theorem act (hcheckpoint : ∀ es, Replay {} (checkpoint (Replay {} es)) = Replay {} es) (h : w.Inv) (m : Move) :
    (w.act checkpoint m).Inv := by
  cases m with
  | commit events effects o =>
    simp only [World.act]
    split
    · next hopen => exact h.commit hopen events effects o
    · exact h
  | compact p now =>
    simp only [World.act]
    split
    · next hopen hidle =>
      refine ⟨h.sound,h.earlier,h.atEnd,fun c hc => ⟨hopen,?_⟩⟩
      cases hc
      exact h.sound.knows_compact p
    · exact h
  | next left o =>
    simp only [World.act]
    split
    · next c hc => exact h.next hcheckpoint hc left o
    · exact h
  | crash => exact h.crash
  | powerCut back =>
    simp only [World.act]
    split
    · exact h.crash
    · next v earlier hback =>
      have hmem : ∀ u ∈ v :: earlier, Sound u.1 u.2 := fun u hu =>
        h.earlier u (List.mem_of_mem_drop (hback ▸ hu))
      exact ⟨hmem v List.mem_cons_self,fun u hu => hmem u (List.mem_cons_of_mem v hu),fun hopen => (by cases hopen),
        fun c hc => (by cases hc)⟩
  | reopen stepRows =>
    simp only [World.act]
    split
    · exact h
    · exact h.reopen stepRows

theorem start : ({} : World).Inv :=
  ⟨Sound.empty,fun v hv => (by cases hv),fun hopen => (by cases hopen),fun c hc => (by cases hc)⟩

end World.Inv

/-- In every state a store reaches by commits, `Compact` calls, crashes, power cuts and reopenings: the file is
one that opens, `Recover` returns the replay of the events of all commits that survived, and a read of the log
says that its cursor is ahead of the log only when it is, says that events were compacted only for all runs or
for one that finished, and otherwise returns the first events above the cursor, from whose last the next page
can be read. -/
theorem compaction_changes_no_answer (checkpoint : State → List Event)
    (hcheckpoint : ∀ es, Replay {} (checkpoint (Replay {} es)) = Replay {} es) (moves : List Move) :
    let w := run (World.act checkpoint) {} moves
    let above (run : RunID) (after : ℕ) := (number 1 w.log).filter fun r => asked run r && decide (r.sequence > after)
    (OpenSQLite w.file).isSome ∧ w.file.recoverFrom = Replay {} w.log ∧
    ∀ run after limit,
      w.file.EventsAfter run after limit = .aheadOfLog ∧ w.log.length < after ∨
      w.file.EventsAfter run after limit = .compacted ∧ (run = "" ∨ Finished w.log run) ∨
      w.file.EventsAfter run after limit = .events ((above run after).take (pageLimit limit MaxPageEvents).toNat) ∧
        ∀ r ∈ (above run after).take (pageLimit limit MaxPageEvents).toNat, ∀ limit',
          w.file.EventsAfter run r.sequence limit' =
            .events ((above run r.sequence).take (pageLimit limit' MaxPageEvents).toNat) := by
  intro w above
  have hsound : Sound w.file w.log := (run_invariant (fun w m h => h.act hcheckpoint m) World.Inv.start moves).sound
  refine ⟨by simp [OpenSQLite,hsound.corrupt],hsound.recoverFrom,fun run after limit => ?_⟩
  by_cases hahead : after > w.log.length
  · exact Or.inl ⟨by rw [hsound.page,if_pos hahead],hahead⟩
  · by_cases hthrough : after < w.file.through run
    · refine Or.inr (Or.inl ⟨by rw [hsound.page,if_neg hahead,if_pos hthrough],?_⟩)
      exact (Classical.em (run = "")).imp_right fun hrun => hsound.finished_of_through hrun (Nat.zero_lt_of_lt hthrough)
    · refine Or.inr (Or.inr ⟨by rw [hsound.page,if_neg hahead,if_neg hthrough],fun r hr limit' => ?_⟩)
      obtain ⟨hmem,hafter⟩ := List.mem_filter.mp (List.mem_of_mem_take hr)
      have hlast := (mem_number hmem).2
      simp only [gt_iff_lt,Bool.and_eq_true,decide_eq_true_eq] at hafter
      rw [hsound.page,if_neg (by omega),if_neg (by omega)]

def endedRun : Event where
  run := "run"
  command := ""
  at_ := 1
  source := none
  body := .run { (default : Run) with id := "run", status := .ended, endedAt := 1 }

/-- A checkpoint for the one state of the run below, and some checkpoint for every other. -/
noncomputable def checkpointOf (s : State) : List Event :=
  if s = Replay {} [endedRun] then [endedRun] else Function.invFun (Replay {}) s

theorem Replay_checkpointOf (es : List Event) : Replay {} (checkpointOf (Replay {} es)) = Replay {} es := by
  rw [checkpointOf]
  split
  · next heq => exact heq.symm
  · exact Function.invFun_eq ⟨es,rfl⟩

/-- A run ends, and a `Compact` checkpoints it and drops its one event. -/
def dropEnded : List Move :=
  [.reopen 0,.commit [endedRun] [] .ok,.compact ⟨0,0⟩ 10,.next {} .ok,.next {} .ok,.next {} .ok,
    .next { checkpoint := [⟨1,1,endedRun⟩] } .ok,.next {} .ok,.next {} .ok,.next {} .ok]

theorem compaction_changes_no_answer_dropEnded :
    (run (World.act checkpointOf) {} dropEnded).file.events = [] ∧
    (run (World.act checkpointOf) {} dropEnded).file.EventsAfter "run" 0 10 = .compacted ∧
    (run (World.act checkpointOf) {} dropEnded).file.recoverFrom = Replay {} [endedRun] :=
  ⟨by decide +kernel,by decide +kernel,
    (compaction_changes_no_answer checkpointOf Replay_checkpointOf dropEnded).2.1⟩

end Vibesys.Sqlite
