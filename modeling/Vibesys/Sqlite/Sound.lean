import Vibesys.Sqlite.Compact

/-!
# What a file says of its log

An event that is gone lies under the checkpoint and under the mark of its run, a mark stands only for a run
that finished, and the checkpoint in force folds to what the log folds to at its sequence. From these follow
what `Recover` returns and what each page of the log holds.
-/
namespace Vibesys.Sqlite

open Library Orchestrator
open Outbox (Outcome)

section Lists

variable {α : Type*} {p q : α → Bool} {n : ℕ} {rows left : List α}

theorem filter_eq_of_sublist (h : left.Sublist rows) (hnodup : rows.Nodup) (hq : ∀ r ∈ rows, q r → r ∈ left) :
    left.filter q = rows.filter q := by
  refine (h.filter q).eq_of_length_le (List.Subperm.length_le ?_)
  refine (hnodup.filter q).subperm fun r hr => ?_
  obtain ⟨hr,hqr⟩ := List.mem_filter.mp hr
  exact List.mem_filter.mpr ⟨hq r hr hqr,hqr⟩

theorem Left.filter_eq (h : Left p n rows left) (hq : ∀ r, q r → ¬ p r) : left.filter q = rows.filter q := by
  have hall : ∀ l : List α, l.filter q = (l.filter fun r => !p r).filter q := by
    intro l
    rw [List.filter_filter]
    refine List.filter_congr fun r _ => ?_
    cases hqr : q r with
    | false => rfl
    | true => simp [hq r hqr]
  rw [hall left,hall rows,h.2.1]

theorem Left.mem (h : Left p n rows left) {r : α} (hr : r ∈ rows) (hgone : r ∉ left) : p r := by
  by_contra hkeep
  have : r ∈ left.filter fun r => !p r := by
    rw [h.2.1]
    exact List.mem_filter.mpr ⟨hr,by simpa using hkeep⟩
  exact hgone (List.mem_of_mem_filter this)

theorem Left.done (h : Left p n rows left) (hfew : (rows.filter p).length < n) : ∀ r ∈ left, ¬ p r := by
  intro r hr hp
  have hnone : left.filter p = [] := List.length_eq_zero_iff.mp (by rw [h.2.2]; omega)
  have : r ∈ left.filter p := List.mem_filter.mpr ⟨hr,hp⟩
  rw [hnone] at this
  cases this

end Lists

section Log

theorem pairwise_number (n : ℕ) (es : List Event) : (number n es).Pairwise fun a b => a.sequence < b.sequence := by
  induction es generalizing n with
  | nil => exact List.Pairwise.nil
  | cons e es ih => exact List.pairwise_cons.mpr ⟨fun r hr => (mem_number hr).1,ih (n+1)⟩

theorem nodup_number (n : ℕ) (es : List Event) : (number n es).Nodup := by
  refine (pairwise_number n es).imp ?_
  intro a b hlt heq
  rw [heq] at hlt
  exact Nat.lt_irrefl _ hlt

theorem map_event_above (n k : ℕ) (es : List Event) :
    ((number n es).filter fun r => r.sequence > k).map EventRow.event = es.drop (k+1-n) := by
  induction es generalizing n with
  | nil => simp [number]
  | cons e es ih =>
    rw [number]
    by_cases hn : n > k
    · have hzero : k+1-(n+1) = 0 := by omega
      have hzero' : k+1-n = 0 := by omega
      rw [List.filter_cons_of_pos (by simpa using hn),List.map_cons,ih,hzero,hzero']
      rfl
    · have hsucc : k+1-n = k+1-(n+1)+1 := by omega
      rw [List.filter_cons_of_neg (by simpa using hn),ih,hsucc,List.drop_succ_cons]

end Log

def Finished (log : List Event) (run : RunID) : Prop := ∃ e ∈ log, ∃ b, e.body = .run b ∧ b.id = run ∧ b.status.Final

theorem Finished.append {log : List Event} {run : RunID} (h : Finished log run) (es : List Event) :
    Finished (log ++ es) run := by
  obtain ⟨e,he,hb⟩ := h
  exact ⟨e,List.mem_append_left es he,hb⟩

def CheckpointRow.Before (a b : CheckpointRow) : Prop := a.gen < b.gen ∨ a.gen = b.gen ∧ a.idx < b.idx

/-- What a file says of the log of all its commits. -/
structure Sound (f : File) (log : List Event) : Prop where
  last : f.lastSequence = log.length
  kept : f.events.Sublist (number 1 log)
  dropped : ∀ r ∈ number 1 log, r ∉ f.events →
    r.sequence ≤ f.checkpointSequence ∧ r.sequence ≤ f.prunedMax ∧ r.sequence ≤ (f.pruned.find? r.event.run).getD 0
  checkpointed : f.checkpointSequence ≤ log.length
  checkpoint : Replay {} (f.queryCheckpoint f.checkpointGen) = Replay {} (log.take f.checkpointSequence)
  marks : ∀ run through, f.pruned.find? run = some through → run = "" ∨ Finished log run
  runs : ∀ b ∈ f.runs.values, ∃ e ∈ log, e.body = .run b
  keys : f.checkpoint.Pairwise CheckpointRow.Before

namespace Sound

variable {f : File} {log : List Event}

theorem empty : Sound {} [] where
  last := rfl
  kept := List.Sublist.refl _
  dropped := fun r hr => by cases hr
  checkpointed := Nat.le_refl 0
  checkpoint := rfl
  marks := fun run through h => by cases h
  runs := fun b hb => by cases hb
  keys := List.Pairwise.nil

theorem corrupt (h : Sound f log) : f.corrupt = false := by
  refine File.corrupt_eq_false.mpr ⟨fun r hr => ?_,h.last ▸ h.checkpointed⟩
  have := (mem_number (h.kept.subset hr)).2
  rw [h.last]
  omega

theorem above_checkpoint (h : Sound f log) :
    f.events.filter (fun r => r.sequence > f.checkpointSequence) =
      (number 1 log).filter fun r => r.sequence > f.checkpointSequence := by
  refine filter_eq_of_sublist h.kept (nodup_number 1 log) fun r hr habove => ?_
  by_contra hgone
  have hunder := (h.dropped r hr hgone).1
  simp only [gt_iff_lt,decide_eq_true_eq] at habove
  omega

theorem recoverFrom (h : Sound f log) : f.recoverFrom = Replay {} log := by
  rw [File.recoverFrom,h.checkpoint,h.above_checkpoint,map_event_above,Nat.add_sub_cancel,← Replay_append,
    List.take_append_drop]

theorem above_through (h : Sound f log) {run : RunID} {after : ℕ} (hafter : f.through run ≤ after) :
    f.events.filter (fun r => asked run r && decide (r.sequence > after)) =
      (number 1 log).filter fun r => asked run r && decide (r.sequence > after) := by
  refine filter_eq_of_sublist h.kept (nodup_number 1 log) fun r hr habove => ?_
  by_contra hgone
  obtain ⟨-,hmax,hmark⟩ := h.dropped r hr hgone
  simp only [asked,gt_iff_lt,Bool.and_eq_true,decide_eq_true_eq] at habove
  rw [File.through] at hafter
  obtain ⟨hrun,habove⟩ := habove
  split at hafter
  · omega
  · next hsome =>
    rw [hrun.resolve_left hsome] at hmark
    omega

/-- What a read of the log says, by the log itself. -/
theorem page (h : Sound f log) (run : RunID) (after : ℕ) (limit : ℤ) :
    f.EventsAfter run after limit =
      if after > log.length then .aheadOfLog
      else if after < f.through run then .compacted
      else
        .events (((number 1 log).filter fun r => asked run r && decide (r.sequence > after)).take
          (pageLimit limit MaxPageEvents).toNat) := by
  rw [File.EventsAfter,h.last]
  split
  · rfl
  · split
    · rfl
    · next hthrough => rw [h.above_through (not_lt.mp hthrough)]

theorem finished_of_through (h : Sound f log) {run : RunID} (hrun : run ≠ "") (hpos : 0 < f.through run) :
    Finished log run := by
  rw [File.through,if_neg hrun] at hpos
  cases hfind : f.pruned.find? run with
  | none =>
    rw [hfind] at hpos
    cases hpos
  | some through => exact (h.marks run through hfind).resolve_left hrun

theorem append (h : Sound f log) {events : List Event} (hevents : events ≠ []) (effects : List Effect) :
    Sound (f.append (f.lastSequence+1) events effects) (log ++ events) where
  last := by
    have hpos : 0 < events.length := List.length_pos_iff.mpr hevents
    have := h.last
    change f.lastSequence+1+events.length-1 = _
    rw [List.length_append]
    omega
  kept := by
    change (f.events ++ number (f.lastSequence+1) events).Sublist _
    rw [number_append,h.last,Nat.add_comm log.length 1]
    exact h.kept.append_right _
  dropped := by
    intro r hr hgone
    change r ∉ f.events ++ number (f.lastSequence+1) events at hgone
    rw [number_append] at hr
    rw [h.last,Nat.add_comm log.length 1] at hgone
    rcases List.mem_append.mp hr with hr | hr
    · exact h.dropped r hr fun hold => hgone (List.mem_append_left _ hold)
    · exact absurd (List.mem_append_right _ hr) hgone
  checkpointed := by
    have := h.checkpointed
    change f.checkpointSequence ≤ _
    rw [List.length_append]
    omega
  checkpoint := by
    change Replay {} (f.queryCheckpoint f.checkpointGen) = Replay {} ((log ++ events).take f.checkpointSequence)
    rw [List.take_append_of_le_length h.checkpointed,h.checkpoint]
  marks := fun run through hfind => (h.marks run through hfind).imp_right fun hfin => hfin.append events
  runs := by
    have hfold : ∀ (es : List Event) (runs : Table RunID Run), (∀ b ∈ runs.values, ∃ e ∈ log ++ events, e.body = .run b) →
        (∀ e ∈ es, e ∈ log ++ events) → ∀ b ∈ (es.foldl project runs).values, ∃ e ∈ log ++ events, e.body = .run b := by
      intro es
      induction es with
      | nil => exact fun runs hruns _ => hruns
      | cons e es ih =>
        intro runs hruns hes
        refine ih (project runs e) (fun b hb => ?_) fun e' he' => hes e' (List.mem_cons_of_mem e he')
        rw [project] at hb
        split at hb
        · next b' hbody =>
          obtain ⟨k,hk⟩ := Table.mem_values.mp hb
          rw [Table.find?_insert] at hk
          split at hk
          · cases hk
            exact ⟨e,hes e List.mem_cons_self,hbody⟩
          · exact hruns b (Table.mem_values.mpr ⟨k,hk⟩)
        · exact hruns b hb
    refine hfold events f.runs (fun b hb => ?_) fun e he => List.mem_append_right log he
    obtain ⟨e,he,hbody⟩ := h.runs b hb
    exact ⟨e,List.mem_append_left events he,hbody⟩
  keys := h.keys

end Sound

end Vibesys.Sqlite
