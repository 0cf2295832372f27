import Vibesys.Tail.EachOnce

/-!
# One log between its writer and the gateway

The writer of a run.log has a reader of its own, for opening the log again after a crash, and the gateway another one
that follows it. They agree: what a follower was given are records that the writer's reader finds in the same file.
-/
namespace Vibesys.Tail

open Library Runlog

variable {B K : Type} {s : Schema B K} {rs : List (Record B)} {l : Log} {size : ℕ}

/-- The log that the writer makes of these records. -/
structure Written (s : Schema B K) (rs : List (Record B)) (l : Log) : Prop where
  accepts : ∀ r ∈ rs, s.Accepts r
  checksum : l.wire.checksum = s.crc32c
  payloads : l.payloads = rs.map s.to_binary

theorem Written.frames_take (h : Written s rs l) (k : ℕ) :
    l.frames (l.payloads.take k) = (framing s).frames (rs.take k) := by
  rw [h.payloads,← List.map_take]
  unfold Log.frames Framing.frames
  rw [List.flatMap_map]
  refine congrArg (List.flatMap · _) (funext fun r => ?_)
  unfold frame
  rw [h.checksum]
  rfl

theorem Written.reads (h : Written s rs l) (size : ℕ) : ∃ k, (RunLogReader s (l.image.take size)).records = rs.take k ∧
    (∀ why, (RunLogReader s (l.image.take size)).stop ≠ .corrupt why) ∧ ∀ seq, l.Holds size seq → seq ≤ k := by
  have himage : l.image = RUN_LOG_MAGIC ++ ((framing s).frames rs ++ []) := by
    have hall := h.frames_take rs.length
    rw [h.payloads,← List.map_take,List.take_length] at hall
    unfold Log.image
    rw [h.payloads,hall,List.append_nil]
  by_cases hsize : size < RUN_LOG_MAGIC.length
  · rw [himage,List.take_append_of_le_length hsize.le,RunLogReader_magic hsize]
    refine ⟨0,rfl,fun why heq => (by cases heq),fun seq hseq => ?_⟩
    rcases hseq with rfl | ⟨-,hle⟩
    · exact le_rfl
    · exact absurd (Log.boundary_pos.trans hle) (not_le.mpr hsize)
  · obtain ⟨k,t,hk,htake,ht,hlast⟩ := (framing s).take_frames h.accepts (framing s).torn_nil (size-RUN_LOG_MAGIC.length)
    rw [himage,List.take_append,List.take_of_length_le (not_lt.mp hsize),htake,← List.append_assoc]
    obtain ⟨hrecords,-,hstop⟩ := RunLogReader_logOf (fun r hr => h.accepts r (List.mem_of_mem_take hr)) ht
    refine ⟨k,hrecords,fun why heq => ?_,fun seq hseq => ?_⟩
    · rcases hstop with ⟨hstop,-⟩ | hstop <;> cases hstop.symm.trans heq
    · rcases hseq with rfl | ⟨hle,hboundary⟩
      · exact Nat.zero_le _
      · rw [h.payloads,List.length_map] at hle
        unfold Log.boundary at hboundary
        rw [h.frames_take] at hboundary
        exact hlast seq hle (by omega)

theorem mapM_from_binary (h : ∀ r ∈ rs, s.Accepts r) : (rs.map s.to_binary).mapM s.from_binary = some rs := by
  induction rs with
  | nil => rfl
  | cons r rs ih =>
    rw [List.map_cons,List.mapM_cons,s.from_to_binary r (h r List.mem_cons_self).1,
      ih fun r' hr' => h r' (List.mem_cons_of_mem _ hr')]
    rfl

/-- In every run, what a follower was given decodes to records that follow one another in the log, and that the
writer's reader finds in the file as it is. -/
theorem both_readers_find_the_same (h : Written s rs l) (acts : List Act) :
    let w := run (World.step l) {} acts
    let scan := RunLogReader s (l.image.take (w.file.getD 0))
    (∀ why, scan.stop ≠ .corrupt why) ∧ ∀ f ∈ w.followers, ∃ given, f.received.mapM s.from_binary = some given ∧
      given <+: scan.records.drop f.start := by
  have hok : (run (World.step l) {} acts).Ok l := run_invariant (fun _ act h => h.step act) .init acts
  obtain ⟨k,hrecords,hstop,hlast⟩ := h.reads ((run (World.step l) {} acts).file.getD 0)
  refine ⟨hstop,fun f hf => ?_⟩
  have hfollower := (hok.followers f hf).1
  have hslice : f.received <+: f.slice l := by
    rw [← hfollower.contents,List.append_assoc]
    exact List.prefix_append _ _
  unfold Follower.slice at hslice
  rw [h.payloads,← List.map_take,← List.map_drop] at hslice
  obtain ⟨given,hgiven,heq⟩ := List.prefix_map_iff.mp hslice
  have haccepts : ∀ r ∈ given, s.Accepts r := fun r hr =>
    h.accepts r (List.mem_of_mem_take (List.mem_of_mem_drop (hgiven.subset hr)))
  refine ⟨given,by rw [heq,mapM_from_binary haccepts],hgiven.trans ?_⟩
  -- the follower's position is after a record that the file holds
  rw [hrecords]
  exact (List.take_prefix_take_left (hlast _ hfollower.base.holds)).drop _

namespace Sample

def schema : Schema Unit Unit where
  to_binary r := [8,UInt8.ofNat r.seq]
  from_binary payload := (payload[1]?).map fun byte => ⟨byte.toNat,0,()⟩
  validate r := decide (r.seq < 256 ∧ r.clock = 0)
  crc32c := log.wire.checksum
  isBoundary _ := false
  blank := ()
  append_skeleton _ _ := ()
  observes _ := false
  headline _ := .absent
  from_to_binary r h := by
    obtain ⟨hseq,hclock⟩ := of_decide_eq_true h
    change some (Record.mk (UInt8.ofNat r.seq).toNat 0 ()) = some r
    rw [toNat_ofNat_lt hseq,← hclock]
  length_crc32c := log.wire.length_checksum

theorem both_readers_find_the_same_waiting : Written schema [⟨1,0,()⟩,⟨2,0,()⟩] log ∧
    ∀ f ∈ (run (World.step log) {} waiting).followers, ∃ given, f.received.mapM schema.from_binary = some given := by
  have hwritten : Written schema [⟨1,0,()⟩,⟨2,0,()⟩] log := ⟨by decide,rfl,rfl⟩
  exact ⟨hwritten,fun f hf => ((both_readers_find_the_same hwritten waiting).2 f hf).imp fun _ h => h.1⟩

end Sample

end Vibesys.Tail
