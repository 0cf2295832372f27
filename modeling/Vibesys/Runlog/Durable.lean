import Vibesys.Runlog.Writer

/-!
# What is on disk

The files of a run are sound for some records: the log holds their frames and at most a torn one, and what
`run.head` and the keyframes cover was synced. This is kept by appending and publishing, and when the log is cut
it holds for the records before the cut.
-/
namespace Vibesys.Runlog

open Library

variable {B K : Type} {s : Schema B K} {rs : List (Record B)} {r : Record B}

/-! ## Records -/

/-- The records can be read back and projected. -/
structure Sound (s : Schema B K) (rs : List (Record B)) : Prop where
  accepts : ∀ r ∈ rs, s.Accepts r
  dense : Dense rs
  observes : ∀ r ∈ rs, s.observes r.body = true
  headlines : ∀ n ≤ rs.length, 0 < n → s.headline (s.fold (rs.take n)) ≠ .raises

theorem Dense.take (h : Dense rs) (m : ℕ) : Dense (rs.take m) := by
  unfold Dense at *
  rw [List.map_take,h,List.length_take]
  apply List.ext_getElem
  · simp
  · intro i hleft hright
    simp

theorem Dense.concat (h : Dense rs) (hr : r.seq = rs.length+1) : Dense (rs ++ [r]) := by
  unfold Dense at *
  rw [List.map_append,h,List.length_append,List.length_singleton,List.range'_concat]
  simp [hr,Nat.add_comm]

theorem Dense.seq (h : Dense rs) {m : ℕ} (hm : rs[m]? = some r) : r.seq = m+1 := by
  have hmap : (rs.map Record.seq)[m]? = some r.seq := by rw [List.getElem?_map,hm]; rfl
  have hlt : m < rs.length := (List.getElem?_eq_some_iff.mp hm).1
  rw [h,List.getElem?_range' hlt] at hmap
  have := Option.some.inj hmap
  omega

theorem sound_nil (s : Schema B K) : Sound s [] :=
  ⟨fun _ h => absurd h List.not_mem_nil,rfl,fun _ h => absurd h List.not_mem_nil,fun _ hn hpos => absurd hn (not_le.mpr hpos)⟩

theorem Sound.take (h : Sound s rs) (m : ℕ) : Sound s (rs.take m) := by
  refine ⟨fun r hr => h.accepts r (List.mem_of_mem_take hr),h.dense.take m,fun r hr => h.observes r (List.mem_of_mem_take hr),
    fun n hn hpos => ?_⟩
  rw [List.take_take,min_eq_left (hn.trans (List.length_take_le _ _))]
  exact h.headlines n (hn.trans (List.length_take_le' _ _)) hpos

theorem Sound.concat (h : Sound s rs) (hr : s.Accepts r) (hseq : r.seq = rs.length+1) (hobserves : s.observes r.body = true)
    (hheadline : s.headline (s.fold (rs ++ [r])) ≠ .raises) : Sound s (rs ++ [r]) := by
  refine ⟨fun r' hr' => ?_,h.dense.concat hseq,fun r' hr' => ?_,fun n hn hpos => ?_⟩
  · rcases List.mem_append.mp hr' with hr' | hr'
    · exact h.accepts r' hr'
    · rw [List.mem_singleton.mp hr']
      exact hr
  · rcases List.mem_append.mp hr' with hr' | hr'
    · exact h.observes r' hr'
    · rw [List.mem_singleton.mp hr']
      exact hobserves
  · by_cases hle : n ≤ rs.length
    · rw [List.take_append_of_le_length hle]
      exact h.headlines n hle hpos
    · rw [List.take_of_length_le (by rw [List.length_append,List.length_singleton]; omega)]
      exact hheadline

theorem Schema.fold_concat (s : Schema B K) (rs : List (Record B)) (r : Record B) :
    s.fold (rs ++ [r]) = s.append_skeleton (s.fold rs) r := by
  unfold Schema.fold
  rw [List.foldl_append]
  rfl

lemma take_succ_of_getElem? {m : ℕ} (h : rs[m]? = some r) : rs.take (m+1) = rs.take m ++ [r] := by
  rw [List.take_add_one,h]
  rfl

/-! ## Offsets -/

/-- Where the frame of the last of the first records ends. -/
def endOf (s : Schema B K) (rs : List (Record B)) (n : ℕ) : ℕ := (logOf s (rs.take n)).length

theorem endOf_take {m n : ℕ} (h : n ≤ m) : endOf s (rs.take m) n = endOf s rs n := by
  unfold endOf
  rw [List.take_take,min_eq_left h]

theorem endOf_append {n : ℕ} (h : n ≤ rs.length) (more : List (Record B)) : endOf s (rs ++ more) n = endOf s rs n := by
  unfold endOf
  rw [List.take_append_of_le_length h]

theorem endOf_eq (s : Schema B K) (rs : List (Record B)) (n : ℕ) :
    endOf s rs n = RUN_LOG_MAGIC.length+((framing s).frames (rs.take n)).length := List.length_append

theorem endOf_mono {m n : ℕ} (h : n ≤ m) : endOf s rs n ≤ endOf s rs m := by
  have hle := @Framing.length_frames_take_le _ _ (framing s) (rs.take m) n
  rw [List.take_take,min_eq_left h] at hle
  rw [endOf_eq,endOf_eq]
  omega

theorem endOf_length (s : Schema B K) (rs : List (Record B)) : endOf s rs rs.length = (logOf s rs).length := by
  unfold endOf
  rw [List.take_length]

/-- The records up to this one are there and were synced. -/
structure Durable (s : Schema B K) (synced : ℕ) (rs : List (Record B)) (n : ℕ) : Prop where
  held : n ≤ rs.length
  synced : 0 < n → endOf s rs n ≤ synced

namespace Durable

variable {synced synced' m n : ℕ}

theorem zero (s : Schema B K) (synced : ℕ) (rs : List (Record B)) : Durable s synced rs 0 :=
  ⟨Nat.zero_le _,fun h => absurd h (lt_irrefl 0)⟩

theorem le (h : Durable s synced rs m) (hn : n ≤ m) : Durable s synced rs n :=
  ⟨hn.trans h.held,fun hpos => (endOf_mono hn).trans (h.synced (hpos.trans_le hn))⟩

theorem max (h : Durable s synced rs m) (h' : Durable s synced rs n) : Durable s synced rs (max m n) := by
  rcases le_total m n with hle | hle
  · rwa [max_eq_right hle]
  · rwa [max_eq_left hle]

theorem mono (h : Durable s synced rs n) (hsynced : synced ≤ synced') : Durable s synced' rs n :=
  ⟨h.held,fun hpos => (h.synced hpos).trans hsynced⟩

theorem append (h : Durable s synced rs n) (more : List (Record B)) : Durable s synced (rs ++ more) n := by
  refine ⟨h.held.trans (by rw [List.length_append]; omega),fun hpos => ?_⟩
  rw [endOf_append h.held]
  exact h.synced hpos

theorem take (h : Durable s synced rs n) (hn : n ≤ m) : Durable s synced (rs.take m) n := by
  refine ⟨?_,fun hpos => ?_⟩
  · rw [List.length_take]
    exact le_min hn h.held
  · rw [endOf_take hn]
    exact h.synced hpos

theorem of_length (h : (logOf s rs).length ≤ synced) (hn : n ≤ rs.length) : Durable s synced rs n :=
  ⟨hn,fun _ => (endOf_mono hn).trans (by rw [endOf_length]; exact h)⟩

end Durable

/-! ## Files -/

/-- The bytes of a log for some records, if it is there and its first bytes are whole. -/
inductive HoldsLog (s : Schema B K) : Option Bytes → List (Record B) → Prop
  | absent : HoldsLog s none []
  | magic (n : ℕ) : n < RUN_LOG_MAGIC.length → HoldsLog s (some (RUN_LOG_MAGIC.take n)) []
  | whole (rs : List (Record B)) (t : Bytes) : (framing s).Torn t → HoldsLog s (some (logOf s rs ++ t)) rs

def keyframeAt (s : Schema B K) (rs : List (Record B)) (n : ℕ) : Keyframe K := ⟨n,endOf s rs n,s.fold (rs.take n)⟩

/-- The files are sound for these records. -/
structure Disk.Keeps (s : Schema B K) (d : Disk K) (rs : List (Record B)) : Prop where
  sound : Sound s rs
  log : HoldsLog s d.log rs
  synced : d.synced ≤ (d.log.getD []).length
  head : ∀ n, d.head = some n → Durable s d.synced rs n
  keyframes : ∀ n k, d.keyframes.find? n = some k → Durable s d.synced rs n ∧ k = keyframeAt s rs n

namespace Disk.Keeps

variable {d : Disk K}

theorem cut (h : d.Keeps s rs) (bytes : ℕ) :
    ∃ m ≤ rs.length, Disk.Keeps s { d with log := d.log.map (List.take (max d.synced bytes)) } (rs.take m) ∧
      ∀ n, Durable s d.synced rs n → Durable s d.synced (rs.take m) n := by
  have hsynced : d.synced ≤ ((d.log.map (List.take (max d.synced bytes))).getD []).length := by
    have hold := h.synced
    cases hlog : d.log with
    | none =>
      rw [hlog] at hold
      exact hold
    | some log =>
      rw [hlog] at hold
      show d.synced ≤ (log.take (max d.synced bytes)).length
      rw [List.length_take]
      exact le_min (le_max_left _ _) hold
  -- it is enough to say where the cut is, behind every record that was synced
  suffices hcut : ∃ m ≤ rs.length, HoldsLog s (d.log.map (List.take (max d.synced bytes))) (rs.take m) ∧
      ∀ n, Durable s d.synced rs n → n ≤ m by
    obtain ⟨m,hm,hlog,hlast⟩ := hcut
    refine ⟨m,hm,⟨h.sound.take m,hlog,hsynced,fun n hn => ?_,fun n k hk => ?_⟩,fun n hn => hn.take (hlast n hn)⟩
    · exact (h.head n hn).take (hlast n (h.head n hn))
    · obtain ⟨hn,rfl⟩ := h.keyframes n k hk
      have hle := hlast n hn
      refine ⟨hn.take hle,?_⟩
      rw [keyframeAt,keyframeAt,endOf_take hle,List.take_take,min_eq_left hle]
  have hlog := h.log
  generalize d.log = log at hlog
  cases hlog with
  | absent => exact ⟨0,le_rfl,.absent,fun n hn => hn.held⟩
  | magic n hn =>
    refine ⟨0,le_rfl,?_,fun n hn => hn.held⟩
    show HoldsLog s (some ((RUN_LOG_MAGIC.take n).take _)) []
    rw [List.take_take]
    exact .magic _ (lt_of_le_of_lt (min_le_right _ _) hn)
  | whole _ t ht =>
    by_cases hmagic : max d.synced bytes < RUN_LOG_MAGIC.length
    · refine ⟨0,Nat.zero_le _,?_,fun n hn => ?_⟩
      · show HoldsLog s (some ((logOf s rs ++ t).take _)) []
        rw [logOf,List.append_assoc,List.take_append_of_le_length hmagic.le]
        exact .magic _ hmagic
      · by_contra hpos
        have hend := hn.synced (Nat.pos_of_ne_zero fun h => hpos h.le)
        have hle := le_max_left d.synced bytes
        rw [endOf_eq] at hend
        omega
    · obtain ⟨m,t',hm,heq,ht',hlast⟩ := Framing.take_frames (F := framing s) h.sound.accepts ht
        (max d.synced bytes-RUN_LOG_MAGIC.length)
      refine ⟨m,hm,?_,fun n hn => ?_⟩
      · show HoldsLog s (some ((logOf s rs ++ t).take _)) _
        rw [logOf,List.append_assoc,List.take_append,heq,List.take_of_length_le (not_lt.mp hmagic),← List.append_assoc]
        exact .whole (rs.take m) t' ht'
      · rcases Nat.eq_zero_or_pos n with rfl | hpos
        · exact Nat.zero_le _
        · have hend := hn.synced hpos
          have hle := le_max_left d.synced bytes
          rw [endOf_eq] at hend
          refine hlast n hn.held ?_
          omega

theorem sync (h : d.Keeps s rs) {synced : ℕ} (hsynced : d.synced ≤ synced) (hlength : synced ≤ (d.log.getD []).length) :
    Disk.Keeps s { d with synced := synced } rs :=
  ⟨h.sound,h.log,hlength,fun n hn => (h.head n hn).mono hsynced,
    fun n k hk => ⟨(h.keyframes n k hk).1.mono hsynced,(h.keyframes n k hk).2⟩⟩

theorem concat (h : d.Keeps s rs) (hlog : d.log = some (logOf s rs)) (hr : Sound s (rs ++ [r])) :
    Disk.Keeps s { d with log := some (logOf s rs ++ frameOf s r) } (rs ++ [r]) := by
  have hwhole : logOf s rs ++ frameOf s r = logOf s (rs ++ [r]) ++ [] := by
    rw [List.append_nil,logOf,logOf,Framing.frames_concat,List.append_assoc]
    rfl
  refine ⟨hr,?_,?_,fun n hn => (h.head n hn).append _,fun n k hk => ?_⟩
  · show HoldsLog s (some (logOf s rs ++ frameOf s r)) (rs ++ [r])
    rw [hwhole]
    exact .whole _ _ Framing.torn_nil
  · have hold := h.synced
    rw [hlog] at hold
    show d.synced ≤ (logOf s rs ++ frameOf s r).length
    rw [List.length_append]
    exact hold.trans (Nat.le_add_right _ _)
  · obtain ⟨hn,rfl⟩ := h.keyframes n k hk
    refine ⟨hn.append _,?_⟩
    rw [keyframeAt,keyframeAt,endOf_append hn.held,List.take_append_of_le_length hn.held]

theorem tear (h : d.Keeps s rs) (hlog : d.log = some (logOf s rs)) {t : Bytes} (ht : (framing s).Torn t) :
    Disk.Keeps s { d with log := some (logOf s rs ++ t) } rs := by
  refine ⟨h.sound,.whole _ _ ht,?_,h.head,h.keyframes⟩
  have hold := h.synced
  rw [hlog] at hold
  show d.synced ≤ (logOf s rs ++ t).length
  rw [List.length_append]
  exact hold.trans (Nat.le_add_right _ _)

/-- Publishing a keyframe of records that were synced raises nothing by itself. -/
theorem write_keyframe [DecidableEq K] (h : d.Keeps s rs) {n : ℕ} (hn : Durable s d.synced rs n) (p : Publish) :
    (d.write_keyframe (keyframeAt s rs n) p).1.Keeps s rs ∧ (d.write_keyframe (keyframeAt s rs n) p).1.log = d.log ∧
      (d.write_keyframe (keyframeAt s rs n) p).1.synced = d.synced ∧
      ((d.write_keyframe (keyframeAt s rs n) p).2 = false ↔ p = .ok) := by
  unfold Disk.write_keyframe
  by_cases hp : p = .before
  · subst hp
    rw [if_pos rfl]
    exact ⟨h,rfl,rfl,by simp⟩
  rw [if_neg hp]
  have hafter : decide (p = .after) = false ↔ p = .ok := by
    cases p with
    | ok => decide
    | before => exact absurd rfl hp
    | after => decide
  cases hfind : d.keyframes.find? (keyframeAt s rs n).through_seq with
  | some old =>
    obtain ⟨-,rfl⟩ := h.keyframes _ _ hfind
    refine ⟨h,rfl,rfl,?_⟩
    show (decide (keyframeAt s rs n ≠ keyframeAt s rs n) || decide (p = .after)) = false ↔ p = .ok
    simpa using hafter
  | none =>
    refine ⟨⟨h.sound,h.log,h.synced,h.head,fun n' k hk => ?_⟩,rfl,rfl,hafter⟩
    rw [Table.find?_insert] at hk
    split_ifs at hk with hn'
    · obtain rfl := Option.some.inj hk
      rw [hn']
      exact ⟨hn,rfl⟩
    · exact h.keyframes n' k hk

theorem publish_head (h : d.Keeps s rs) {n : ℕ} (hn : Durable s d.synced rs n) {headline : Headline}
    (hheadline : headline ≠ .raises) (p : Publish) :
    (d.publish_head n headline p).1.Keeps s rs ∧ (d.publish_head n headline p).1.log = d.log ∧
      (d.publish_head n headline p).1.synced = d.synced ∧ (p = .ok → (d.publish_head n headline p).2 = false) := by
  cases headline with
  | raises => exact absurd rfl hheadline
  | absent => exact ⟨h,rfl,rfl,fun _ => rfl⟩
  | present =>
    by_cases hp : p = .before
    · subst hp
      exact ⟨h,rfl,rfl,fun hok => (by cases hok)⟩
    · simp only [Disk.publish_head,if_neg hp]
      refine ⟨⟨h.sound,h.log,h.synced,fun n' hn' => ?_,h.keyframes⟩,trivial,trivial,fun hok => ?_⟩
      · obtain rfl := Option.some.inj hn'
        exact hn
      · subst hok
        rfl

end Disk.Keeps
end Vibesys.Runlog
