import Vibesys.Runlog.Committer

/-!
# Opening a run.log

Files that are sound for some records are opened with exactly these records, after a torn frame is cut off. An opening
that is cut short leaves the files sound.
-/
namespace Vibesys.Runlog

open Library

variable {B K : Type} {s : Schema B K} {rs : List (Record B)}

/-- The files are sound for the first of the records, and for all of them while the writer is open. -/
structure Store.Holds (s : Schema B K) (w : Store B K) (rs : List (Record B)) : Prop where
  held : rs <+: w.records
  keeps : w.disk.Keeps s rs
  returned : Durable s w.disk.synced rs w.returned
  writer : ∀ v ∈ w.writer, rs = w.records ∧ v.Inv s w.disk rs

/-! ## Opening -/

theorem Disk.Keeps.truncate {d : Disk K} (h : d.Keeps s rs) :
    Disk.Keeps s { d with log := some (logOf s rs), synced := min d.synced (logOf s rs).length } rs ∧
      ∀ n, Durable s d.synced rs n → Durable s (min d.synced (logOf s rs).length) rs n := by
  have hdurable : ∀ n, Durable s d.synced rs n → Durable s (min d.synced (logOf s rs).length) rs n := by
    intro n hn
    refine ⟨hn.held,fun hpos => le_min (hn.synced hpos) ?_⟩
    rw [← endOf_length]
    exact endOf_mono hn.held
  refine ⟨⟨h.sound,?_,min_le_right _ _,fun n hn => hdurable n (h.head n hn),fun n k hk => ?_⟩,hdurable⟩
  · have hwhole : HoldsLog s (some (logOf s rs ++ [])) rs := .whole rs [] Framing.torn_nil
    rwa [List.append_nil] at hwhole
  · exact ⟨hdurable n (h.keyframes n k hk).1,(h.keyframes n k hk).2⟩

theorem Disk.Keeps.settle {d : Disk K} (h : d.Keeps s rs) :
    Disk.Keeps s { d with log := some (logOf s rs), synced := (logOf s rs).length } rs :=
  h.truncate.1.sync (min_le_right _ _) le_rfl

theorem recover_eq {d : Disk K} (h : d.Keeps s rs) {bytes : Bytes} (hlog : d.log = some bytes) :
    s.recover d bytes = some (logOf s rs,rs) := by
  have hobserves : (rs.any fun r => !s.observes r.body) = false := by
    refine List.any_eq_false.mpr fun r hr => ?_
    rw [h.sound.observes r hr]
    decide
  have hhead : ¬rs.length < d.head.getD 0 := by
    cases hd : d.head with
    | none => exact Nat.not_lt_zero _
    | some n => exact not_lt.mpr (h.head n hd).held
  have hholds := h.log
  rw [hlog] at hholds
  cases hholds with
  | magic n hn =>
    simp only [Schema.recover,RunLogReader_magic hn]
    rw [if_neg (by simp [Dense]),if_neg hhead]
    simp [logOf]
  | whole _ t ht =>
    obtain ⟨hrecords,hoffset,hstop⟩ := RunLogReader_logOf h.sound.accepts ht
    have hpos : (logOf s rs).length ≠ 0 := by
      rw [logOf,List.length_append]
      exact Nat.ne_of_gt (Nat.add_pos_left (by decide) _)
    simp only [Schema.recover,hrecords,hoffset]
    rw [if_neg (by simp [h.sound.dense,hobserves]),if_neg hhead]
    rcases hstop with ⟨hstop,rfl⟩ | hstop
    · rw [hstop,List.append_nil]
    · rw [hstop,if_neg hpos]
      simp

theorem inv_opened (s : Schema B K) (rs : List (Record B)) {log_offset : ℕ}
    (hoffset : 0 < rs.length → log_offset = (logOf s rs).length) {d : Disk K} (hlog : d.log = some (logOf s rs))
    (hsynced : d.synced = (logOf s rs).length) : (s.opened rs log_offset).Inv s d rs := by
  refine ⟨⟨[],Framing.torn_nil,?_,fun _ => rfl⟩,fun _ => rfl,?_,?_,fun hpos => ?_,le_rfl,le_rfl,fun _ hj => (by cases hj),
    fun _ => ⟨le_rfl,rfl⟩,fun _ hj => (by cases hj),fun _ hj => (by cases hj),fun _ hj => (by cases hj)⟩
  · rw [List.append_nil]
    exact hlog
  · rw [hsynced]
    exact Durable.of_length le_rfl le_rfl
  · show s.fold rs = s.fold (rs.take rs.length)
    rw [List.take_length]
  · show log_offset = endOf s rs rs.length
    rw [endOf_length]
    exact hoffset hpos

section Opening

variable {w : Store B K}

theorem Store.Holds.closed (h : w.Holds s rs) (hclosed : w.writer = none) {d : Disk K} (hd : d.Keeps s rs)
    (hreturned : Durable s d.synced rs w.returned) : Store.Holds s { w with disk := d } rs := by
  refine ⟨h.held,hd,hreturned,fun v hv => ?_⟩
  have hnone : w.writer = some v := hv
  rw [hclosed] at hnone
  cases hnone

/-- A log that is synced whole. -/
def Disk.IsSettled (s : Schema B K) (d : Disk K) (rs : List (Record B)) : Prop :=
  d.Keeps s rs ∧ d.log = some (logOf s rs) ∧ d.synced = (logOf s rs).length

theorem Store.headed_settled {d : Disk K} (h : d.IsSettled s rs) (p : Publish) :
    (Store.headed s d rs p).1.IsSettled s rs ∧ (p = .ok → (Store.headed s d rs p).2 = false) := by
  obtain ⟨hkeeps,hlog,hsynced⟩ := h
  unfold Store.headed
  split
  · exact ⟨⟨hkeeps,hlog,hsynced⟩,fun _ => rfl⟩
  · rename_i hempty
    have hpos : 0 < rs.length := List.length_pos_of_ne_nil fun hnil => hempty (by rw [hnil]; rfl)
    have hheadline : s.headline (s.fold rs) ≠ .raises := by
      have := hkeeps.sound.headlines rs.length le_rfl hpos
      rwa [List.take_length] at this
    obtain ⟨hkeeps',hlog',hsynced',hok⟩ := hkeeps.publish_head (Durable.of_length hsynced.ge le_rfl) hheadline p
    exact ⟨⟨hkeeps',hlog'.trans hlog,hsynced'.trans hsynced⟩,hok⟩

theorem Store.Holds.created (h : w.Holds s []) (hclosed : w.writer = none) (bytes : ℕ) :
    Store.Holds s { w with disk := { w.disk with log := some (RUN_LOG_MAGIC.take bytes), synced := 0 } } [] := by
  have hzero : ∀ n, Durable s w.disk.synced [] n → Durable s 0 [] n := by
    intro n hn
    rw [Nat.le_zero.mp hn.held]
    exact Durable.zero s 0 []
  refine h.closed hclosed ⟨h.keeps.sound,?_,Nat.zero_le _,fun n hn => hzero n (h.keeps.head n hn),fun n k hk => ?_⟩
    (hzero _ h.returned)
  · by_cases hbytes : bytes < RUN_LOG_MAGIC.length
    · exact .magic bytes hbytes
    · have hwhole : HoldsLog s (some (logOf s [] ++ [])) [] := .whole [] [] Framing.torn_nil
      rw [List.append_nil] at hwhole
      show HoldsLog s (some (RUN_LOG_MAGIC.take bytes)) []
      rw [List.take_of_length_le (not_lt.mp hbytes)]
      exact hwhole
  · exact ⟨hzero n (h.keeps.keyframes n k hk).1,(h.keeps.keyframes n k hk).2⟩

variable [DecidableEq K]

theorem Store.framed_settled {d : Disk K} (h : d.IsSettled s rs) {log_offset : ℕ}
    (hoffset : 0 < rs.length → log_offset = (logOf s rs).length) (p : Publish) :
    (Store.framed s d rs log_offset p).1.IsSettled s rs ∧ (p = .ok → (Store.framed s d rs log_offset p).2 = false) := by
  obtain ⟨hkeeps,hlog,hsynced⟩ := h
  unfold Store.framed
  split
  · exact ⟨⟨hkeeps,hlog,hsynced⟩,fun _ => rfl⟩
  · rename_i hempty
    have hpos : 0 < rs.length := List.length_pos_of_ne_nil fun hnil => hempty (by rw [hnil]; rfl)
    have hskeleton : (s.opened rs log_offset).skeleton = keyframeAt s rs rs.length := by
      rw [keyframeAt,endOf_length,List.take_length,← hoffset hpos]
      rfl
    obtain ⟨hkeeps',hlog',hsynced',hok⟩ := hkeeps.write_keyframe (Durable.of_length hsynced.ge le_rfl) p
    rw [hskeleton]
    exact ⟨⟨hkeeps',hlog'.trans hlog,hsynced'.trans hsynced⟩,hok.mpr⟩

theorem Store.Holds.reopen (h : w.Holds s rs) (hclosed : w.writer = none) {log_offset : ℕ}
    (hoffset : 0 < rs.length → log_offset = (logOf s rs).length) (cut : Option Cut) :
    (w.reopen s (logOf s rs) log_offset rs cut).Holds s rs ∧
      (cut = none → (w.reopen s (logOf s rs) log_offset rs cut).writer = some (s.opened rs log_offset) ∧
        (w.reopen s (logOf s rs) log_offset rs cut).records = rs) := by
  have hreturned : Durable s (logOf s rs).length rs w.returned := Durable.of_length le_rfl h.returned.held
  have hsettled : Disk.IsSettled s { w.disk with log := some (logOf s rs), synced := (logOf s rs).length } rs :=
    ⟨h.keeps.settle,rfl,rfl⟩
  have hclose : ∀ {d : Disk K}, d.IsSettled s rs → Store.Holds s { w with disk := d } rs := by
    intro d hd
    refine h.closed hclosed hd.1 ?_
    rw [hd.2.2]
    exact hreturned
  obtain ⟨hheaded,hraised⟩ := Store.headed_settled hsettled .ok
  unfold Store.reopen
  simp only [hraised rfl,Bool.false_eq_true,if_false]
  cases cut with
  | some cut =>
    refine ⟨?_,fun hno => (by cases hno)⟩
    cases cut with
    | created bytes => exact h
    | truncated => exact h.closed hclosed h.keeps.truncate.1 (h.keeps.truncate.2 _ h.returned)
    | synced => exact hclose hsettled
    | head p => exact hclose (Store.headed_settled hsettled p).1
    | keyframe p => exact hclose (Store.framed_settled hheaded hoffset p).1
  | none =>
    obtain ⟨hframed,hraised'⟩ := Store.framed_settled hheaded hoffset .ok
    simp only [hraised' rfl,Bool.false_eq_true,if_false]
    refine ⟨⟨List.prefix_rfl,hframed.1,?_,fun v hv => ?_⟩,fun _ => ⟨trivial,trivial⟩⟩
    · show Durable s _ rs w.returned
      rw [hframed.2.2]
      exact hreturned
    · obtain rfl := Option.some.inj hv
      exact ⟨rfl,inv_opened s rs hoffset hframed.2.1 hframed.2.2⟩

theorem Store.Holds.opens (h : w.Holds s rs) (hclosed : w.writer = none) (cut : Option Cut) :
    (w.opens s cut).Holds s rs ∧
      (cut = none → (∃ log_offset, (w.opens s cut).writer = some (s.opened rs log_offset)) ∧
        (w.opens s cut).records = rs) := by
  cases hlog : w.disk.log with
  | none =>
    have hholds := h.keeps.log
    rw [hlog] at hholds
    cases hholds
    have hoffset : 0 < ([] : List (Record B)).length → 0 = (logOf s []).length := fun hpos => absurd hpos (lt_irrefl 0)
    have hreopen : ∀ cut, (∀ bytes, cut ≠ some (.created bytes)) → w.opens s cut = w.reopen s (logOf s []) 0 [] cut := by
      intro cut hcut
      simp only [Store.opens,hclosed,hlog]
      rfl
    by_cases hcut : ∃ bytes, cut = some (.created bytes)
    · obtain ⟨bytes,rfl⟩ := hcut
      refine ⟨?_,fun hno => (by cases hno)⟩
      simpa only [Store.opens,hclosed,hlog] using h.created hclosed bytes
    · rw [hreopen cut fun bytes heq => hcut ⟨bytes,heq⟩]
      obtain ⟨hholds,hopen⟩ := h.reopen hclosed hoffset cut
      exact ⟨hholds,fun hnone => ⟨⟨_,(hopen hnone).1⟩,(hopen hnone).2⟩⟩
  | some bytes =>
    have hopens : w.opens s cut = w.reopen s (logOf s rs) (logOf s rs).length rs cut := by
      simp only [Store.opens,hclosed,hlog,recover_eq h.keeps hlog]
    rw [hopens]
    obtain ⟨hholds,hopen⟩ := h.reopen hclosed (fun _ => rfl) cut
    exact ⟨hholds,fun hnone => ⟨⟨_,(hopen hnone).1⟩,(hopen hnone).2⟩⟩

end Opening

end Vibesys.Runlog
