import Vibesys.Schedule.Contest

/-!
# A flood of old jobs

Contests in which every run submits a job in each round. One run more than the scheduler remembers
grants can keep a newer run from ever starting: while the others take turns, none of them has a grant
that is remembered when its turn comes, and their backlogs are older.
-/
namespace Vibesys.Schedule
open Vibesys.Core

def runNamed (i : ℕ) : RunID := String.ofList (List.replicate i 'r')

def job (j run : ℕ) (submitted : Time) : Candidate where
  id := String.ofList (List.replicate j 'j')
  options := Only [⟨DefaultPlacement,1,false⟩]
  run := runNamed run
  submitted := submitted
  seq := j
  first := false
  leased := none

theorem runNamed_inj {i j : ℕ} (h : runNamed i = runNamed j) : i = j := by
  have := congrArg (fun s => s.toList.length) h
  simpa [runNamed] using this

def runsBelow (m : ℕ) : Finset RunID := (Finset.range m).image runNamed

theorem card_runsBelow (m : ℕ) : (runsBelow m).card = m := by
  rw [runsBelow,Finset.card_image_of_injective _ fun _ _ => runNamed_inj,Finset.card_range]

/-- One new job of each run in each round, numbered from `first` on. -/
def steady (m first t : ℕ) : List Candidate := (List.range m).map fun i => job (first+m*t+i) i (t+2)

def atSlot (waiting : List Candidate) : State := ⟨[⟨DefaultPlacement,1⟩],[],waiting,[]⟩

/-- Jobs of the runs below `m`, at least one of each, numbered below `first`. -/
structure Backlog (m first : ℕ) (waiting : List Candidate) : Prop where
  numbers : (waiting.map Candidate.seq).Nodup
  jobs : ∀ c ∈ waiting, ∃ j run submitted, j < first ∧ run < m ∧ c = job j run submitted
  every : ∀ i < m, ∃ c ∈ waiting, c.run = runNamed i

theorem seq_steady (m first t : ℕ) : (steady m first t).map Candidate.seq = List.range' (first+m*t) m := by
  rw [steady,List.map_map,List.range'_eq_map_range]
  rfl

def submittedBy (m first : ℕ) (waiting : List Candidate) (t : ℕ) : List Candidate :=
  waiting ++ (List.range t).flatMap (steady m first)

theorem seq_submittedBy (m first : ℕ) (waiting : List Candidate) (t : ℕ) :
    (submittedBy m first waiting t).map Candidate.seq = waiting.map Candidate.seq ++ List.range' first (m*t) := by
  rw [submittedBy,List.map_append,List.map_flatMap]
  congr 1
  induction t with
  | zero => simp
  | succ t ih =>
    rw [List.range_succ,List.flatMap_append,ih,List.flatMap_singleton,seq_steady,Nat.mul_succ,List.range'_append_1]

theorem waiting_sublist (m first : ℕ) (waiting : List Candidate) (t : ℕ) :
    (contest (atSlot waiting) (steady m first) t).waiting.Sublist (submittedBy m first waiting t) := by
  induction t with
  | zero => simp [submittedBy,contest,atSlot]
  | succ t ih =>
    rw [submittedBy,List.range_succ,List.flatMap_append,List.flatMap_singleton,← List.append_assoc]
    exact (List.filter_sublist.trans ih).append_right _

theorem Backlog.job_of_mem {m first : ℕ} {waiting : List Candidate} (h : Backlog m first waiting) {t : ℕ} {c : Candidate}
    (hc : c ∈ submittedBy m first waiting t) : ∃ j run submitted, run < m ∧ c = job j run submitted := by
  rcases List.mem_append.mp hc with hc | hc
  · obtain ⟨j,run,submitted,_,hrun,rfl⟩ := h.jobs c hc
    exact ⟨j,run,submitted,hrun,rfl⟩
  · obtain ⟨u,_,hc⟩ := List.mem_flatMap.mp hc
    obtain ⟨i,hi,rfl⟩ := List.mem_map.mp hc
    exact ⟨_,i,_,List.mem_range.mp hi,rfl⟩

theorem Backlog.contested {m first : ℕ} {waiting : List Candidate} (h : Backlog m first waiting) :
    Contested DefaultPlacement (runsBelow m) (atSlot waiting) (steady m first) := by
  refine ⟨rfl,rfl,fun t => ?_⟩
  have hsub := waiting_sublist m first waiting t
  have hjob : ∀ c ∈ (contest (atSlot waiting) (steady m first) t).waiting,
      ∃ j run submitted, run < m ∧ c = job j run submitted := fun c hc => h.job_of_mem (hsub.subset hc)
  refine ⟨?_,fun c hc => ?_,fun run hrun => ?_⟩
  · have hseq : ((contest (atSlot waiting) (steady m first) t).waiting.map Candidate.seq).Nodup := by
      refine List.Nodup.sublist (hsub.map _) ?_
      rw [seq_submittedBy,List.nodup_append]
      refine ⟨h.numbers,List.nodup_range',?_⟩
      intro a ha b hb
      obtain ⟨c,hc,rfl⟩ := List.mem_map.mp ha
      obtain ⟨j,_,_,hj,_,rfl⟩ := h.jobs c hc
      have := (List.mem_range'_1.mp hb).1
      exact (show j < b by omega).ne
    have hids : (contest (atSlot waiting) (steady m first) t).waiting.map Candidate.id
        = ((contest (atSlot waiting) (steady m first) t).waiting.map Candidate.seq).map
          fun j => String.ofList (List.replicate j 'j') := by
      rw [List.map_map]
      refine List.map_congr_left fun c hc => ?_
      obtain ⟨j,run,submitted,_,rfl⟩ := hjob c hc
      rfl
    rw [hids]
    refine hseq.map fun i j hij => ?_
    have := congrArg (fun s => s.toList.length) hij
    simpa using this
  · obtain ⟨j,run,submitted,hrun,rfl⟩ := hjob c hc
    exact ⟨Finset.mem_image.mpr ⟨run,Finset.mem_range.mpr hrun,rfl⟩,rfl,rfl,false,rfl⟩
  · obtain ⟨i,hi,rfl⟩ := Finset.mem_image.mp hrun
    have hi := Finset.mem_range.mp hi
    cases t with
    | zero => exact h.every i hi
    | succ t =>
      exact ⟨job (first+m*t+i) i (t+2),List.mem_append_right _ (List.mem_map.mpr ⟨i,List.mem_range.mpr hi,rfl⟩),rfl⟩

theorem settled_iff_won {resource : ResourceID} {runs : Finset RunID} {s : State} (hs : Slot resource runs s) {c : Candidate}
    {exclusive : Bool} (h : Won resource s c exclusive) {d : Candidate} (hd : d ∈ s.waiting) :
    d.id ∈ settledIDs (step s fairShare) ↔ d = c := by
  have hstart : ∀ {id : ID} {o : JobOption}, .start id o ∈ step s fairShare ↔ (id,o) ∈ starts (step s fairShare) := by
    intro id o
    rw [starts,List.mem_filterMap]
    constructor
    · exact fun hmem => ⟨_,hmem,rfl⟩
    · rintro ⟨x,hmem,hx⟩
      cases x <;> simp at hx
      obtain ⟨rfl,rfl⟩ := hx
      exact hmem
  constructor
  · intro hid
    obtain ⟨x,hx,htarget⟩ := List.mem_map.mp hid
    obtain ⟨hx,hsettles⟩ := List.mem_filter.mp hx
    cases x with
    | start id o =>
      have hmem := hstart.mp hx
      rw [h.starts,List.mem_singleton,Prod.mk.injEq] at hmem
      exact eq_of_id hs.queued.ids hd h.waits (htarget.symm.trans hmem.1)
    | wait => cases hsettles
    | refuse id why =>
      obtain rfl : id = d.id := htarget
      obtain ⟨_,_,e,hoptions⟩ := (hs.queued.ordinary d hd).2
      refine absurd ⟨⟨"",[⟨resource,1,e⟩]⟩,?_,?_⟩ ((refuse_mem_step_iff hs.queued.ids fairShare hd).mp ⟨why,hx⟩)
      · simp [hoptions,Only]
      · simp [Grantable,Book.needs_one,hs.resources,capacityOf]
  · rintro rfl
    have hmem : (d.id,⟨"",[⟨resource,1,exclusive⟩]⟩) ∈ starts (step s fairShare) := by
      rw [h.starts]
      exact List.mem_singleton_self _
    exact List.mem_map.mpr ⟨_,List.mem_filter.mpr ⟨hstart.mpr hmem,rfl⟩,rfl⟩

/-- The backlog of 33 runs of `n` jobs, and one newer job of another run. -/
def flood (n : ℕ) : List Candidate := (List.range n).map (fun j => job j (j%33) 0) ++ [job n 33 1]

theorem backlog_flood (n : ℕ) : Backlog 34 (n+34) (flood (n+33)) where
  numbers := by
    have hseq : (flood (n+33)).map Candidate.seq = List.range (n+34) := by
      rw [List.range_succ (n := n+33),flood,List.map_append,List.map_map]
      congr 1
      exact List.map_id _
    rw [hseq]
    exact List.nodup_range
  jobs c hc := by
    rcases List.mem_append.mp hc with hc | hc
    · obtain ⟨j,hj,rfl⟩ := List.mem_map.mp hc
      have := List.mem_range.mp hj
      exact ⟨j,j%33,0,by omega,by omega,rfl⟩
    · rw [List.mem_singleton.mp hc]
      exact ⟨n+33,33,1,by omega,by omega,rfl⟩
  every i hi := by
    by_cases hlast : i = 33
    · subst hlast
      exact ⟨job (n+33) 33 1,by simp [flood],rfl⟩
    · refine ⟨job i (i%33) 0,List.mem_append_left _ (List.mem_map.mpr ⟨i,List.mem_range.mpr (by omega),rfl⟩),?_⟩
      rw [show i%33 = i by omega]
      rfl

/-- While the backlog lasts, its jobs start one after another. -/
structure Flooded (n t : ℕ) (waiting : List Candidate) : Prop where
  left : ∀ j, t ≤ j → j < n → job j (j%33) 0 ∈ waiting
  waits : ∀ c ∈ waiting, (∃ j, t ≤ j ∧ j < n ∧ c = job j (j%33) 0) ∨ 1 ≤ c.submitted

theorem Flooded.first {n t : ℕ} {waiting : List Candidate} (h : Flooded n t waiting) {c : Candidate} (hc : c ∈ waiting) :
    c = job t (t%33) 0 ∨ FairShare.arrivedBefore (job t (t%33) 0) c = true := by
  rcases h.waits c hc with ⟨j,hle,_,rfl⟩ | hlater
  · rcases hle.eq_or_lt with rfl | hlt
    · exact .inl rfl
    · exact .inr (by simp [FairShare.arrivedBefore,job,hlt])
  · refine .inr ?_
    have hlt : (0 : ℤ) < c.submitted := by exact_mod_cast hlater
    simp [FairShare.arrivedBefore,job,hlt]

theorem flood_won (n : ℕ) {won : ℕ → Candidate} {exclusive : ℕ → Bool}
    (h : Winners DefaultPlacement (atSlot (flood (n+33))) (steady 34 (n+34)) won exclusive) {t : ℕ} (ht : t ≤ n+33) :
    Flooded (n+33) t (contest (atSlot (flood (n+33))) (steady 34 (n+34)) t).waiting
      ∧ ∀ u < t, won u = job u (u%33) 0 := by
  have hslot := fun t => (backlog_flood n).contested.slot t
  induction t with
  | zero =>
    refine ⟨⟨fun j _ hj => List.mem_append_left _ (List.mem_map.mpr ⟨j,List.mem_range.mpr hj,rfl⟩),fun c hc => ?_⟩,nofun⟩
    rcases List.mem_append.mp hc with hc | hc
    · obtain ⟨j,hj,rfl⟩ := List.mem_map.mp hc
      exact .inl ⟨j,Nat.zero_le _,List.mem_range.mp hj,rfl⟩
    · rw [List.mem_singleton.mp hc]
      exact .inr le_rfl
  | succ t ih =>
    obtain ⟨hflooded,hbefore⟩ := ih (by omega)
    have hmem := hflooded.left t le_rfl (by omega)
    -- The run of the oldest job has no grant that is remembered, so it used as little as the winner's.
    have hzero : countedUse DefaultPlacement (contest (atSlot (flood (n+33))) (steady 34 (n+34)) t) (runNamed (t%33)) = 0 := by
      refine (h.usage_eq_zero (.inl rfl) (hslot t).free _).mpr fun u hlt hle heq => ?_
      rw [hbefore u hlt] at heq
      have := runNamed_inj heq
      unfold RecentGrants at hle
      omega
    have hleast := (h.won t).least _ hmem
    have hsame : countedUse DefaultPlacement (contest (atSlot (flood (n+33))) (steady 34 (n+34)) t) (won t).run = 0 :=
      le_antisymm (hleast.trans_eq hzero) (le_max_right _ _)
    have hwon : won t = job t (t%33) 0 := by
      have hnot := (h.won t).oldest _ hmem (fun d hd _ => hflooded.first hd) (hzero.trans hsame.symm)
      rcases hflooded.first (h.won t).waits with heq | hearlier
      · exact heq
      · rw [hnot] at hearlier
        cases hearlier
    refine ⟨⟨fun j hj hlt => ?_,fun c hc => ?_⟩,fun u hu => ?_⟩
    · refine List.mem_append_left _ (List.mem_filter.mpr ⟨hflooded.left j (by omega) hlt,?_⟩)
      have hne : job j (j%33) 0 ≠ won t := by
        rw [hwon]
        intro heq
        have := congrArg Candidate.seq heq
        simp only [job] at this
        omega
      simpa using (settled_iff_won (hslot t) (h.won t) (hflooded.left j (by omega) hlt)).not.mpr hne
    · rcases List.mem_append.mp hc with hc | hc
      · obtain ⟨hc,hsettled⟩ := List.mem_filter.mp hc
        have hne : c ≠ won t := (settled_iff_won (hslot t) (h.won t) hc).not.mp (by simpa using hsettled)
        refine (hflooded.waits c hc).imp_left fun ⟨j,hle,hlt,hj⟩ => ⟨j,?_,hlt,hj⟩
        rcases hle.eq_or_lt with rfl | hlt'
        · exact absurd (hj.trans hwon.symm) hne
        · exact hlt'
      · obtain ⟨i,_,rfl⟩ := List.mem_map.mp hc
        have hlater : (1 : ℤ) ≤ (t : ℤ)+2 := by omega
        exact .inr hlater
    · rcases (Nat.lt_succ_iff.mp hu).eq_or_lt with rfl | hlt
      · exact hwon
      · exact hbefore u hlt

/-- With 34 runs no bound holds: one of them can be passed over for any number of rounds. -/
theorem fair_share_starves :
    ¬∃ B, ∀ (resource : ResourceID) (runs : Finset RunID), runs.card = 34 → ∀ (s : State) (arrivals : ℕ → List Candidate),
      Contested resource runs s arrivals → ∀ run ∈ runs, ∀ t, ∃ k < B, run ∈ startedRuns (contest s arrivals (t+k)) := by
  rintro ⟨B,hB⟩
  have hcontested := (backlog_flood B).contested
  have hrun : runNamed 33 ∈ runsBelow 34 := Finset.mem_image.mpr ⟨33,by simp,rfl⟩
  obtain ⟨won,exclusive,hwon,_⟩ := hcontested.winners ⟨_,hrun⟩
  obtain ⟨k,hk,hstarted⟩ := hB DefaultPlacement (runsBelow 34) (card_runsBelow 34) _ _ hcontested _ hrun 0
  rw [Nat.zero_add,hwon.startedRuns_eq,(flood_won B hwon (by omega : k+1 ≤ B+33)).2 k (by omega)] at hstarted
  have := runNamed_inj (List.mem_singleton.mp hstarted)
  omega

/-- Two runs with one job each, which submit another in every round. -/
theorem fair_share_turn_two :
    ∃ B, ∀ t, ∃ k < B, runNamed 1 ∈ startedRuns (contest (atSlot [job 0 0 0,job 1 1 0]) (steady 2 2) (t+k)) := by
  obtain ⟨B,hB⟩ := fair_share_turn 2 (by decide)
  have hbacklog : Backlog 2 2 [job 0 0 0,job 1 1 0] := by
    refine ⟨by decide,fun c hc => ?_,fun i hi => ?_⟩
    · rcases List.mem_pair.mp hc with rfl | rfl
      · exact ⟨0,0,0,by decide,by decide,rfl⟩
      · exact ⟨1,1,0,by decide,by decide,rfl⟩
    · obtain rfl | rfl : i = 0 ∨ i = 1 := by omega
      · exact ⟨job 0 0 0,by simp,rfl⟩
      · exact ⟨job 1 1 0,by simp,rfl⟩
  exact ⟨B,hB DefaultPlacement (runsBelow 2) (card_runsBelow 2) _ _ hbacklog.contested _
    (Finset.mem_image.mpr ⟨1,by simp,rfl⟩)⟩

end Vibesys.Schedule
