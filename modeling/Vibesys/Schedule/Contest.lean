import Vibesys.Schedule.Drain
import Vibesys.Schedule.FairShare

/-!
# Runs that compete for one slot

One resource of capacity one, runs that always have a job waiting for it, and the fair-share policy.
In each round the scheduler starts one job, its grant is remembered and the job ends. The jobs that
wait in each round are given: they may be submitted at any time and in any number.
-/
namespace Vibesys.Schedule
open Vibesys.Core Vibesys.Library

/-- An ordinary job that claims one unit of the resource. -/
def OneUnit (resource : ResourceID) (c : Candidate) : Prop :=
  c.first = false ∧ c.leased = none ∧ ∃ exclusive, c.options = Only [⟨resource,1,exclusive⟩]

/-- The jobs that wait in a round: of each run at least one. -/
structure Queued (resource : ResourceID) (runs : Finset RunID) (waiting : List Candidate) : Prop where
  ids : (waiting.map Candidate.id).Nodup
  ordinary : ∀ c ∈ waiting, c.run ∈ runs ∧ OneUnit resource c
  every : ∀ run ∈ runs, ∃ c ∈ waiting, c.run = run

def fairShare : Rules := { policy := some FairShare.New }

/-- The rounds of a contest. The jobs of `arrivals t` come in after round `t`. -/
def contest (s : State) (arrivals : ℕ → List Candidate) : ℕ → State
  | 0 => s
  | t+1 =>
    let next := (contest s arrivals t).round fairShare
    { next with waiting := next.waiting ++ arrivals t }

/-- A contest of the runs for one slot, whatever was granted before. -/
structure Contested (resource : ResourceID) (runs : Finset RunID) (s : State) (arrivals : ℕ → List Candidate) : Prop where
  resources : s.resources = [⟨resource,1⟩]
  free : s.holdings = []
  queued : ∀ t, Queued resource runs (contest s arrivals t).waiting

def startedRuns (s : State) : List RunID := (grantsOf s.waiting (step s fairShare)).map Grant.run

namespace Book

lemma needs_one (resource : ResourceID) (exclusive : Bool) :
    needs [⟨resource,1,exclusive⟩] = [⟨resource,1,exclusive⟩] := rfl

lemma options_one {b : Book} {resource : ResourceID} (hcapacity : b.capacity resource = some 1) {c : Candidate}
    {exclusive : Bool} (hc : c.options = Only [⟨resource,1,exclusive⟩]) {o : JobOption} :
    o ∈ b.options c ↔ o = ⟨"",[⟨resource,1,exclusive⟩]⟩ := by
  rw [mem_options,hc]
  constructor
  · rintro ⟨hfind,_⟩
    exact (List.mem_singleton.mp (List.mem_of_find?_eq_some hfind))
  · rintro rfl
    refine ⟨by simp [Only],?_⟩
    rw [impossible_eq_none_iff,needs_one]
    simp [hcapacity]

theorem starts_taken (rules : Rules) {resource : ResourceID} {b : Book} (hcapacity : b.capacity resource = some 1)
    (hused : b.used resource = 1) {cs : List Candidate} (hcs : ∀ c ∈ cs, OneUnit resource c) :
    starts (decideAll rules b cs) = [] := by
  induction cs generalizing b with
  | nil => rfl
  | cons c cs ih =>
    obtain ⟨_,_,exclusive,hoptions⟩ := hcs c List.mem_cons_self
    have htail : ∀ c ∈ cs, OneUnit resource c := fun c hc => hcs c (List.mem_cons_of_mem _ hc)
    rcases b.decide_cases c rules with ⟨_,hd⟩ | ⟨o,ho,hmay,hd⟩ | ⟨o,ho,why,_,hd⟩
    · rw [decideAll,hd,starts_refuse]
      exact ih hcapacity hused htail
    · obtain rfl := (options_one hcapacity hoptions).mp ho
      have hblocked : b.blocked (needs [⟨resource,1,exclusive⟩]) = none := (Option.or_eq_none_iff.mp hmay).1
      have hfits := ((blocked_eq_none_iff b _).mp hblocked ⟨resource,1,exclusive⟩ (by simp [needs_one])).2.2
      rw [hcapacity,hused] at hfits
      exact absurd hfits (by decide : ¬wrap (1+1) ≤ (some 1).getD 0)
    · obtain ⟨hcap,huse,_⟩ := b.keepTurn_frame c (b.options c) why
      rw [decideAll,hd,starts_wait]
      exact ih (by rw [hcap,hcapacity]) (by rw [huse,hused]) htail

/-- While the slot is free, the first job considered starts, and no other. -/
theorem starts_free {rules : Rules} (hfilters : rules.filters = []) {resource : ResourceID} {b : Book}
    (hcapacity : b.capacity resource = some 1) (hused : b.used resource = 0) (hholders : b.holders resource = [])
    (halone : b.exclusive resource = []) (hreserved : b.reserved resource = []) {c : Candidate} {cs : List Candidate}
    (hcs : ∀ d ∈ c :: cs, OneUnit resource d) {exclusive : Bool} (hc : c.options = Only [⟨resource,1,exclusive⟩]) :
    starts (decideAll rules b (c :: cs)) = [(c.id,⟨"",[⟨resource,1,exclusive⟩]⟩)] := by
  have hmay : b.mayStart c ⟨"",[⟨resource,1,exclusive⟩]⟩ rules.filters = none := by
    have hblocked : b.blocked (needs [⟨resource,1,exclusive⟩]) = none := by
      rw [blocked_eq_none_iff,needs_one]
      simpa [halone,hholders,hcapacity,hused] using (by decide : wrap 1 ≤ 1)
    have hbehind : b.behind (needs [⟨resource,1,exclusive⟩]) = none := by
      rw [behind_eq_none_iff,needs_one]
      simp [hreserved]
    have hleased : leasedOut c (needs [⟨resource,1,exclusive⟩]) = none := by
      rw [leasedOut,(hcs c List.mem_cons_self).2.1]
      rfl
    simp [mayStart,hblocked,hbehind,hleased,heldBack,hfilters]
  rcases b.decide_cases c rules with ⟨hempty,_⟩ | ⟨o,ho,_,hd⟩ | ⟨o,ho,why,hwhy,_⟩
  · have := (options_one hcapacity hc).mpr rfl
    rw [hempty] at this
    cases this
  · obtain rfl := (options_one hcapacity hc).mp ho
    rw [decideAll,hd,starts_start]
    have hstart : (b.start c ⟨"",[⟨resource,1,exclusive⟩]⟩).used resource = 1 := by
      have := hold_used b c.id [⟨resource,1,exclusive⟩] resource (hused.trans wrap_zero.symm)
      rw [zero_add,amountOn_eq_wrap,wrap_wrap] at this
      exact this.trans (by simp [claimed]; decide)
    rw [starts_taken rules _ hstart fun d hd => hcs d (List.mem_cons_of_mem _ hd)]
    simpa [start,hold,needs_one,holdNeed] using hcapacity
  · obtain rfl := (options_one hcapacity hc).mp ho
    rw [hmay] at hwhy
    cases hwhy

end Book

theorem permutation_cons {α κ : Type*} [DecidableEq κ] {key : α → κ} {given : List α} (h : (given.map key).Nodup) {a : α}
    (ha : a ∈ given) (ordered : List α) : ∃ rest, permutation key given (a :: ordered) = a :: rest := by
  have hfirst : pick key given [] a = [a] := by
    have hfind : given.reverse.find? (fun g => key g = key a) = some a := by
      have hnodup : (given.reverse.map key).Nodup := by
        rw [List.map_reverse]
        exact List.nodup_reverse.mpr h
      have hsome : (given.reverse.find? fun g => key g = key a).isSome :=
        List.find?_isSome.mpr ⟨a,List.mem_reverse.mpr ha,by simp⟩
      obtain ⟨b,hb⟩ := Option.isSome_iff_exists.mp hsome
      have hkey : key b = key a := by simpa using List.find?_some hb
      rw [hb,List.inj_on_of_nodup_map hnodup (List.mem_of_find?_eq_some hb) (List.mem_reverse.mpr ha) hkey]
    simp [pick,hfind]
  have hstays : ∀ (l out : List α), ∃ rest, l.foldl (pick key given) (a :: out) = a :: rest := by
    intro l
    induction l with
    | nil => exact fun out => ⟨out,rfl⟩
    | cons b l ih =>
      intro out
      have hpick : ∃ out', pick key given (a :: out) b = a :: out' := by
        unfold pick
        split
        · split_ifs
          · exact ⟨_,rfl⟩
          · exact ⟨_,rfl⟩
        · exact ⟨_,rfl⟩
      obtain ⟨out',hout'⟩ := hpick
      rw [List.foldl_cons,hout']
      exact ih out'
  obtain ⟨rest,hrest⟩ := hstays ordered []
  rw [permutation,List.foldl_cons,hfirst,hrest]
  exact ⟨_,rfl⟩

/-- The grant of a start on the slot. -/
def unit (resource : ResourceID) (run : RunID) (exclusive : Bool) : Grant := ⟨run,[⟨resource,1,exclusive⟩]⟩

/-- The use of the slot that the policy counts for a run: a sum that wrapped to a negative number counts nothing. -/
def countedUse (resource : ResourceID) (s : State) (run : RunID) : ℤ := max (UsageOf s run resource) 0

/-- What a round of a contest comes to: one job starts, of a run that used least, and no job that is
the oldest of a run that used as little arrived before it. -/
structure Won (resource : ResourceID) (s : State) (c : Candidate) (exclusive : Bool) : Prop where
  waits : c ∈ s.waiting
  starts : starts (step s fairShare) = [(c.id,⟨"",[⟨resource,1,exclusive⟩]⟩)]
  least : ∀ d ∈ s.waiting, countedUse resource s c.run ≤ countedUse resource s d.run
  oldest : ∀ d ∈ s.waiting, (∀ d' ∈ s.waiting, d'.run = d.run → d' = d ∨ FairShare.arrivedBefore d d' = true) →
    countedUse resource s d.run = countedUse resource s c.run → FairShare.arrivedBefore d c = false

theorem wrap_addUse {u : Usage} (h : ∀ run r, wrap (u run r) = u run r) (run : RunID) (claims : List Claim) :
    ∀ run' r, wrap (addUse u run claims run' r) = addUse u run claims run' r := by
  unfold addUse
  induction claims generalizing u with
  | nil => exact h
  | cons c claims ih =>
    refine ih fun run' r => ?_
    by_cases hrun : run' = run
    · subst hrun
      by_cases hr : r = c.resource
      · subst hr
        simp only [Function.update_self,wrap_wrap]
      · simpa [hr] using h run' r
    · simpa [hrun] using h run' r

theorem wrap_usageOf (s : State) (run : RunID) (r : ResourceID) : wrap (UsageOf s run r) = UsageOf s run r := by
  have hfold : ∀ {α : Type} (run : α → RunID) (claims : α → List Claim) (l : List α) (u : Usage),
      (∀ run r, wrap (u run r) = u run r) → ∀ run' r,
        wrap (l.foldl (fun u a => addUse u (run a) (claims a)) u run' r) =
          l.foldl (fun u a => addUse u (run a) (claims a)) u run' r := by
    intro α run claims l
    induction l with
    | nil => exact fun u hu => hu
    | cons a l ih => exact fun u hu => ih _ (wrap_addUse hu _ _)
  exact hfold Grant.run Grant.claims _ _ (hfold Holding.run Holding.claims _ _ fun _ _ => rfl) run r

theorem score_one {resource : ResourceID} {c : Candidate} {exclusive : Bool} (hc : c.options = Only [⟨resource,1,exclusive⟩])
    (s : State) : FairShare.score (fun _ => 0) (UsageOf s) c = (countedUse resource s c.run : ℚ) := by
  simp [FairShare.score,FairShare.weight,FairShare.cheapest,hc,Only,wrap_usageOf,countedUse]

/-- A queue for the slot, which is free. -/
structure Slot (resource : ResourceID) (runs : Finset RunID) (s : State) : Prop where
  resources : s.resources = [⟨resource,1⟩]
  free : s.holdings = []
  queued : Queued resource runs s.waiting

theorem arrivalOrder_sorted (waiting : List Candidate) :
    (ArrivalOrder waiting).Pairwise fun a b => arrivesBefore a b = true := by
  have htotal : ∀ a b : Candidate, arrivesBefore a b = true ∨ arrivesBefore b a = true := by
    intro a b
    simp only [arrivesBefore,Bool.or_eq_true,decide_eq_true_eq,Bool.and_eq_true,beq_iff_eq]
    grind
  have htrans : ∀ a b c : Candidate, arrivesBefore a b = true → arrivesBefore b c = true → arrivesBefore a c = true := by
    intro a b c
    simp only [arrivesBefore,Bool.or_eq_true,decide_eq_true_eq,Bool.and_eq_true,beq_iff_eq]
    grind
  have : Std.Total fun a b : Candidate => arrivesBefore a b = true := ⟨htotal⟩
  have : IsTrans Candidate fun a b => arrivesBefore a b = true := ⟨htrans⟩
  exact List.pairwise_insertionSort _ _

/-- The head of the queue of a run arrived no later than any job of the run. -/
theorem exists_head {waiting : List Candidate} {d : Candidate} (hd : d ∈ waiting) : ∃ e ∈ waiting, e.run = d.run ∧
    (FairShare.queuesOf (ArrivalOrder waiting) e.run).head? = some e ∧ (e = d ∨ arrivesBefore e d = true) := by
  have hmem : ∀ {c}, c ∈ ArrivalOrder waiting ↔ c ∈ waiting := (List.perm_insertionSort _ _).mem_iff
  have hqueue : d ∈ FairShare.queuesOf (ArrivalOrder waiting) d.run := List.mem_filter.mpr ⟨hmem.mpr hd,by simp⟩
  cases hq : FairShare.queuesOf (ArrivalOrder waiting) d.run with
  | nil => simp [hq] at hqueue
  | cons e q =>
    have he : e ∈ FairShare.queuesOf (ArrivalOrder waiting) d.run := by simp [hq]
    have hrun : e.run = d.run := by simpa using (List.mem_filter.mp he).2
    refine ⟨e,hmem.mp (List.mem_filter.mp he).1,hrun,by rw [hrun,hq]; rfl,?_⟩
    have hsorted : (e :: q).Pairwise fun a b => arrivesBefore a b = true := by
      rw [← hq]
      exact (arrivalOrder_sorted waiting).sublist List.filter_sublist
    rw [hq] at hqueue
    rcases List.mem_cons.mp hqueue with rfl | hqueue
    · exact .inl rfl
    · exact .inr ((List.pairwise_cons.mp hsorted).1 d hqueue)

theorem Slot.won {resource : ResourceID} {runs : Finset RunID} {s : State} (h : Slot resource runs s) (hruns : runs.Nonempty) :
    ∃ c exclusive, Won resource s c exclusive := by
  have hperm : (ArrivalOrder s.waiting).Perm s.waiting := List.perm_insertionSort _ _
  have hmem : ∀ {c}, c ∈ ArrivalOrder s.waiting ↔ c ∈ s.waiting := hperm.mem_iff
  have hne : ArrivalOrder s.waiting ≠ [] := by
    obtain ⟨run,hrun⟩ := hruns
    obtain ⟨c,hc,_⟩ := h.queued.every run hrun
    exact List.ne_nil_of_mem (hmem.mpr hc)
  obtain ⟨c,rest,horder,hhead,hleast⟩ := FairShare.head_order (fun _ => 0) hne (wrap_usageOf s)
  have hc : c ∈ s.waiting := hmem.mp (List.mem_filter.mp (List.mem_of_mem_head? hhead)).1
  obtain ⟨tail,hconsidered⟩ : ∃ tail, considered s fairShare = c :: tail := by
    -- No job is a first one, so the policy orders them all.
    have hfirst : (ArrivalOrder s.waiting).filter (fun c => c.first) = [] := by
      refine List.filter_eq_nil_iff.mpr fun c hc => ?_
      simp [(h.queued.ordinary c (hmem.mp hc)).2.1]
    have hrest : (ArrivalOrder s.waiting).filter (fun c => !c.first) = ArrivalOrder s.waiting := by
      refine List.filter_eq_self.mpr fun c hc => ?_
      simp [(h.queued.ordinary c (hmem.mp hc)).2.1]
    have hnodup : ((ArrivalOrder s.waiting).map Candidate.id).Nodup := (hperm.map _).nodup_iff.mpr h.queued.ids
    obtain ⟨tail,htail⟩ := permutation_cons hnodup (hmem.mpr hc) rest
    refine ⟨tail,?_⟩
    simp only [considered,hfirst,hrest,List.nil_append,fairShare,hne,if_false]
    rw [← htail,← horder]
    rfl
  have hunit : ∀ d ∈ c :: tail, OneUnit resource d := by
    intro d hd
    rw [← hconsidered] at hd
    exact (h.queued.ordinary d ((mem_considered h.queued.ids).mp hd)).2
  obtain ⟨_,_,exclusive,hoptions⟩ := hunit c List.mem_cons_self
  have hbook : (newBook s).used resource = 0 ∧ (newBook s).holders resource = [] ∧ (newBook s).exclusive resource = [] := by
    simp [newBook,h.free]
  have hscore : ∀ d ∈ s.waiting, FairShare.score (fun _ => 0) (UsageOf s) d = (countedUse resource s d.run : ℚ) := by
    intro d hd
    obtain ⟨_,_,_,hd⟩ := (h.queued.ordinary d hd).2
    exact score_one hd s
  refine ⟨c,exclusive,hc,?_,fun d hd => ?_,fun d hd hold huse => ?_⟩
  · rw [step,hconsidered]
    refine Book.starts_free rfl ?_ hbook.1 hbook.2.1 hbook.2.2 ?_ hunit hoptions
    · simp [newBook_capacity,h.resources,capacityOf]
    · simp [newBook_frame]
  · obtain ⟨e,he,hrun,hhead,_⟩ := exists_head hd
    have hnot := (not_or.mp (hleast e (hmem.mpr he) hhead)).1
    rw [hscore e he,hscore c hc,hrun,not_lt] at hnot
    exact_mod_cast hnot
  · obtain ⟨e,he,hrun,hhead,hfirst⟩ := exists_head hd
    obtain rfl : e = d := by
      rcases hfirst with heq | hfirst
      · exact heq
      · rcases hold e he hrun with heq | hbefore
        · exact heq
        · simp only [arrivesBefore,FairShare.arrivedBefore,Bool.or_eq_true,decide_eq_true_eq,Bool.and_eq_true,
            beq_iff_eq] at hfirst hbefore
          grind
    have hnot := (not_or.mp (hleast e (hmem.mpr he) hhead)).2
    rw [hscore e he,hscore c hc,huse] at hnot
    simpa using hnot

theorem Won.grants {resource : ResourceID} {s : State} {c : Candidate} {exclusive : Bool} (h : Won resource s c exclusive)
    (hids : (s.waiting.map Candidate.id).Nodup) : grantsOf s.waiting (step s fairShare) = [unit resource c.run exclusive] := by
  have hfind : s.waiting.find? (fun d => d.id = c.id) = some c := by
    have hsome : (s.waiting.find? fun d => d.id = c.id).isSome := List.find?_isSome.mpr ⟨c,h.waits,by simp⟩
    obtain ⟨d,hd⟩ := Option.isSome_iff_exists.mp hsome
    rw [hd,eq_of_id hids (List.mem_of_find?_eq_some hd) h.waits (by simpa using List.find?_some hd)]
  simp [grantsOf,h.starts,hfind,unit]

theorem Contested.slot {resource : ResourceID} {runs : Finset RunID} {s : State} {arrivals : ℕ → List Candidate}
    (h : Contested resource runs s arrivals) (t : ℕ) : Slot resource runs (contest s arrivals t) := by
  have hresources : (contest s arrivals t).resources = s.resources := by
    induction t with
    | zero => rfl
    | succ t ih => exact ih
  refine ⟨hresources.trans h.resources,?_,h.queued t⟩
  cases t with
  | zero => exact h.free
  | succ t => rfl

theorem remember_remember (recent started after : List Grant) :
    Remember (Remember recent started) after = Remember recent (started ++ after) := by
  unfold Remember
  dsimp only
  rw [← List.drop_append_of_le_length (Nat.sub_le _ _),List.drop_drop,List.append_assoc]
  congr 1
  simp only [List.length_drop,List.length_append]
  omega

theorem usageOf_units {resource : ResourceID} {s : State} (hfree : s.holdings = [])
    (hunits : ∀ g ∈ s.recent, ∃ run e, g = unit resource run e) (run : RunID) :
    UsageOf s run resource = wrap ((s.recent.map Grant.run).count run) := by
  have hfold : ∀ (l : List Grant), (∀ g ∈ l, ∃ run e, g = unit resource run e) → ∀ (u : Usage) (k : ℤ),
      u run resource = wrap k →
        l.foldl (fun u g => addUse u g.run g.claims) u run resource = wrap (k+((l.map Grant.run).count run : ℤ)) := by
    intro l hl
    induction l with
    | nil => simp
    | cons g l ih =>
      intro u k hu
      obtain ⟨run',e,rfl⟩ := hl g List.mem_cons_self
      have ih := ih fun g hg => hl g (List.mem_cons_of_mem _ hg)
      rw [List.foldl_cons,List.map_cons,List.count_cons]
      by_cases hrun : run' = run
      · subst hrun
        rw [ih _ (k+1) (by simp [addUse,unit,hu])]
        simp [unit,add_assoc,add_comm]
      · rw [ih _ k (by simp [addUse,unit,Ne.symm hrun,hu])]
        simp [unit,hrun]
  rw [UsageOf,hfree]
  simpa using hfold s.recent hunits (fun _ _ => 0) 0 rfl

/-- The winners of a contest, round by round. -/
structure Winners (resource : ResourceID) (s : State) (arrivals : ℕ → List Candidate) (won : ℕ → Candidate)
    (exclusive : ℕ → Bool) : Prop where
  ids : ∀ t, ((contest s arrivals t).waiting.map Candidate.id).Nodup
  won : ∀ t, Won resource (contest s arrivals t) (won t) (exclusive t)

namespace Winners

variable {resource : ResourceID} {s : State} {arrivals : ℕ → List Candidate} {won : ℕ → Candidate} {exclusive : ℕ → Bool}

theorem startedRuns_eq (h : Winners resource s arrivals won exclusive) (t : ℕ) :
    startedRuns (contest s arrivals t) = [(won t).run] := by
  rw [startedRuns,(h.won t).grants (h.ids t)]
  rfl

theorem recent_succ (h : Winners resource s arrivals won exclusive) (t : ℕ) :
    (contest s arrivals (t+1)).recent
      = Remember s.recent ((List.range (t+1)).map fun u => unit resource (won u).run (exclusive u)) := by
  have hone : ∀ t, (contest s arrivals (t+1)).recent
      = Remember (contest s arrivals t).recent [unit resource (won t).run (exclusive t)] := by
    intro t
    rw [← (h.won t).grants (h.ids t)]
    rfl
  induction t with
  | zero => exact hone 0
  | succ t ih => rw [hone,ih,remember_remember,List.range_succ (n := t+1),List.map_append,List.map_singleton]

/-- Once enough grants were made, or when none were made before, what is remembered are the last
grants of the contest. -/
theorem recent_last (h : Winners resource s arrivals won exclusive) {t : ℕ} (ht : s.recent = [] ∨ RecentGrants ≤ t) :
    (contest s arrivals t).recent
      = ((List.range t).map fun u => unit resource (won u).run (exclusive u)).drop (t-RecentGrants) := by
  cases t with
  | zero => exact ht.resolve_right (by decide)
  | succ t =>
    rw [h.recent_succ,Remember]
    rcases ht with hnone | hmany
    · simp [hnone]
    · rw [List.drop_append,List.drop_eq_nil_of_le (by simp; omega)]
      simp only [List.nil_append,List.length_append,List.length_map,List.length_range]
      congr 1
      omega

theorem mem_recent (h : Winners resource s arrivals won exclusive) {t : ℕ} (ht : s.recent = [] ∨ RecentGrants ≤ t)
    {g : Grant} : g ∈ (contest s arrivals t).recent
      ↔ ∃ u, u < t ∧ t ≤ u+RecentGrants ∧ g = unit resource (won u).run (exclusive u) := by
  rw [h.recent_last ht,List.mem_iff_getElem?]
  simp only [List.getElem?_drop,List.getElem?_map,Option.map_eq_some_iff,List.getElem?_eq_some_iff,List.length_range,
    List.getElem_range]
  constructor
  · rintro ⟨i,u,⟨hlt,rfl⟩,rfl⟩
    exact ⟨_,hlt,by omega,rfl⟩
  · rintro ⟨u,hlt,hle,rfl⟩
    exact ⟨u-(t-RecentGrants),u,⟨by omega,by omega⟩,rfl⟩

theorem usage_eq_zero (h : Winners resource s arrivals won exclusive) {t : ℕ} (ht : s.recent = [] ∨ RecentGrants ≤ t)
    (hfree : (contest s arrivals t).holdings = []) (run : RunID) :
    countedUse resource (contest s arrivals t) run = 0 ↔ ∀ u, u < t → t ≤ u+RecentGrants → (won u).run ≠ run := by
  have hunits : ∀ g ∈ (contest s arrivals t).recent, ∃ run' e, g = unit resource run' e := by
    intro g hg
    obtain ⟨u,_,_,rfl⟩ := (h.mem_recent ht).mp hg
    exact ⟨_,_,rfl⟩
  have hcount : ((contest s arrivals t).recent.map Grant.run).count run ≤ RecentGrants := by
    refine List.count_le_length.trans ?_
    rw [List.length_map,h.recent_last ht,List.length_drop,List.length_map,List.length_range]
    omega
  unfold RecentGrants at hcount
  rw [countedUse,usageOf_units hfree hunits,wrap_of_fits (by omega) (by omega),max_eq_left (Int.natCast_nonneg _),
    Nat.cast_eq_zero,List.count_eq_zero,List.mem_map]
  constructor
  · intro hnone u hlt hle hrun
    exact hnone ⟨_,(h.mem_recent ht).mpr ⟨u,hlt,hle,rfl⟩,hrun⟩
  · rintro hnone ⟨g,hg,hrun⟩
    obtain ⟨u,hlt,hle,rfl⟩ := (h.mem_recent ht).mp hg
    exact hnone u hlt hle hrun

end Winners

theorem Contested.winners {resource : ResourceID} {runs : Finset RunID} {s : State} {arrivals : ℕ → List Candidate}
    (h : Contested resource runs s arrivals) (hruns : runs.Nonempty) :
    ∃ won exclusive, Winners resource s arrivals won exclusive ∧ ∀ t, (won t).run ∈ runs := by
  choose won exclusive hwon using fun t => (h.slot t).won hruns
  exact ⟨won,exclusive,⟨fun t => (h.queued t).ids,hwon⟩,fun t => ((h.queued t).ordinary _ (hwon t).waits).1⟩

/-- Of at most one run more than there are grants remembered, each gets a start within as many rounds
as grants are remembered and runs compete. -/
theorem fair_share_turn (n : ℕ) (hn : n ≤ RecentGrants+1) :
    ∃ B, ∀ (resource : ResourceID) (runs : Finset RunID), runs.card = n → ∀ (s : State) (arrivals : ℕ → List Candidate),
      Contested resource runs s arrivals → ∀ run ∈ runs, ∀ t, ∃ k < B, run ∈ startedRuns (contest s arrivals (t+k)) := by
  refine ⟨RecentGrants+n,fun resource runs hcard s arrivals h run hrun t => ?_⟩
  obtain ⟨won,exclusive,hwon,hwinners⟩ := h.winners ⟨run,hrun⟩
  by_contra hnone
  have hpassed : ∀ u, t ≤ u → u < t+(RecentGrants+n) → (won u).run ≠ run := by
    intro u hle hlt heq
    refine hnone ⟨u-t,by omega,?_⟩
    rw [show t+(u-t) = u by omega,hwon.startedRuns_eq,heq]
    exact List.mem_singleton_self _
  -- The run that is passed over has used nothing, so the winner of each such round has not either.
  have hfresh : ∀ i, i < n → ∀ u, u < t+RecentGrants+i → t+RecentGrants+i ≤ u+RecentGrants →
      (won u).run ≠ (won (t+RecentGrants+i)).run := by
    intro i hi
    have hzero : countedUse resource (contest s arrivals (t+RecentGrants+i)) run = 0 :=
      (hwon.usage_eq_zero (.inr (by omega)) (h.slot _).free run).mpr fun u hlt hle => hpassed u (by omega) (by omega)
    obtain ⟨d,hd,hdrun⟩ := (h.queued (t+RecentGrants+i)).every run hrun
    have hle := (hwon.won (t+RecentGrants+i)).least d hd
    rw [hdrun,hzero] at hle
    exact (hwon.usage_eq_zero (.inr (by omega)) (h.slot _).free _).mp (le_antisymm hle (le_max_right _ _))
  -- So the winners are different runs, and none of them is the one passed over.
  have hinj : Set.InjOn (fun i => (won (t+RecentGrants+i)).run) (Finset.range n) := by
    intro i hi j hj heq
    have hi := Finset.mem_range.mp hi
    have hj := Finset.mem_range.mp hj
    rcases lt_trichotomy i j with hlt | rfl | hlt
    · exact absurd heq (hfresh j hj _ (by omega) (by omega))
    · rfl
    · exact absurd heq.symm (hfresh i hi _ (by omega) (by omega))
  have hmaps : (Finset.range n).image (fun i => (won (t+RecentGrants+i)).run) ⊆ runs.erase run := by
    intro run' hrun'
    obtain ⟨i,hi,rfl⟩ := Finset.mem_image.mp hrun'
    have hi := Finset.mem_range.mp hi
    exact Finset.mem_erase.mpr ⟨hpassed _ (by omega) (by omega),hwinners _⟩
  have hle := Finset.card_le_card hmaps
  rw [Finset.card_image_of_injOn hinj,Finset.card_range,Finset.card_erase_of_mem hrun,hcard] at hle
  have hpos : 0 < n := hcard ▸ Finset.card_pos.mpr ⟨run,hrun⟩
  omega

end Vibesys.Schedule
