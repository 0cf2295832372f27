import Vibesys.Schedule.Turn

/-!
# The drain of a queue

Although a waiting job keeps its turn, a queue with nothing held drains: the first job considered
always starts or is refused, whatever order the policy picks and wherever the placer points.
-/
namespace Vibesys.Schedule

def Decision.settles : Decision → Bool
  | .start _ _ => true
  | .wait _ _ => false
  | .refuse _ _ => true

def settledIDs (ds : List Decision) : List ID := (ds.filter Decision.settles).map Decision.Target

def grantsOf (waiting : List Candidate) (ds : List Decision) : List Grant :=
  (starts ds).filterMap fun x => (waiting.find? fun c => c.id = x.1).map fun c => ⟨c.run,x.2.claims⟩

/-- One round of a drain: a step, after which every job that started ends before the next. -/
def State.round (rules : Rules) (s : State) : State :=
  let ds := step s rules
  { resources := s.resources
    holdings := []
    waiting := s.waiting.filter fun c => c.id ∉ settledIDs ds
    recent := Remember s.recent (grantsOf s.waiting ds) }

/-- What a drain needs of the queue it starts from. -/
structure State.Drainable (s : State) : Prop where
  ids : (s.waiting.map Candidate.id).Nodup
  free : s.holdings = []
  home : ∀ c ∈ s.waiting, c.leased = none

namespace State

lemma Drainable.round {s : State} (h : s.Drainable) (rules : Rules) : (s.round rules).Drainable where
  ids := h.ids.sublist (List.filter_sublist.map _)
  free := rfl
  home c hc := h.home c (List.mem_filter.mp hc).1

lemma Drainable.iterate {s : State} (h : s.Drainable) (rules : Rules) (k : ℕ) :
    ((State.round rules)^[k] s).Drainable := by
  induction k with
  | zero => exact h
  | succ k ih =>
    rw [Function.iterate_succ_apply']
    exact ih.round rules

@[simp] lemma iterate_round_resources (s : State) (rules : Rules) (k : ℕ) :
    ((round rules)^[k] s).resources = s.resources := by
  induction k with
  | zero => rfl
  | succ k ih =>
    rw [Function.iterate_succ_apply']
    exact ih

lemma mem_of_mem_iterate {s : State} {rules : Rules} {k : ℕ} {c : Candidate}
    (h : c ∈ ((round rules)^[k] s).waiting) : c ∈ s.waiting := by
  induction k with
  | zero => exact h
  | succ k ih =>
    rw [Function.iterate_succ_apply'] at h
    exact ih (List.mem_filter.mp h).1

end State

lemma eq_of_id {cs : List Candidate} (h : (cs.map Candidate.id).Nodup) {c c' : Candidate} (hc : c ∈ cs)
    (hc' : c' ∈ cs) (hid : c.id = c'.id) : c = c' :=
  List.inj_on_of_nodup_map h hc hc' hid

lemma mem_considered {s : State} (h : (s.waiting.map Candidate.id).Nodup) {rules : Rules} {c : Candidate} :
    c ∈ considered s rules ↔ c ∈ s.waiting :=
  (considered_perm h rules).mem_iff

lemma newBook_capacity (s : State) : (newBook s).capacity = capacityOf s.resources :=
  (newBook_frame s).1

theorem mem_step {s : State} (h : (s.waiting.map Candidate.id).Nodup) {rules : Rules} {d : Decision}
    (hd : d ∈ step s rules) : ∃ c ∈ s.waiting, ∃ b : Book, b.capacity = capacityOf s.resources ∧
      c.id = d.Target ∧ d = (b.decide c rules).2 := by
  obtain ⟨c,hc,b,hb,rfl⟩ := Book.mem_decideAll rules _ _ _ hd
  exact ⟨c,(mem_considered h).mp hc,b,hb.trans (newBook_capacity s),(b.decide_target c rules).symm,rfl⟩

theorem step_mem {s : State} (h : (s.waiting.map Candidate.id).Nodup) (rules : Rules) {c : Candidate}
    (hc : c ∈ s.waiting) : ∃ b : Book, b.capacity = capacityOf s.resources ∧
      (b.decide c rules).2 ∈ step s rules := by
  obtain ⟨b,hb,hd⟩ := Book.decideAll_mem rules _ (newBook s) c ((mem_considered h).mpr hc)
  exact ⟨b,hb.trans (newBook_capacity s),hd⟩

/-- A waiting job is refused exactly when none of its options can ever be granted. -/
theorem refuse_mem_step_iff {s : State} (h : (s.waiting.map Candidate.id).Nodup) (rules : Rules)
    {c : Candidate} (hc : c ∈ s.waiting) :
    (∃ why, Decision.refuse c.id why ∈ step s rules) ↔ ¬∃ o, c.MayHold s.resources o := by
  constructor
  · rintro ⟨why,hd⟩ ⟨o,ho⟩
    obtain ⟨c',hc',b,hb,hid,hd⟩ := mem_step h hd
    obtain rfl := eq_of_id h hc' hc hid
    have hmem := (Book.mem_options_iff_mayHold hb c' o).mpr ho
    rcases b.decide_cases c' rules with ⟨hnil,_⟩ | ⟨_,_,_,he⟩ | ⟨_,_,_,_,he⟩
    · rw [hnil] at hmem
      contradiction
    · rw [he] at hd; contradiction
    · rw [he] at hd; contradiction
  · intro hno
    obtain ⟨b,hb,hd⟩ := step_mem h rules hc
    have hnil : b.options c = [] := by
      refine List.eq_nil_iff_forall_not_mem.mpr fun o ho => hno ⟨o,?_⟩
      exact (Book.mem_options_iff_mayHold hb c o).mp ho
    rw [Book.decide,if_pos hnil] at hd
    exact ⟨_,hd⟩

theorem Book.decide_settles {b : Book} {c : Candidate} {rules : Rules} (hfilters : rules.filters = [])
    (hhome : c.leased = none)
    (hempty : ∀ r, b.used r = 0 ∧ b.holders r = [] ∧ b.exclusive r = [] ∧ b.reserved r = []) :
    (b.decide c rules).2.settles = true := by
  rcases b.decide_cases c rules with ⟨_,hd⟩ | ⟨_,_,_,hd⟩ | ⟨o,ho,why,hwhy,_⟩
  · rw [hd]; rfl
  · rw [hd]; rfl
  · have hpossible := (b.impossible_eq_none_iff _).mp ((b.mem_options c o).mp ho).2
    have hblocked : b.blocked (needs o.claims) = none := by
      refine (b.blocked_eq_none_iff _).mpr fun n hn => ?_
      obtain ⟨capacity,hcap,hle⟩ := hpossible n hn
      obtain ⟨hu,hh,he,_⟩ := hempty n.resource
      refine ⟨he,fun _ => hh,?_⟩
      rw [hu,hcap,Option.getD_some,zero_add,wrap_amount hn]
      exact hle
    have hbehind : b.behind (needs o.claims) = none :=
      (b.behind_eq_none_iff _).mpr fun n _ => (hempty n.resource).2.2.2
    have hnone : b.mayStart c o rules.filters = none := by
      simp [Book.mayStart,hblocked,hbehind,Book.leasedOut,hhome,Book.heldBack,hfilters]
    rw [hnone] at hwhy
    contradiction

theorem exists_settled {s : State} (h : s.Drainable) {rules : Rules} (hfilters : rules.filters = [])
    (hne : s.waiting ≠ []) : ∃ c ∈ s.waiting, c.id ∈ settledIDs (step s rules) := by
  cases hcs : considered s rules with
  | nil =>
    have hperm := considered_perm h.ids rules
    rw [hcs] at hperm
    exact absurd hperm.symm.eq_nil hne
  | cons c cs =>
    have hc : c ∈ s.waiting := (mem_considered h.ids).mp (hcs ▸ List.mem_cons_self)
    have hsettles : ((newBook s).decide c rules).2.settles = true := by
      refine Book.decide_settles hfilters (h.home c hc) fun r => ?_
      simp [newBook,h.free]
    refine ⟨c,hc,List.mem_map.mpr ⟨((newBook s).decide c rules).2,?_,(newBook s).decide_target c rules⟩⟩
    refine List.mem_filter.mpr ⟨?_,hsettles⟩
    rw [step,hcs,Book.decideAll]
    exact List.mem_cons_self

theorem round_waiting_length {s : State} (h : s.Drainable) {rules : Rules} (hfilters : rules.filters = [])
    (hne : s.waiting ≠ []) : (s.round rules).waiting.length < s.waiting.length := by
  obtain ⟨c,hc,hsettled⟩ := exists_settled h hfilters hne
  refine List.length_filter_lt_length_iff_exists.mpr ⟨c,hc,?_⟩
  simpa using hsettled

theorem iterate_round_waiting {s : State} (h : s.Drainable) {rules : Rules} (hfilters : rules.filters = [])
    {n : ℕ} (hn : s.waiting.length ≤ n) : ((State.round rules)^[n] s).waiting = [] := by
  induction n generalizing s with
  | zero => exact List.length_eq_zero_iff.mp (Nat.le_zero.mp hn)
  | succ n ih =>
    rw [Function.iterate_succ_apply]
    refine ih (h.round rules) ?_
    by_cases hne : s.waiting = []
    · simp [State.round,hne]
    · have := round_waiting_length h hfilters hne
      omega

theorem exists_round_settled {s : State} {rules : Rules} {c : Candidate}
    (hc : c ∈ s.waiting) {n : ℕ} (hn : c ∉ ((State.round rules)^[n] s).waiting) :
    ∃ k < n, c ∈ ((State.round rules)^[k] s).waiting ∧
      ∃ d ∈ step ((State.round rules)^[k] s) rules, d.settles = true ∧ d.Target = c.id := by
  induction n with
  | zero => exact absurd hc hn
  | succ n ih =>
    by_cases hmem : c ∈ ((State.round rules)^[n] s).waiting
    · refine ⟨n,Nat.lt_succ_self n,hmem,?_⟩
      rw [Function.iterate_succ_apply'] at hn
      have hsettled : c.id ∈ settledIDs (step ((State.round rules)^[n] s) rules) := by
        by_contra hno
        exact hn (List.mem_filter.mpr ⟨hmem,by simpa using hno⟩)
      obtain ⟨d,hd,hid⟩ := List.mem_map.mp hsettled
      exact ⟨d,(List.mem_filter.mp hd).1,(List.mem_filter.mp hd).2,hid⟩
    · obtain ⟨k,hk,hrest⟩ := ih hmem
      exact ⟨k,Nat.lt_succ_of_lt hk,hrest⟩

theorem step_first {s : State} (hnodup : (s.waiting.map Candidate.id).Nodup) (rules : Rules) :
    (step s rules).Pairwise fun d d' => ∀ c ∈ s.waiting, ∀ c' ∈ s.waiting,
      c.id = d.Target → c'.id = d'.Target → c'.first = true → c.first = true := by
  have hperm := considered_perm hnodup rules
  have hfirst : ((step s rules).map Decision.Target).Pairwise fun id id' =>
      ∀ c ∈ s.waiting, ∀ c' ∈ s.waiting, c.id = id → c'.id = id' → c'.first = true → c.first = true := by
    rw [step,Book.decideAll_targets,List.pairwise_map]
    refine (considered_first s rules).imp_of_mem ?_
    rintro a a' ha ha' hmark c hc c' hc' hid hid'
    obtain rfl := eq_of_id hnodup hc (hperm.mem_iff.mp ha) hid
    obtain rfl := eq_of_id hnodup hc' (hperm.mem_iff.mp ha') hid'
    exact hmark
  exact List.pairwise_map.mp hfirst

theorem not_mayHold_of_refused {s : State} (h : s.Drainable) {rules : Rules} {c : Candidate} (hc : c ∈ s.waiting) {k : ℕ}
    {why : String} (hd : .refuse c.id why ∈ step ((State.round rules)^[k] s) rules) : ¬∃ o, c.MayHold s.resources o := by
  obtain ⟨c',hc',_,_,hid,_⟩ := mem_step (h.iterate rules k).ids hd
  obtain rfl := eq_of_id h.ids (State.mem_of_mem_iterate hc') hc hid
  have hiff := refuse_mem_step_iff (h.iterate rules k).ids rules hc'
  rw [State.iterate_round_resources] at hiff
  exact hiff.mp ⟨why,hd⟩

theorem mayHold_of_started {s : State} (h : s.Drainable) {rules : Rules} {c : Candidate} (hc : c ∈ s.waiting) {k : ℕ}
    {o : JobOption} (hd : .start c.id o ∈ step ((State.round rules)^[k] s) rules) : ∃ o, c.MayHold s.resources o := by
  obtain ⟨c',hc',b,hb,hid,hd⟩ := mem_step (h.iterate rules k).ids hd
  obtain rfl := eq_of_id h.ids (State.mem_of_mem_iterate hc') hc hid
  rw [State.iterate_round_resources] at hb
  rcases b.decide_cases c' rules with ⟨_,he⟩ | ⟨o',ho',_,_⟩ | ⟨_,_,_,_,he⟩
  · rw [he] at hd; contradiction
  · exact ⟨o',(Book.mem_options_iff_mayHold hb c' o').mp ho'⟩
  · rw [he] at hd; contradiction

/-- Turn keeping, the first jobs first, and the drain, for every policy and placer. An option that could ever be granted
claims no more of a resource than there is, unless the sum of its claims wraps. -/
theorem turns_and_drain (s : State) (rules : Rules) (hids : s.UniqueIDs) (hfilters : rules.filters = []) :
    ((step s rules).Pairwise fun d d' => ∀ id why id' o', d = .wait id why → d' = .start id' o' →
      ∀ c ∈ s.waiting, c.id = id → ∀ o, c.MayHold s.resources o →
        ∀ r, claimsOn o.claims r = true → claimsOn o'.claims r = false) ∧
    ((step s rules).Pairwise fun d d' => ∀ c ∈ s.waiting, ∀ c' ∈ s.waiting,
      c.id = d.Target → c'.id = d'.Target → c'.first = true → c.first = true) ∧
    (s.holdings = [] → (∀ c ∈ s.waiting, c.leased = none) →
      ((State.round rules)^[s.waiting.length] s).waiting = [] ∧
      ∀ c ∈ s.waiting,
        ((∃ k < s.waiting.length, ∃ why,
          Decision.refuse c.id why ∈ step ((State.round rules)^[k] s) rules) ↔
            ¬∃ o, c.MayHold s.resources o) ∧
        ((∃ k < s.waiting.length, ∃ o,
          Decision.start c.id o ∈ step ((State.round rules)^[k] s) rules) ↔
            ∃ o, c.MayHold s.resources o)) ∧
    ∀ o : JobOption, (∀ r, claimed o.claims r < 2^63) → (Grantable s.resources o ↔ ∀ r, claimsOn o.claims r = true →
      ∃ capacity, capacityOf s.resources r = some capacity ∧ claimed o.claims r ≤ capacity) := by
  have hnodup : (s.waiting.map Candidate.id).Nodup := (List.nodup_append.mp hids).2.1
  have hperm := considered_perm hnodup rules
  refine ⟨?_,step_first hnodup rules,fun hfree hhome => ?_,fun o hfits => grantable_iff hfits⟩
  · refine (Book.decideAll_keepsTurn hfilters _ ((hperm.map _).nodup_iff.mpr hnodup) _
      (newBook_capacity s)).imp fun hkeep id why id' o' hd hd' c hc => ?_
    exact hkeep id why id' o' hd hd' c (hperm.mem_iff.mpr hc)
  · have hdrain : s.Drainable := ⟨hnodup,hfree,hhome⟩
    have hempty := iterate_round_waiting hdrain hfilters le_rfl
    refine ⟨hempty,fun c hc => ⟨⟨?_,?_⟩,?_,?_⟩⟩
    · rintro ⟨k,_,why,hd⟩
      exact not_mayHold_of_refused hdrain hc hd
    · intro hno
      obtain ⟨why,hd⟩ := (refuse_mem_step_iff hnodup rules hc).mpr hno
      exact ⟨0,List.length_pos_of_mem hc,why,hd⟩
    · rintro ⟨k,_,o,hd⟩
      exact mayHold_of_started hdrain hc hd
    · intro hmay
      obtain ⟨k,hk,_,d,hd,hsettles,hid⟩ := exists_round_settled hc (hempty ▸ List.not_mem_nil)
      cases d with
      | start id o =>
        rw [← hid]
        exact ⟨k,hk,o,hd⟩
      | wait id why => contradiction
      | refuse id why =>
        obtain rfl : id = c.id := hid
        exact absurd hmay (not_mayHold_of_refused hdrain hc hd)

/-- Two jobs that want the GPU to themselves and one that wants more than the placement has. -/
def contended : State where
  resources := [⟨"placement:a",2⟩,⟨"gpu",1⟩]
  holdings := []
  waiting := [⟨"j1",[⟨"a",[⟨"placement:a",1,false⟩,⟨"gpu",1,true⟩]⟩],"",1,1,false,none⟩,
    ⟨"j2",[⟨"a",[⟨"placement:a",1,false⟩,⟨"gpu",1,true⟩]⟩],"",2,2,false,none⟩,
    ⟨"j3",[⟨"a",[⟨"placement:a",3,false⟩]⟩],"",3,3,true,none⟩]
  recent := []

theorem turns_and_drain_contended :
    contended.UniqueIDs ∧ ((State.round {} contended).waiting.map Candidate.id) = ["j2"] ∧
    ((State.round {})^[3] contended).waiting = [] :=
  ⟨by decide,by decide +kernel,
    ((turns_and_drain contended {} (by decide) rfl).2.2.1 rfl (by decide)).1⟩

end Vibesys.Schedule
