import Mathlib.Algebra.Order.BigOperators.Group.List
import Vibesys.Schedule.Book

/-!
# No policy, placer or filter makes a step unsafe

Whatever the plug-ins answer, the jobs a step starts keep to the capacity of every resource they
claim, an exclusive claim shares its resource with no other, and a job starts on an option of its
own. Holdings may break these rules before the step; nothing starts on a resource they break. The
capacity is kept to as long as the claims on the resource add up to an integer of 64 bits: what is
used of it wraps beyond.
-/
namespace Vibesys.Schedule
open Vibesys.Library
namespace Book

theorem impossible_eq_none_iff (b : Book) (ns : List Need) :
    b.impossible ns = none ↔ ∀ n ∈ ns, ∃ capacity, b.capacity n.resource = some capacity ∧ n.amount ≤ capacity := by
  induction ns with
  | nil => simp [impossible]
  | cons n ns ih =>
    cases hc : b.capacity n.resource with
    | none => simp [impossible,hc]
    | some capacity =>
      by_cases ha : capacity < n.amount
      · simp [impossible,hc,ha]
      · simp [impossible,hc,ha,ih,not_lt.mp ha]

theorem blocked_eq_none_iff (b : Book) (ns : List Need) :
    b.blocked ns = none ↔ ∀ n ∈ ns, b.exclusive n.resource = [] ∧
      (n.exclusive = true → b.holders n.resource = []) ∧
      wrap (b.used n.resource + n.amount) ≤ (b.capacity n.resource).getD 0 := by
  induction ns with
  | nil => simp [blocked]
  | cons n ns ih =>
    rw [List.forall_mem_cons,← ih,blocked]
    split_ifs with h₁ h₂ h₃
    · simp [h₁]
    · simp [h₂.1,h₂.2]
    · simp [h₃]
    · have h₁ : b.exclusive n.resource = [] := not_not.mp h₁
      have h₂ : n.exclusive = true → b.holders n.resource = [] :=
        fun he => not_not.mp fun hh => h₂ ⟨he,hh⟩
      exact ⟨fun h => ⟨⟨h₁,h₂,not_lt.mp h₃⟩,h⟩,And.right⟩

theorem behind_eq_none_iff (b : Book) (ns : List Need) :
    b.behind ns = none ↔ ∀ n ∈ ns, b.reserved n.resource = [] := by
  simp [behind,List.find?_eq_none]

lemma mem_grantable (b : Book) (o : JobOption) (rest before options : List JobOption) (refusal : String) :
    o ∈ (b.grantable before rest options refusal).1 ↔ o ∈ options ∨
      ((∀ p ∈ before, p.placement ≠ o.placement) ∧
        rest.find? (fun p => p.placement = o.placement) = some o ∧
        b.impossible (needs o.claims) = none) := by
  induction rest generalizing before options refusal with
  | nil => simp [grantable]
  | cons p rest ih =>
    have hbefore : (∀ q ∈ before ++ [p], q.placement ≠ o.placement) ↔
        (∀ q ∈ before, q.placement ≠ o.placement) ∧ p.placement ≠ o.placement := by
      simp [or_imp,forall_and]
    unfold grantable
    by_cases hseen : (before.any fun q => q.placement = p.placement) = true
    · rw [if_pos hseen,ih,hbefore]
      obtain ⟨q,hq,hqp⟩ := List.any_eq_true.mp hseen
      have hqp : q.placement = p.placement := by simpa using hqp
      by_cases hpo : p.placement = o.placement
      · have hno : ¬ ∀ q ∈ before, q.placement ≠ o.placement := fun h => h q hq (hqp.trans hpo)
        simp [hno]
      · simp [hpo]
    · have hnew : ∀ q ∈ before, q.placement ≠ p.placement := by
        intro q hq he
        exact hseen (List.any_eq_true.mpr ⟨q,hq,by simpa using he⟩)
      rw [if_neg hseen]
      split
      · rename_i why hwhy
        rw [ih,hbefore]
        by_cases hpo : p.placement = o.placement
        · simp only [hpo,ne_eq,not_true_eq_false,and_false,false_and,or_false,List.find?_cons,
            decide_true,Option.some.injEq]
          constructor
          · exact Or.inl
          · rintro (h | ⟨_,h,hn⟩)
            · exact h
            · rw [h,hn] at hwhy
              contradiction
        · simp [hpo]
      · rename_i hnone
        rw [ih,hbefore,List.mem_append,List.mem_singleton]
        by_cases hpo : p.placement = o.placement
        · simp only [hpo,ne_eq,not_true_eq_false,and_false,false_and,or_false,List.find?_cons,
            decide_true,Option.some.injEq]
          constructor
          · rintro (h | h)
            · exact Or.inl h
            · subst h
              exact Or.inr ⟨hnew,rfl,hnone⟩
          · rintro (h | ⟨_,h,_⟩)
            · exact Or.inl h
            · exact Or.inr h.symm
        · have hop : o ≠ p := fun h => hpo (h ▸ rfl)
          simp [hpo,hop]

theorem mem_options (b : Book) (c : Candidate) (o : JobOption) :
    o ∈ b.options c ↔ c.options.find? (fun p => p.placement = o.placement) = some o ∧
      b.impossible (needs o.claims) = none := by
  simp [options,mem_grantable]

theorem mem_options_of_mem_ranked {b : Book} {c : Candidate} {rules : Rules} {o : JobOption}
    (h : o ∈ b.ranked c rules) : o ∈ b.options c := mem_of_mem_permutation _ h

/-- Everything one decision can be. -/
theorem decide_cases (b : Book) (c : Candidate) (rules : Rules) :
    (b.options c = [] ∧ b.decide c rules = (b,.refuse c.id (b.refusal c))) ∨
    (∃ o ∈ b.options c, b.mayStart c o rules.filters = none ∧
      b.decide c rules = (b.start c o,.start c.id o)) ∨
    (∃ o ∈ b.options c, ∃ why, b.mayStart c o rules.filters = some why ∧
      b.decide c rules = (b.keepTurn c (b.options c) why,.wait c.id why)) := by
  unfold Book.decide
  split_ifs with hempty
  · exact Or.inl ⟨hempty,rfl⟩
  split
  · rename_i o hfound
    have hmay := List.find?_some hfound
    refine Or.inr (Or.inl ⟨o,?_,by simpa using hmay,rfl⟩)
    exact mem_options_of_mem_ranked (List.mem_of_find?_eq_some hfound)
  · rename_i hnone
    cases hr : b.ranked c rules with
    | nil => exact absurd (permutation_eq_nil _ hr) hempty
    | cons o rest =>
      have hne : b.mayStart c o rules.filters ≠ none := by
        simpa using List.find?_eq_none.mp hnone o (by simp [hr])
      obtain ⟨why,hwhy⟩ := Option.ne_none_iff_exists'.mp hne
      refine Or.inr (Or.inr ⟨o,mem_options_of_mem_ranked (hr ▸ List.mem_cons_self),why,hwhy,?_⟩)
      simp [hwhy]

end Book

def starts (ds : List Decision) : List (ID × JobOption) :=
  ds.filterMap fun d => match d with
    | .start id o => some (id,o)
    | _ => none

@[simp] lemma starts_nil : starts [] = [] := rfl

@[simp] lemma starts_start (id : ID) (o : JobOption) (ds : List Decision) :
    starts (.start id o :: ds) = (id,o) :: starts ds := rfl

@[simp] lemma starts_wait (id : ID) (why : WaitReason) (ds : List Decision) :
    starts (.wait id why :: ds) = starts ds := rfl

@[simp] lemma starts_refuse (id : ID) (why : String) (ds : List Decision) :
    starts (.refuse id why :: ds) = starts ds := rfl

def startedJobs (started : List (ID × JobOption)) : List (ID × List Claim) :=
  started.map fun x => (x.1,x.2.claims)

def jobsAfter (s : State) (ds : List Decision) : List (ID × List Claim) :=
  heldJobs s.holdings ++ startedJobs (starts ds)

namespace Book

lemma foldl_reserveNeed_frame (id : ID) (ns : List Need) (b : Book) :
    (ns.foldl (reserveNeed id) b).capacity = b.capacity ∧
      (ns.foldl (reserveNeed id) b).used = b.used ∧
      (ns.foldl (reserveNeed id) b).holders = b.holders ∧
      (ns.foldl (reserveNeed id) b).exclusive = b.exclusive := by
  induction ns generalizing b with
  | nil => simp
  | cons n ns ih => simpa [reserveNeed] using ih (reserveNeed id b n)

theorem keepTurn_frame (b : Book) (c : Candidate) (options : List JobOption) (why : WaitReason) :
    (b.keepTurn c options why).capacity = b.capacity ∧ (b.keepTurn c options why).used = b.used ∧
      (b.keepTurn c options why).holders = b.holders ∧
      (b.keepTurn c options why).exclusive = b.exclusive := by
  unfold keepTurn
  split_ifs with h
  · simp
  · induction options generalizing b with
    | nil => simp
    | cons o options ih =>
      obtain ⟨h₁,h₂,h₃,h₄⟩ := ih (b.reserve c.id (needs o.claims))
      obtain ⟨g₁,g₂,g₃,g₄⟩ := foldl_reserveNeed_frame c.id (needs o.claims) b
      exact ⟨h₁.trans g₁,h₂.trans g₂,h₃.trans g₃,h₄.trans g₄⟩

/-- What holds of a resource that a job was started on. -/
structure Sound (b : Book) (r : ResourceID) : Prop where
  fits : ∃ capacity, b.capacity r = some capacity ∧ b.used r ≤ capacity
  alone : b.exclusive r ≠ [] → (b.holders r).length = 1

/-- The book accounts for the holdings and the jobs started, and every resource a started job
claims is sound. -/
structure Safe (b : Book) (held started : List (ID × List Claim)) : Prop where
  accounts : b.Accounts (held ++ started)
  sound : ∀ j ∈ started, ∀ r, claimsOn j.2 r = true → b.Sound r

lemma Sound.congr {b b' : Book} {r : ResourceID} (h : b.Sound r) (hc : b'.capacity r = b.capacity r)
    (hu : b'.used r = b.used r) (hh : b'.holders r = b.holders r)
    (he : b'.exclusive r = b.exclusive r) : b'.Sound r := by
  refine ⟨?_,?_⟩
  · rw [hc,hu]
    exact h.fits
  · rw [hh,he]
    exact h.alone

theorem Safe.keepTurn {b : Book} {held started : List (ID × List Claim)} (h : b.Safe held started)
    (c : Candidate) (options : List JobOption) (why : WaitReason) :
    (b.keepTurn c options why).Safe held started := by
  obtain ⟨hc,hu,hh,he⟩ := b.keepTurn_frame c options why
  refine ⟨⟨?_,?_,?_⟩,fun j hj r hr => ?_⟩
  · rw [hu]; exact h.accounts.used
  · rw [hh]; exact h.accounts.holders
  · rw [he]; exact h.accounts.exclusive
  · exact (h.sound j hj r hr).congr (congrFun hc r) (congrFun hu r) (congrFun hh r) (congrFun he r)

/-- A job that may start finds every resource it claims free enough, and leaves it sound. -/
theorem sound_start {b : Book} {jobs : List (ID × List Claim)} (h : b.Accounts jobs) {c : Candidate} {o : JobOption} {filters : List Filter}
    (hpossible : b.impossible (needs o.claims) = none) (hmay : b.mayStart c o filters = none)
    {r : ResourceID} (hr : claimsOn o.claims r = true) : (b.start c o).Sound r := by
  obtain ⟨n,hn,rfl⟩ := (exists_need_iff o.claims r).mpr hr
  obtain ⟨capacity,hcap,_⟩ := (b.impossible_eq_none_iff _).mp hpossible n hn
  have hblocked : b.blocked (needs o.claims) = none := (Option.or_eq_none_iff.mp hmay).1
  obtain ⟨hex,hholders,hfits⟩ := (b.blocked_eq_none_iff _).mp hblocked n hn
  refine ⟨⟨capacity,by simp [start,hcap],?_⟩,?_⟩
  · rw [hcap,Option.getD_some,h.used n.resource,wrap_wrap_add,← amountOn_of_mem hn,
      ← b.hold_used c.id o.claims n.resource (h.used n.resource)] at hfits
    exact hfits
  · intro halone
    have ha : aloneOn o.claims n.resource = true := by
      by_contra hna
      simp [start,hold_exclusive,hex,hna] at halone
    obtain ⟨m,hm,hmr,hme⟩ := (exists_exclusive_need_iff _ _).mpr ha
    have hfree : b.holders n.resource = [] := by
      obtain ⟨_,hfree,_⟩ := (b.blocked_eq_none_iff _).mp hblocked m hm
      rw [hmr] at hfree
      exact hfree hme
    simp [start,hold_holders,hfree,hr]

theorem Safe.start {b : Book} {held started : List (ID × List Claim)} (h : b.Safe held started)
    {c : Candidate} {o : JobOption} {filters : List Filter}
    (hpossible : b.impossible (needs o.claims) = none) (hmay : b.mayStart c o filters = none) :
    (b.start c o).Safe held (started ++ [(c.id,o.claims)]) := by
  refine ⟨?_,fun j hj r hr => ?_⟩
  · have ha := h.accounts.hold c.id o.claims
    rw [List.append_assoc] at ha
    exact ⟨ha.used,ha.holders,ha.exclusive⟩
  · by_cases hnew : claimsOn o.claims r = true
    · exact sound_start h.accounts hpossible hmay hnew
    · rcases List.mem_append.mp hj with hj | hj
      · have hna : aloneOn o.claims r = false := by
          rw [← Bool.not_eq_true,← exists_exclusive_need_iff]
          rintro ⟨n,hn,hnr,_⟩
          exact hnew ((exists_need_iff _ _).mp ⟨n,hn,hnr⟩)
        refine (h.sound j hj r hr).congr ?_ ?_ ?_ ?_
        · simp [Book.start]
        · have hused := b.hold_used c.id o.claims r (h.accounts.used r)
          rw [amountOn_of_not_claimsOn hnew,add_zero,← h.accounts.used r] at hused
          exact hused
        · simp [Book.start,hold_holders,hnew]
        · simp [Book.start,hold_exclusive,hna]
      · rw [List.mem_singleton.mp hj] at hr
        exact absurd hr hnew

theorem decideAll_safe (rules : Rules) (cs : List Candidate) {b : Book}
    {held started : List (ID × List Claim)} (h : b.Safe held started) :
    ∃ b' : Book, b'.capacity = b.capacity ∧
      b'.Safe held (started ++ startedJobs (starts (decideAll rules b cs))) := by
  induction cs generalizing b started with
  | nil => exact ⟨b,rfl,by simpa [decideAll,startedJobs] using h⟩
  | cons c cs ih =>
    rcases b.decide_cases c rules with ⟨_,hd⟩ | ⟨o,ho,hmay,hd⟩ | ⟨o,ho,why,hwhy,hd⟩
    · obtain ⟨b',hc,hs⟩ := ih h
      exact ⟨b',hc,by simpa [decideAll,hd] using hs⟩
    · obtain ⟨b',hc,hs⟩ := ih (h.start ((b.mem_options c o).mp ho).2 hmay)
      refine ⟨b',by simpa [Book.start] using hc,?_⟩
      simpa [decideAll,hd,startedJobs] using hs
    · obtain ⟨b',hc,hs⟩ := ih (h.keepTurn c (b.options c) why)
      refine ⟨b',hc.trans (b.keepTurn_frame c (b.options c) why).1,?_⟩
      simpa [decideAll,hd] using hs

theorem mem_starts_decideAll (rules : Rules) (cs : List Candidate) (b : Book) {x : ID × JobOption}
    (h : x ∈ starts (decideAll rules b cs)) :
    ∃ c ∈ cs, c.id = x.1 ∧ c.options.find? (fun p => p.placement = x.2.placement) = some x.2 := by
  induction cs generalizing b with
  | nil => simp [decideAll] at h
  | cons c cs ih =>
    have htail : ∀ b' : Book, x ∈ starts (decideAll rules b' cs) →
        ∃ c' ∈ c :: cs, c'.id = x.1 ∧ c'.options.find? (fun p => p.placement = x.2.placement) = some x.2 := by
      intro b' hx
      obtain ⟨c',hc',hid,hopt⟩ := ih b' hx
      exact ⟨c',List.mem_cons_of_mem _ hc',hid,hopt⟩
    rcases b.decide_cases c rules with ⟨_,hd⟩ | ⟨o,ho,_,hd⟩ | ⟨_,_,_,_,hd⟩
    · exact htail b (by simpa [decideAll,hd] using h)
    · rw [decideAll,hd,starts_start] at h
      rcases List.mem_cons.mp h with rfl | h
      · exact ⟨c,List.mem_cons_self,rfl,((b.mem_options c o).mp ho).1⟩
      · exact htail _ h
    · exact htail _ (by simpa [decideAll,hd] using h)

theorem decide_target (b : Book) (c : Candidate) (rules : Rules) : (b.decide c rules).2.Target = c.id := by
  rcases b.decide_cases c rules with ⟨_,hd⟩ | ⟨_,_,_,hd⟩ | ⟨_,_,_,_,hd⟩ <;> rw [hd] <;> rfl

theorem decideAll_targets (rules : Rules) (cs : List Candidate) (b : Book) :
    (decideAll rules b cs).map Decision.Target = cs.map Candidate.id := by
  induction cs generalizing b with
  | nil => rfl
  | cons c cs ih =>
    rw [decideAll,List.map_cons,List.map_cons,decide_target,ih]

end Book

lemma starts_sublist (ds : List Decision) :
    ((starts ds).map Prod.fst).Sublist (ds.map Decision.Target) := by
  induction ds with
  | nil => simp
  | cons d ds ih =>
    cases d with
    | start id o => simpa [Decision.Target] using ih
    | wait id why => simpa [Decision.Target] using ih.cons _
    | refuse id why => simpa [Decision.Target] using ih.cons _

def State.UniqueIDs (s : State) : Prop :=
  (s.holdings.map Holding.id ++ s.waiting.map Candidate.id).Nodup

instance (s : State) : Decidable s.UniqueIDs := inferInstanceAs (Decidable (List.Nodup _))

theorem considered_perm {s : State} (h : (s.waiting.map Candidate.id).Nodup) (rules : Rules) :
    (considered s rules).Perm s.waiting := by
  have harrived : (ArrivalOrder s.waiting).Perm s.waiting := List.perm_insertionSort _ _
  have hsplit : ((ArrivalOrder s.waiting).filter (fun c => c.first) ++
      (ArrivalOrder s.waiting).filter (fun c => !c.first)).Perm s.waiting :=
    (List.filter_append_perm (fun c : Candidate => c.first) (ArrivalOrder s.waiting)).trans harrived
  have hrest : (((ArrivalOrder s.waiting).filter (fun c => !c.first)).map Candidate.id).Nodup :=
    ((harrived.map Candidate.id).nodup_iff.mpr h).sublist (List.filter_sublist.map _)
  refine List.Perm.trans (List.Perm.append_left _ ?_) hsplit
  split
  · split_ifs
    · exact List.Perm.refl _
    · exact permutation_perm _ hrest _
  · exact List.Perm.refl _

/-- A resource that a started job claims is not overdrawn, as its use is kept, and whoever holds it alone is the
only holder. -/
theorem sound_of_started (s : State) (rules : Rules) {r : ResourceID}
    (h : ∃ x ∈ starts (step s rules), claimsOn x.2.claims r = true) :
    (∃ capacity, capacityOf s.resources r = some capacity ∧
      wrap ((jobsAfter s (step s rules)).map fun j => amountOn j.2 r).sum ≤ capacity) ∧
    ((∃ j ∈ jobsAfter s (step s rules), aloneOn j.2 r = true) →
      ((jobsAfter s (step s rules)).filter fun j => claimsOn j.2 r).length = 1) := by
  obtain ⟨x,hx,hxr⟩ := h
  have hsafe : (newBook s).Safe (heldJobs s.holdings) [] :=
    ⟨by simpa using newBook_accounts s,by simp⟩
  obtain ⟨b,hc,hb⟩ := Book.decideAll_safe rules (considered s rules) hsafe
  rw [List.nil_append] at hb
  have hsound := hb.sound (x.1,x.2.claims) (List.mem_map.mpr ⟨x,hx,rfl⟩) r hxr
  obtain ⟨capacity,hcap,hused⟩ := hsound.fits
  refine ⟨⟨capacity,?_,?_⟩,?_⟩
  · rw [← (newBook_frame s).1,← hc]
    exact hcap
  · rwa [hb.accounts.used r] at hused
  · rintro ⟨j,hj,hjr⟩
    have hone := hsound.alone ?_
    · rw [hb.accounts.holders r,List.length_map] at hone
      exact hone
    · rw [hb.accounts.exclusive r]
      have hmem : j ∈ (jobsAfter s (step s rules)).filter fun j => aloneOn j.2 r :=
        List.mem_filter.mpr ⟨hj,hjr⟩
      exact fun he => List.ne_nil_of_mem hmem (List.map_eq_nil_iff.mp he)

/-- The most that a job claims of a resource on one of its options. -/
def Candidate.most (c : Candidate) (r : ResourceID) : ℤ := (c.options.map fun o => claimed o.claims r).foldr max 0

/-- The claims of all holdings on a resource, and those of each waiting job on the option that claims most of it,
add up to an integer of 64 bits. -/
def State.Fits (s : State) (r : ResourceID) : Prop :=
  ((heldJobs s.holdings).map fun j => claimed j.2 r).sum + (s.waiting.map fun c => c.most r).sum < 2^63

instance (s : State) (r : ResourceID) : Decidable (s.Fits r) := inferInstanceAs (Decidable (_ < _))

lemma claimed_nonneg (claims : List Claim) (r : ResourceID) : 0 ≤ claimed claims r := by
  refine List.sum_nonneg fun n hn => ?_
  obtain ⟨c,_,rfl⟩ := List.mem_map.mp hn
  exact le_trans zero_le_one (le_max_right _ _)

lemma sum_claimed_nonneg (jobs : List (ID × List Claim)) (r : ResourceID) :
    0 ≤ (jobs.map fun j => claimed j.2 r).sum := by
  refine List.sum_nonneg fun n hn => ?_
  obtain ⟨j,_,rfl⟩ := List.mem_map.mp hn
  exact claimed_nonneg j.2 r

lemma most_nonneg (c : Candidate) (r : ResourceID) : 0 ≤ c.most r := by
  unfold Candidate.most
  induction c.options with
  | nil => exact le_rfl
  | cons o options ih => exact ih.trans (le_max_right _ _)

lemma claimed_le_most {c : Candidate} {o : JobOption} (h : o ∈ c.options) (r : ResourceID) :
    claimed o.claims r ≤ c.most r := by
  have hmost : ∀ options : List JobOption, o ∈ options →
      claimed o.claims r ≤ (options.map fun o => claimed o.claims r).foldr max 0 := by
    intro options
    induction options with
    | nil => exact nofun
    | cons p options ih =>
      intro h
      rcases List.mem_cons.mp h with rfl | h
      · exact le_max_left _ _
      · exact (ih h).trans (le_max_right _ _)
  exact hmost c.options h

lemma Book.starts_claimed_le (rules : Rules) (cs : List Candidate) (b : Book) (r : ResourceID) :
    ((startedJobs (starts (decideAll rules b cs))).map fun j => claimed j.2 r).sum ≤ (cs.map fun c => c.most r).sum := by
  induction cs generalizing b with
  | nil => exact le_rfl
  | cons c cs ih =>
    rw [decideAll,List.map_cons,List.sum_cons]
    have hmost := most_nonneg c r
    rcases b.decide_cases c rules with ⟨_,hd⟩ | ⟨o,ho,_,hd⟩ | ⟨_,_,_,_,hd⟩
    · rw [hd,starts_refuse]
      exact (ih b).trans (le_add_of_nonneg_left hmost)
    · have hle := claimed_le_most (List.mem_of_find?_eq_some ((b.mem_options c o).mp ho).1) r
      rw [hd,starts_start,startedJobs,List.map_cons,List.map_cons,List.sum_cons]
      exact add_le_add hle (ih _)
    · rw [hd,starts_wait]
      exact (ih _).trans (le_add_of_nonneg_left hmost)

/-- Of claims that fit together, merging and adding up loses nothing. -/
lemma sum_amountOn_of_fits {jobs : List (ID × List Claim)} {r : ResourceID}
    (h : (jobs.map fun j => claimed j.2 r).sum < 2^63) :
    (jobs.map fun j => amountOn j.2 r).sum = (jobs.map fun j => claimed j.2 r).sum := by
  induction jobs with
  | nil => rfl
  | cons j jobs ih =>
    have hjob := claimed_nonneg j.2 r
    have hjobs := sum_claimed_nonneg jobs r
    rw [List.map_cons,List.sum_cons] at h
    rw [List.map_cons,List.map_cons,List.sum_cons,List.sum_cons,ih (by omega),amountOn_eq_wrap,
      wrap_of_fits (by omega) (by omega)]

theorem State.Fits.wrap_sum {s : State} {r : ResourceID} (h : s.Fits r) (hids : (s.waiting.map Candidate.id).Nodup)
    (rules : Rules) : wrap ((jobsAfter s (step s rules)).map fun j => amountOn j.2 r).sum =
      ((jobsAfter s (step s rules)).map fun j => amountOn j.2 r).sum := by
  have hstarted := Book.starts_claimed_le rules (considered s rules) (newBook s) r
  rw [((considered_perm hids rules).map fun c => c.most r).sum_eq] at hstarted
  have hfits : ((jobsAfter s (step s rules)).map fun j => claimed j.2 r).sum < 2^63 := by
    rw [jobsAfter,List.map_append,List.sum_append]
    exact lt_of_le_of_lt (add_le_add le_rfl hstarted) h
  have hpos := sum_claimed_nonneg (jobsAfter s (step s rules)) r
  rw [sum_amountOn_of_fits hfits]
  exact wrap_of_fits (by omega) hfits

lemma State.Fits.held {s : State} {r : ResourceID} (h : s.Fits r) {j : ID × List Claim} (hj : j ∈ heldJobs s.holdings) :
    claimed j.2 r < 2^63 := by
  have hheld : claimed j.2 r ≤ ((heldJobs s.holdings).map fun j => claimed j.2 r).sum := by
    refine List.single_le_sum (fun n hn => ?_) _ (List.mem_map.mpr ⟨j,hj,rfl⟩)
    obtain ⟨j,_,rfl⟩ := List.mem_map.mp hn
    exact claimed_nonneg j.2 r
  have hwaiting : 0 ≤ (s.waiting.map fun c => c.most r).sum := by
    refine List.sum_nonneg fun n hn => ?_
    obtain ⟨c,_,rfl⟩ := List.mem_map.mp hn
    exact most_nonneg c r
  exact lt_of_le_of_lt (hheld.trans (le_add_of_nonneg_right hwaiting)) h

/-- For every resource a started job claims, the merged needs of all holdings and started jobs
keep to its capacity if the claims on it fit, and a job that claims it for itself alone is the only
one that claims it. Every started job starts on the first of its own options of that placement. -/
theorem step_safe (s : State) (rules : Rules) (h : s.UniqueIDs) :
    (∀ r, (∃ x ∈ starts (step s rules), claimsOn x.2.claims r = true) →
      (s.Fits r → ∃ capacity, capacityOf s.resources r = some capacity ∧
        ((jobsAfter s (step s rules)).map fun j => amountOn j.2 r).sum ≤ capacity) ∧
      ((∃ j ∈ jobsAfter s (step s rules), aloneOn j.2 r = true) →
        ((jobsAfter s (step s rules)).filter fun j => claimsOn j.2 r).length = 1)) ∧
    (∀ x ∈ starts (step s rules), ∃ c ∈ s.waiting, c.id = x.1 ∧ x.2 ∈ c.options ∧
      c.options.find? (fun p => p.placement = x.2.placement) = some x.2) ∧
    ((jobsAfter s (step s rules)).map Prod.fst).Nodup := by
  obtain ⟨hheld,hwaiting,hdisjoint⟩ := List.nodup_append.mp h
  have hperm := considered_perm hwaiting rules
  refine ⟨fun r hr => ⟨fun hfits => ?_,(sound_of_started s rules hr).2⟩,fun x hx => ?_,?_⟩
  · obtain ⟨capacity,hcap,hused⟩ := (sound_of_started s rules hr).1
    exact ⟨capacity,hcap,hfits.wrap_sum hwaiting rules ▸ hused⟩
  · obtain ⟨c,hmem,hid,hopt⟩ := Book.mem_starts_decideAll rules _ _ hx
    exact ⟨c,hperm.mem_iff.mp hmem,hid,List.mem_of_find?_eq_some hopt,hopt⟩
  · have hids : (jobsAfter s (step s rules)).map Prod.fst =
        s.holdings.map Holding.id ++ (starts (step s rules)).map Prod.fst := by
      simp [jobsAfter,heldJobs,startedJobs,Function.comp_def]
    have hsub := starts_sublist (step s rules)
    rw [step,Book.decideAll_targets] at hsub
    have hnd : ((considered s rules).map Candidate.id).Nodup := (hperm.map _).nodup_iff.mpr hwaiting
    rw [hids]
    refine List.nodup_append.mpr ⟨hheld,hnd.sublist hsub,?_⟩
    intro a ha b hb
    exact hdisjoint a ha b ((hperm.map Candidate.id).mem_iff.mp (hsub.subset hb))

/-- A slot of the placement is held, a GPU is free, and the later of two jobs wants both. -/
def sharedSlots : State where
  resources := [⟨"placement:a",2⟩,⟨"gpu",1⟩]
  holdings := [⟨"h",[⟨"placement:a",1,false⟩],""⟩]
  waiting := [⟨"j1",[⟨"a",[⟨"placement:a",1,false⟩,⟨"gpu",1,true⟩]⟩],"",5,1,false,none⟩,
    ⟨"j2",[⟨"a",[⟨"placement:a",1,false⟩]⟩],"",4,2,false,none⟩]
  recent := []

/-- A policy that reverses the arrival order and repeats what it was given. -/
def stuttering : Rules := { policy := some fun cs _ => cs.reverse ++ cs }

theorem step_safe_sharedSlots :
    (starts (step sharedSlots stuttering)).map Prod.fst = ["j1"] ∧ sharedSlots.Fits "gpu" ∧
    ∃ capacity, capacityOf sharedSlots.resources "gpu" = some capacity ∧
      ((jobsAfter sharedSlots (step sharedSlots stuttering)).map fun j => amountOn j.2 "gpu").sum ≤ capacity :=
  ⟨by decide +kernel,by decide,((step_safe sharedSlots stuttering (by decide)).1 "gpu" (by decide +kernel)).1 (by decide)⟩

/-- More of the GPUs is held than there are, as much as an integer can say, and a job wants one. -/
def overdrawn : State where
  resources := [⟨"gpu",8⟩]
  holdings := [⟨"h",[⟨"gpu",2^63-1,false⟩],""⟩]
  waiting := [⟨"j1",[⟨"",[⟨"gpu",1,false⟩]⟩],"",1,1,false,none⟩]
  recent := []

/-- What is used wraps to a negative number, and the job starts. -/
theorem starts_on_overdrawn :
    overdrawn.UniqueIDs ∧ (∃ x ∈ starts (step overdrawn {}), claimsOn x.2.claims "gpu" = true) ∧
    ¬∃ capacity, capacityOf overdrawn.resources "gpu" = some capacity ∧
      ((jobsAfter overdrawn (step overdrawn {})).map fun j => amountOn j.2 "gpu").sum ≤ capacity := by
  refine ⟨by decide,by decide +kernel,?_⟩
  rintro ⟨capacity,hcapacity,hsum⟩
  have hcap : capacityOf overdrawn.resources "gpu" = some 8 := by decide +kernel
  rw [hcap] at hcapacity
  obtain rfl := Option.some.inj hcapacity
  revert hsum
  decide +kernel

end Vibesys.Schedule
