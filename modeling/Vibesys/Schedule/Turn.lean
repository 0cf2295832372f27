import Vibesys.Schedule.Safety

/-!
# Turns

Without filters a waiting job keeps its turn on every resource of every option it could ever be
granted: no job decided after it starts there.
-/
namespace Vibesys.Schedule

open Vibesys.Library

/-- The resources could grant the claims of an option if nothing were held. The needs are those the scheduler adds
up, in integers of 64 bits. -/
def Grantable (resources : List Resource) (o : JobOption) : Prop :=
  ∀ n ∈ needs o.claims, ∃ capacity, capacityOf resources n.resource = some capacity ∧ n.amount ≤ capacity

/-- Where no sum of the claims on a resource wraps, each resource has as much as is claimed of it. -/
theorem grantable_iff {resources : List Resource} {o : JobOption} (hfits : ∀ r, claimed o.claims r < 2^63) :
    Grantable resources o ↔ ∀ r, claimsOn o.claims r = true →
      ∃ capacity, capacityOf resources r = some capacity ∧ claimed o.claims r ≤ capacity := by
  have hamount : ∀ n ∈ needs o.claims, n.amount = claimed o.claims n.resource := by
    intro n hn
    rw [← amountOn_of_mem hn,amountOn_eq_wrap]
    exact wrap_of_fits (by have := claimed_nonneg o.claims n.resource; omega) (hfits n.resource)
  constructor
  · intro h r hr
    obtain ⟨n,hn,rfl⟩ := (exists_need_iff o.claims r).mpr hr
    rw [← hamount n hn]
    exact h n hn
  · intro h n hn
    rw [hamount n hn]
    exact h n.resource ((exists_need_iff o.claims _).mp ⟨n,hn,rfl⟩)

/-- An option of a job that could ever be granted; only the first of each placement counts. -/
def Candidate.MayHold (c : Candidate) (resources : List Resource) (o : JobOption) : Prop :=
  c.options.find? (fun p => p.placement = o.placement) = some o ∧ Grantable resources o

namespace Book

theorem mem_options_iff_mayHold {b : Book} {resources : List Resource}
    (h : b.capacity = capacityOf resources) (c : Candidate) (o : JobOption) :
    o ∈ b.options c ↔ c.MayHold resources o := by
  rw [mem_options,impossible_eq_none_iff,h]
  rfl

theorem decide_capacity (b : Book) (c : Candidate) (rules : Rules) :
    (b.decide c rules).1.capacity = b.capacity := by
  rcases b.decide_cases c rules with ⟨_,hd⟩ | ⟨o,_,_,hd⟩ | ⟨_,_,why,_,hd⟩
  · rw [hd]
  · rw [hd]
    simp [start]
  · rw [hd]
    exact (b.keepTurn_frame c _ why).1

lemma foldl_reserveNeed_reserved (id : ID) (ns : List Need) (b : Book) (r : ResourceID) :
    (ns.foldl (reserveNeed id) b).reserved r =
      b.reserved r ++ (ns.filter fun n => n.resource = r).map fun _ => id := by
  induction ns generalizing b with
  | nil => simp
  | cons n ns ih =>
    rw [List.foldl_cons,ih]
    by_cases h : n.resource = r
    · subst h
      simp [reserveNeed]
    · simp [reserveNeed,h,Function.update_of_ne (fun he => h he.symm)]

lemma foldl_reserve_reserved (id : ID) (options : List JobOption) (b : Book) (r : ResourceID) :
    (options.foldl (fun b o => b.reserve id (needs o.claims)) b).reserved r ≠ [] ↔
      b.reserved r ≠ [] ∨ ∃ o ∈ options, claimsOn o.claims r = true := by
  induction options generalizing b with
  | nil => simp
  | cons o options ih =>
    rw [List.foldl_cons,ih,reserve,foldl_reserveNeed_reserved]
    simp only [ne_eq,List.append_eq_nil_iff,List.map_eq_nil_iff,List.filter_eq_nil_iff,
      decide_eq_true_eq,not_and_or,not_forall,not_not,exists_prop,List.mem_cons,exists_eq_or_imp,
      exists_need_iff,or_assoc]

theorem keepTurn_reserved {b : Book} {c : Candidate} {options : List JobOption} {why : WaitReason}
    (h : why.kind ≠ .held) (r : ResourceID) :
    (b.keepTurn c options why).reserved r ≠ [] ↔
      b.reserved r ≠ [] ∨ ∃ o ∈ options, claimsOn o.claims r = true := by
  rw [keepTurn,if_neg h]
  exact foldl_reserve_reserved c.id options b r

theorem mayStart_kind {b : Book} {c : Candidate} {o : JobOption} {why : WaitReason}
    (h : b.mayStart c o [] = some why) : why.kind ≠ .held := by
  have hb : ∀ ns, b.blocked ns = some why → why.kind ≠ .held := by
    intro ns
    induction ns with
    | nil => simp [blocked]
    | cons n ns ih =>
      intro h
      rw [blocked] at h
      split_ifs at h <;> first | exact ih h | (cases h; simp)
  rcases Option.or_eq_some_iff.mp h with h | ⟨_,h⟩
  · exact hb _ h
  rcases Option.or_eq_some_iff.mp h with h | ⟨_,h⟩
  · obtain ⟨n,_,rfl⟩ := Option.map_eq_some_iff.mp h
    simp
  rcases Option.or_eq_some_iff.mp h with h | ⟨_,h⟩
  · obtain ⟨l,_,h⟩ := Option.bind_eq_some_iff.mp h
    split_ifs at h
    cases h
    simp
  · simp [heldBack] at h

theorem decide_reserved_mono {b : Book} {c : Candidate} {rules : Rules} {r : ResourceID}
    (h : b.reserved r ≠ []) : (b.decide c rules).1.reserved r ≠ [] := by
  rcases b.decide_cases c rules with ⟨_,hd⟩ | ⟨o,_,_,hd⟩ | ⟨_,_,why,_,hd⟩
  · rwa [hd]
  · rw [hd]
    simpa [start] using h
  · rw [hd]
    by_cases hk : why.kind = .held
    · simpa [keepTurn,hk] using h
    · exact (keepTurn_reserved hk r).mpr (Or.inl h)

/-- No job starts on a resource an earlier one keeps its turn on. -/
theorem not_start_reserved (rules : Rules) (cs : List Candidate) {b : Book} {r : ResourceID}
    (h : b.reserved r ≠ []) {id : ID} {o : JobOption} (hd : .start id o ∈ decideAll rules b cs) :
    claimsOn o.claims r = false := by
  induction cs generalizing b with
  | nil => simp [decideAll] at hd
  | cons c cs ih =>
    rcases List.mem_cons.mp hd with hd | hd
    · rcases b.decide_cases c rules with ⟨_,he⟩ | ⟨o',_,hmay,he⟩ | ⟨_,_,_,_,he⟩
      · rw [he] at hd; contradiction
      · rw [he] at hd
        cases hd
        have hbehind := (Option.or_eq_none_iff.mp (Option.or_eq_none_iff.mp hmay).2).1
        rw [← Bool.not_eq_true,← exists_need_iff]
        rintro ⟨n,hn,rfl⟩
        exact h ((b.behind_eq_none_iff _).mp hbehind n hn)
      · rw [he] at hd; contradiction
    · exact ih (decide_reserved_mono h) hd

theorem mem_decideAll (rules : Rules) (cs : List Candidate) (b : Book) (d : Decision)
    (hd : d ∈ decideAll rules b cs) :
    ∃ c ∈ cs, ∃ b' : Book, b'.capacity = b.capacity ∧ d = (b'.decide c rules).2 := by
  induction cs generalizing b with
  | nil => simp [decideAll] at hd
  | cons c cs ih =>
    rcases List.mem_cons.mp hd with hd | hd
    · exact ⟨c,List.mem_cons_self,b,rfl,hd⟩
    · obtain ⟨c',hc',b',hb',hd⟩ := ih _ hd
      exact ⟨c',List.mem_cons_of_mem _ hc',b',hb'.trans (b.decide_capacity c rules),hd⟩

theorem decideAll_mem (rules : Rules) (cs : List Candidate) (b : Book) (c : Candidate) (hc : c ∈ cs) :
    ∃ b' : Book, b'.capacity = b.capacity ∧ (b'.decide c rules).2 ∈ decideAll rules b cs := by
  induction cs generalizing b with
  | nil => simp at hc
  | cons c' cs ih =>
    rcases List.mem_cons.mp hc with rfl | hc
    · exact ⟨b,rfl,List.mem_cons_self⟩
    · obtain ⟨b',hb',hd⟩ := ih (b.decide c' rules).1 hc
      exact ⟨b',hb'.trans (b.decide_capacity c' rules),List.mem_cons_of_mem _ hd⟩

/-- A later start claims nothing that an option of an earlier waiting job could be granted. -/
theorem decideAll_keepsTurn {rules : Rules} (hfilters : rules.filters = []) {resources : List Resource}
    (cs : List Candidate) (hids : (cs.map Candidate.id).Nodup) (b : Book)
    (hb : b.capacity = capacityOf resources) :
    (decideAll rules b cs).Pairwise fun d d' => ∀ id why id' o', d = .wait id why → d' = .start id' o' →
      ∀ c ∈ cs, c.id = id → ∀ o, c.MayHold resources o →
        ∀ r, claimsOn o.claims r = true → claimsOn o'.claims r = false := by
  induction cs generalizing b with
  | nil => exact List.Pairwise.nil
  | cons c cs ih =>
    obtain ⟨hnotin,hids⟩ := List.nodup_cons.mp hids
    refine List.pairwise_cons.mpr ⟨?_,?_⟩
    · rintro d' hd' id why id' o' hwait rfl c' hc' hid o hmay r hr
      rcases b.decide_cases c rules with ⟨_,he⟩ | ⟨_,_,_,he⟩ | ⟨o₀,_,why',hwhy,he⟩
      · rw [he] at hwait; contradiction
      · rw [he] at hwait; contradiction
      · rw [he] at hwait hd'
        cases hwait
        have hcc : c' = c := by
          rcases List.mem_cons.mp hc' with h | h
          · exact h
          · exact absurd (hid ▸ List.mem_map_of_mem h) hnotin
        subst hcc
        rw [hfilters] at hwhy
        refine not_start_reserved rules cs ?_ hd'
        exact (keepTurn_reserved (mayStart_kind hwhy) r).mpr
          (Or.inr ⟨o,(mem_options_iff_mayHold hb c' o).mpr hmay,hr⟩)
    · have htail := ih hids (b.decide c rules).1 ((b.decide_capacity c rules).trans hb)
      refine List.Pairwise.imp_of_mem ?_ htail
      rintro d d' hd _ hkeep id why id' o' rfl rfl c' hc' hid
      rcases List.mem_cons.mp hc' with rfl | hc'
      · obtain ⟨c₁,hc₁,b₁,_,hd₁⟩ := mem_decideAll rules cs _ _ hd
        have hid₁ : c₁.id = id := by
          have ht := b₁.decide_target c₁ rules
          rw [← hd₁] at ht
          exact ht.symm
        exact absurd ((hid₁.trans hid.symm) ▸ List.mem_map_of_mem hc₁) hnotin
      · exact hkeep id why id' o' rfl rfl c' hc' hid

end Book

theorem considered_first (s : State) (rules : Rules) :
    (considered s rules).Pairwise fun c c' => c'.first = true → c.first = true := by
  refine List.pairwise_append.mpr ⟨?_,?_,?_⟩
  · refine List.pairwise_of_forall_mem_list fun c hc c' _ _ => ?_
    exact (List.mem_filter.mp hc).2
  · refine List.pairwise_of_forall_mem_list fun c _ c' hc' hfirst => ?_
    have hrest : c' ∈ (ArrivalOrder s.waiting).filter (fun c => !c.first) := by
      revert hc'
      split
      · split_ifs
        · exact id
        · exact mem_of_mem_permutation _
      · exact id
    have := (List.mem_filter.mp hrest).2
    simp [hfirst] at this
  · intro c hc c' _ _
    exact (List.mem_filter.mp hc).2

end Vibesys.Schedule
