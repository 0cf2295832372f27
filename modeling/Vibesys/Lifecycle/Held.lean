import Mathlib.Algebra.Order.BigOperators.Group.List
import Mathlib.Algebra.Order.Ring.Int
import Vibesys.Lifecycle.Runs

/-!
# What a job holds that the machine did not place

A restart finds a job running and does not know on which of its options. The machine then holds for it the
most that any of its claims asks of each resource, and the scheduler merges what is held as it merges the
claims of one option, where several claims on one resource add up.
-/
namespace Vibesys.Lifecycle
open Library Schedule

/-! ## The most that is claimed -/

/-- Some claim of a list takes at least what a claim takes, and alone if that one does. -/
def Covers (out : List Claim) (c : Claim) : Prop :=
  ∃ h ∈ out, h.resource = c.resource ∧ c.amount ≤ h.amount ∧ (c.exclusive = true → h.exclusive = true)

lemma covers_mostClaimed (c : Claim) (out : List Claim) : Covers (Entry.mostClaimed c out) c := by
  induction out with
  | nil => exact ⟨c,List.mem_singleton_self c,rfl,le_rfl,id⟩
  | cons h out ih =>
    rw [Entry.mostClaimed]
    split_ifs with hr
    · exact ⟨_,List.mem_cons_self,hr,le_max_right _ _,by simp +contextual⟩
    · obtain ⟨h',hmem,hcov⟩ := ih
      exact ⟨h',List.mem_cons_of_mem _ hmem,hcov⟩

lemma Covers.mostClaimed {out : List Claim} {c : Claim} (h : Covers out c) (d : Claim) :
    Covers (Entry.mostClaimed d out) c := by
  induction out with
  | nil => exact absurd h (by simp [Covers])
  | cons a out ih =>
    obtain ⟨b,hb,hres,hamount,halone⟩ := h
    rw [Entry.mostClaimed]
    rcases List.mem_cons.mp hb with rfl | hb
    · split_ifs
      · exact ⟨_,List.mem_cons_self,hres,hamount.trans (le_max_left _ _),by simp +contextual [halone]⟩
      · exact ⟨b,List.mem_cons_self,hres,hamount,halone⟩
    · split_ifs
      · exact ⟨b,List.mem_cons_of_mem _ hb,hres,hamount,halone⟩
      · obtain ⟨b',hb',hcov⟩ := ih ⟨b,hb,hres,hamount,halone⟩
        exact ⟨b',List.mem_cons_of_mem _ hb',hcov⟩

theorem covers_foldl {claims : List Claim} {c : Claim} (h : c ∈ claims) :
    Covers (claims.foldl (fun out c => Entry.mostClaimed c out) []) c := by
  induction claims using List.reverseRecOn with
  | nil => simp at h
  | append_singleton claims d ih =>
    rw [List.foldl_append]
    rcases List.mem_append.mp h with h | h
    · exact (ih h).mostClaimed d
    · rw [List.mem_singleton.mp h]
      exact covers_mostClaimed d _

/-- The largest of the claims on a resource, each as one at least. -/
def largestOn (claims : List Claim) (r : ResourceID) : ℤ :=
  ((claims.filter fun c => c.resource = r).map fun c => max c.amount 1).foldr max 0

lemma claimed_cons (c : Claim) (claims : List Claim) (r : ResourceID) :
    claimed (c :: claims) r = (if c.resource = r then max c.amount 1 else 0) + claimed claims r := by
  by_cases hr : c.resource = r <;> simp [claimed,hr]

lemma claimed_of_not_mem {claims : List Claim} {r : ResourceID} (h : r ∉ claims.map Claim.resource) :
    claimed claims r = 0 := by
  have hnone : claims.filter (fun c => c.resource = r) = [] := by
    refine List.filter_eq_nil_iff.mpr fun c hc => ?_
    simpa using fun hr => h (List.mem_map.mpr ⟨c,hc,hr⟩)
  simp [claimed,hnone]

lemma mostClaimed_resource (d : Claim) (out : List Claim) :
    (Entry.mostClaimed d out).map Claim.resource =
      if d.resource ∈ out.map Claim.resource then out.map Claim.resource else out.map Claim.resource ++ [d.resource] := by
  induction out with
  | nil => simp [Entry.mostClaimed]
  | cons h out ih =>
    by_cases hr : h.resource = d.resource
    · simp [Entry.mostClaimed,hr]
    · have hne : d.resource ≠ h.resource := fun he => hr he.symm
      simp only [Entry.mostClaimed,hr,if_false,List.map_cons,ih,List.mem_cons,hne,false_or]
      split <;> simp

lemma claimed_mostClaimed (d : Claim) {out : List Claim} (hnd : (out.map Claim.resource).Nodup) (r : ResourceID) :
    claimed (Entry.mostClaimed d out) r =
      if d.resource = r then max (claimed out r) (max d.amount 1) else claimed out r := by
  induction out with
  | nil =>
    rw [Entry.mostClaimed,claimed_cons]
    split_ifs
    · exact (add_zero _).trans (max_eq_right (zero_le_one.trans (le_max_right _ _))).symm
    · rfl
  | cons h out ih =>
    obtain ⟨hnot,hout⟩ := List.nodup_cons.mp hnd
    rw [Entry.mostClaimed]
    by_cases hr : h.resource = d.resource
    · rw [if_pos hr,claimed_cons,claimed_cons,hr]
      by_cases hd : d.resource = r
      · -- Nothing else is held of the resource.
        rw [claimed_of_not_mem (hd ▸ hr ▸ hnot),if_pos hd,if_pos hd,if_pos hd,add_zero,add_zero]
        exact sup_sup_distrib_right _ _ _
      · simp only [if_neg hd]
    · rw [if_neg hr,claimed_cons,claimed_cons,ih hout]
      by_cases hd : d.resource = r
      · rw [if_neg (hd ▸ hr),zero_add,zero_add]
      · simp only [if_neg hd]

theorem claimed_foldl_mostClaimed (claims : List Claim) :
    ((claims.foldl (fun out c => Entry.mostClaimed c out) []).map Claim.resource).Nodup ∧
    ∀ r, claimed (claims.foldl (fun out c => Entry.mostClaimed c out) []) r = largestOn claims r := by
  induction claims using List.reverseRecOn with
  | nil => exact ⟨List.nodup_nil,fun r => rfl⟩
  | append_singleton claims d ih =>
    obtain ⟨hnd,hclaimed⟩ := ih
    rw [List.foldl_append]
    refine ⟨?_,fun r => ?_⟩
    · change ((Entry.mostClaimed d _).map Claim.resource).Nodup
      rw [mostClaimed_resource]
      split_ifs with hmem
      · exact hnd
      · exact List.nodup_append.mpr ⟨hnd,List.nodup_singleton _,fun a ha b hb he =>
          hmem (List.mem_singleton.mp hb ▸ he ▸ ha)⟩
    · refine (claimed_mostClaimed d hnd r).trans ?_
      have hmax : ∀ (l : List ℤ) (n : ℤ), (l ++ [n]).foldr max 0 = max (l.foldr max 0) (max n 0) := by
        intro l n
        induction l with
        | nil => simp
        | cons m l ih => rw [List.cons_append,List.foldr_cons,ih,List.foldr_cons,max_assoc]
      rw [hclaimed r]
      by_cases hd : d.resource = r
      · simp [largestOn,hd,hmax]
      · simp [largestOn,hd]

/-! ## The options of a job -/

/-- Where a job may run on several options, no option's claims on a resource add up, as integers of 64 bits do, to
more than the largest single claim on it. -/
def Entry.ClaimsFit (resources : List Resource) (e : Entry) : Prop :=
  (e.optionsOf resources).length = 1 ∨
    ∀ o ∈ e.optionsOf resources, ∀ r, claimsOn o.claims r = true →
      wrap (claimed o.claims r) ≤ wrap (largestOn ((e.optionsOf resources).flatMap JobOption.claims) r)

/-- What is held is on each resource at least what the option needs there, and alone where the option is. -/
def Entry.HoldsFor (resources : List Resource) (e : Entry) (o : JobOption) : Prop :=
  ∀ n ∈ needs o.claims, ∃ m ∈ needs (e.heldClaims resources), m.resource = n.resource ∧
    n.amount ≤ m.amount ∧ (n.exclusive = true → m.exclusive = true)

theorem held_need {resources : List Resource} {e : Entry} (hheld : e.heldClaims resources =
      ((e.optionsOf resources).flatMap JobOption.claims).foldl (fun out c => Entry.mostClaimed c out) [])
    {o : JobOption} (ho : o ∈ e.optionsOf resources) {n : Need} (hn : n ∈ needs o.claims) :
    ∃ m ∈ needs (e.heldClaims resources), m.resource = n.resource ∧
      m.amount = wrap (largestOn ((e.optionsOf resources).flatMap JobOption.claims) n.resource) ∧
      (n.exclusive = true → m.exclusive = true) := by
  have hcovers : ∀ c ∈ o.claims, Covers (e.heldClaims resources) c := by
    intro c hc
    rw [hheld]
    exact covers_foldl (List.mem_flatMap.mpr ⟨o,ho,hc⟩)
  obtain ⟨c,hc,hcr⟩ : ∃ c ∈ o.claims, c.resource = n.resource := by
    have := (exists_need_iff o.claims n.resource).mp ⟨n,hn,rfl⟩
    simpa [claimsOn] using this
  obtain ⟨h,hh,hres,-⟩ := hcovers c hc
  obtain ⟨m,hm,hmr⟩ := (exists_need_iff (e.heldClaims resources) n.resource).mpr (by
    simp only [claimsOn,List.any_eq_true,decide_eq_true_eq]
    exact ⟨h,hh,hres.trans hcr⟩)
  refine ⟨m,hm,hmr,?_,fun hex => ?_⟩
  · rw [← amountOn_of_mem hm,hmr,amountOn_eq_wrap,hheld,(claimed_foldl_mostClaimed _).2]
  · have halone := (exists_exclusive_need_iff o.claims n.resource).mp ⟨n,hn,rfl,hex⟩
    simp only [aloneOn,List.any_eq_true,Bool.and_eq_true,decide_eq_true_eq] at halone
    obtain ⟨c,hc,hcr,hce⟩ := halone
    obtain ⟨h,hh,hres,-,hexcl⟩ := hcovers c hc
    obtain ⟨m',hm',hmr',hme⟩ := (exists_exclusive_need_iff (e.heldClaims resources) n.resource).mpr (by
      simp only [aloneOn,List.any_eq_true,Bool.and_eq_true,decide_eq_true_eq]
      exact ⟨h,hh,hres.trans hcr,hexcl hce⟩)
    rwa [List.inj_on_of_nodup_map (needs_nodup _) hm hm' (hmr.trans hmr'.symm)]

/-- What is held is enough for every option exactly if the claims of the options fit. -/
theorem holdsFor_iff_claimsFit {resources : List Resource} {e : Entry} (hplaced : e.placed = none) :
    (∀ o ∈ e.optionsOf resources, e.HoldsFor resources o) ↔ e.ClaimsFit resources := by
  by_cases hone : ∃ p, e.optionsOf resources = [p]
  · obtain ⟨p,hp⟩ := hone
    refine ⟨fun _ => .inl (by rw [hp]; rfl),fun _ o ho n hn => ?_⟩
    rw [hp,List.mem_singleton] at ho
    rw [Entry.heldClaims,hplaced,hp,← ho]
    exact ⟨n,hn,rfl,le_rfl,id⟩
  have hheld : e.heldClaims resources = ((e.optionsOf resources).flatMap JobOption.claims).foldl
      (fun out c => Entry.mostClaimed c out) [] := by
    unfold Entry.heldClaims
    split
    · simp_all
    · simp_all
    · rfl
  constructor
  · refine fun hholds => .inr fun o ho r hr => ?_
    obtain ⟨n,hn,rfl⟩ := (exists_need_iff _ _).mpr hr
    obtain ⟨m,hm,hmr,hle,-⟩ := hholds o ho n hn
    obtain ⟨m',hm',hmr',hamount,-⟩ := held_need hheld ho hn
    obtain rfl := List.inj_on_of_nodup_map (needs_nodup _) hm hm' (hmr.trans hmr'.symm)
    rwa [← amountOn_eq_wrap,amountOn_of_mem hn,← hamount]
  · intro hfit o ho n hn
    have hle := hfit.resolve_left (fun h => hone (List.length_eq_one_iff.mp h)) o ho n.resource
      ((exists_need_iff _ _).mp ⟨n,hn,rfl⟩)
    obtain ⟨m,hm,hmr,hamount,hex⟩ := held_need hheld ho hn
    rw [← amountOn_eq_wrap,amountOn_of_mem hn,← hamount] at hle
    exact ⟨m,hm,hmr,hle,hex⟩

/-! ## What a step gives out -/

section Enough

variable {resources : List Resource} {e : Entry} {o : JobOption} {r : ResourceID}

theorem Entry.HoldsFor.claims (h : e.HoldsFor resources o) (hr : claimsOn o.claims r = true) :
    claimsOn (e.heldClaims resources) r = true := by
  obtain ⟨n,hn,rfl⟩ := (exists_need_iff _ _).mpr hr
  obtain ⟨m,hm,hmr,-⟩ := h n hn
  exact (exists_need_iff _ _).mp ⟨m,hm,hmr⟩

theorem Entry.HoldsFor.alone (h : e.HoldsFor resources o) (hr : aloneOn o.claims r = true) :
    aloneOn (e.heldClaims resources) r = true := by
  obtain ⟨n,hn,rfl,hex⟩ := (exists_exclusive_need_iff _ _).mpr hr
  obtain ⟨m,hm,hmr,-,hme⟩ := h n hn
  exact (exists_exclusive_need_iff _ _).mp ⟨m,hm,hmr,hme hex⟩

theorem Entry.HoldsFor.amountOn_le (h : e.HoldsFor resources o) (hfits : claimed (e.heldClaims resources) r < 2^63) :
    amountOn o.claims r ≤ amountOn (e.heldClaims resources) r := by
  by_cases hr : claimsOn o.claims r = true
  · obtain ⟨n,hn,rfl⟩ := (exists_need_iff _ _).mpr hr
    obtain ⟨m,hm,hmr,hle,-⟩ := h n hn
    rwa [amountOn_of_mem hn,← hmr,amountOn_of_mem hm]
  · rw [amountOn_of_not_claimsOn hr,amountOn_eq_wrap,wrap_of_fits (le_trans (by decide) (claimed_nonneg _ _)) hfits]
    exact claimed_nonneg _ _

end Enough

namespace State

lemma not_started_of_held {s : State} {e : Entry} (he : e ∈ s.entries.items) (hholds : e.holdsMachine = true)
    {rules : Rules} {x : ID × JobOption} (hx : x ∈ starts (step s.scheduled rules)) : x.1 ≠ idOf e.ref := by
  intro hid
  obtain ⟨c,hc,hcid,-⟩ := Book.mem_starts_decideAll rules _ _ hx
  obtain ⟨cur,hcur,hcand⟩ := mem_candidates ((considered_perm s.candidates_nodup rules).mem_iff.mp hc)
  have href : cur.ref = e.ref := idOf_injective ((candidateOf_id hcand).symm.trans (hcid.trans hid))
  rw [List.inj_on_of_nodup_map s.entries.nodup hcur he href,candidateOf,if_pos hholds] at hcand
  exact absurd hcand (by simp)

lemma claims_of_held {s : State} {e : Entry} (he : e ∈ s.entries.items) (hholds : e.holdsMachine = true)
    {rules : Rules} {j : ID × List Claim} (hj : j ∈ jobsAfter s.scheduled (step s.scheduled rules))
    (hid : j.1 = idOf e.ref) : j.2 = e.heldClaims s.resources := by
  rcases List.mem_append.mp hj with hj | hj
  · obtain ⟨h,hh,rfl⟩ := List.mem_map.mp hj
    obtain ⟨cur,hcur,rfl⟩ := List.mem_map.mp hh
    have hcur := (List.mem_filter.mp hcur).1
    rw [List.inj_on_of_nodup_map s.entries.nodup hcur he (idOf_injective hid)]
    rfl
  · obtain ⟨x,hx,rfl⟩ := List.mem_map.mp hj
    exact absurd hid (not_started_of_held he hholds hx)

theorem held_mem_heldJobs {s : State} {e : Entry} (he : e ∈ s.entries.items) (hholds : e.holdsMachine = true) :
    (idOf e.ref,e.heldClaims s.resources) ∈ heldJobs s.scheduled.holdings :=
  List.mem_map.mpr ⟨s.holding e,List.mem_map.mpr ⟨e,List.mem_filter.mpr ⟨he,hholds⟩,rfl⟩,rfl⟩

/-- A held job and a started one do not both claim a resource that one of them has alone. -/
theorem apart_of_started {s : State} {e : Entry} (he : e ∈ s.entries.items) (hholds : e.holdsMachine = true) {rules : Rules}
    {x : ID × JobOption} (hx : x ∈ starts (step s.scheduled rules)) {r : ResourceID} (hxr : claimsOn x.2.claims r = true)
    (halone : aloneOn (e.heldClaims s.resources) r = true ∨ aloneOn x.2.claims r = true) :
    ¬claimsOn (e.heldClaims s.resources) r = true := by
  intro hc
  have hheld : (idOf e.ref,e.heldClaims s.resources) ∈ jobsAfter s.scheduled (step s.scheduled rules) :=
    List.mem_append_left _ (held_mem_heldJobs he hholds)
  have hstarted : (x.1,x.2.claims) ∈ jobsAfter s.scheduled (step s.scheduled rules) :=
    List.mem_append_right _ (List.mem_map.mpr ⟨x,hx,rfl⟩)
  obtain ⟨-,hone⟩ := sound_of_started s.scheduled rules ⟨x,hx,hxr⟩
  obtain ⟨j,hj⟩ := List.length_eq_one_iff.mp (hone (halone.elim (fun h => ⟨_,hheld,h⟩) fun h => ⟨_,hstarted,h⟩))
  have hmem₁ := (@List.mem_filter _ (fun j => claimsOn j.2 r) _ _).mpr ⟨hheld,hc⟩
  have hmem₂ := (@List.mem_filter _ (fun j => claimsOn j.2 r) _ _).mpr ⟨hstarted,hxr⟩
  rw [hj,List.mem_singleton] at hmem₁ hmem₂
  exact not_started_of_held he hholds hx (congrArg Prod.fst (hmem₂.trans hmem₁.symm))

/-- A job found running holds on every resource at least what each of its options needs there, alone where the
option is, exactly if the claims of its options fit. A step of the scheduler then starts nothing on what the job may
be using: with any one of its options in the place of what is held, a resource that a started job claims is within
its capacity, provided that the claims on it fit in an integer; the option does not have it alone, and shares it with
none that does. -/
theorem held_job_holds_enough (s : State) (e : Entry) (hplaced : e.placed = none) :
    ((∀ o ∈ e.optionsOf s.resources, e.HoldsFor s.resources o) ↔ e.ClaimsFit s.resources) ∧
    (e.ClaimsFit s.resources → e ∈ s.entries.items → e.holdsMachine = true → ∀ o ∈ e.optionsOf s.resources,
      ∀ (rules : Rules) (r : ResourceID), ∀ x ∈ starts (step s.scheduled rules), claimsOn x.2.claims r = true →
        (s.scheduled.Fits r → ∃ capacity, capacityOf s.resources r = some capacity ∧
          ((jobsAfter s.scheduled (step s.scheduled rules)).map fun j =>
            amountOn (if j.1 = idOf e.ref then o.claims else j.2) r).sum ≤ capacity) ∧
        aloneOn o.claims r = false ∧ (aloneOn x.2.claims r = true → claimsOn o.claims r = false)) := by
  refine ⟨holdsFor_iff_claimsFit hplaced,fun hfit he hholds o ho rules r x hx hxr => ?_⟩
  have hneeds := (holdsFor_iff_claimsFit hplaced).mpr hfit o ho
  obtain ⟨⟨capacity,hcap,hsum⟩,-⟩ := sound_of_started s.scheduled rules ⟨x,hx,hxr⟩
  refine ⟨fun hfits => ⟨capacity,hcap,le_trans (List.sum_le_sum fun j hj => ?_)
    (hfits.wrap_sum s.candidates_nodup rules ▸ hsum)⟩,?_,fun hxa => ?_⟩
  · split_ifs with hid
    · rw [claims_of_held he hholds hj hid]
      -- What is held fits, being a part of what all hold.
      exact hneeds.amountOn_le (hfits.held (held_mem_heldJobs he hholds))
    · exact le_rfl
  · rw [← Bool.not_eq_true]
    intro ha
    obtain ⟨m,hm,hmr,-⟩ := (exists_exclusive_need_iff _ _).mpr (hneeds.alone ha)
    exact apart_of_started he hholds hx hxr (Or.inl (hneeds.alone ha)) ((exists_need_iff _ _).mp ⟨m,hm,hmr⟩)
  · rw [← Bool.not_eq_true]
    exact fun hc => apart_of_started he hholds hx hxr (Or.inr hxa) (hneeds.claims hc)

end State

/-! ## A job found running on one of two placements -/

/-- A daemon starts anew, finds a job running that may be on either of two placements, and is then given
another job. -/
def foundRunning (claims : List Claim) (other : ℤ) : State :=
  run next (RecoveringWith { resources := [⟨"gpu",5⟩] })
    [.recovered ⟨jobNamed "j1",.jobIn ⟨.running,1,false,1,none,{ options := [⟨"a",claims⟩,⟨"b",[⟨"gpu",other,false⟩]⟩] }⟩,
        .alive .running 0,2⟩,
      .admitted { ref := jobNamed "j2", submittedAt := 3, work := { options := [⟨"a",[⟨"gpu",2,false⟩]⟩] } }]

/-- The job found running and what the scheduler starts beside it. -/
def beside (claims : List Claim) (other : ℤ) : List (Bool × List Need × List Need) × List ID :=
  ((foundRunning claims other).entries.items.filterMap fun e =>
      if e.ref = jobNamed "j1" then
        some (e.holdsMachine && e.placed.isNone,needs (e.heldClaims (foundRunning claims other).resources),needs claims)
      else none,
    (starts (step (foundRunning claims other).scheduled {})).map Prod.fst)

/-- The placement takes five of the resource by two claims, the machine holds three of it, and the scheduler
starts a job that takes two of the five there are. -/
theorem two_claims_held_as_one :
    beside [⟨"gpu",3,false⟩,⟨"gpu",2,false⟩] 1 =
      ([(true,[⟨"gpu",3,false⟩],[⟨"gpu",5,false⟩])],[idOf (jobNamed "j2")]) := by decide +kernel

/-- The other placement takes as much by one claim, so five are held. -/
theorem held_job_holds_enough_two_placements :
    let s := foundRunning [⟨"gpu",3,false⟩,⟨"gpu",2,false⟩] 5
    starts (step s.scheduled {}) = [] ∧
    ∃ e ∈ s.entries.items, e.placed = none ∧ e.holdsMachine = true ∧ e.HoldsFor s.resources ⟨"a",[⟨"gpu",3,false⟩,⟨"gpu",2,false⟩]⟩ := by
  intro s
  obtain ⟨e,he,hplaced,hholds,hoptions⟩ : ∃ e ∈ s.entries.items, e.placed = none ∧ e.holdsMachine = true ∧
      e.optionsOf s.resources = [⟨"a",[⟨"gpu",3,false⟩,⟨"gpu",2,false⟩]⟩,⟨"b",[⟨"gpu",5,false⟩]⟩] := by
    decide +kernel
  have hfit : e.ClaimsFit s.resources := by
    refine Or.inr fun o ho r hr => ?_
    rw [hoptions] at ho ⊢
    have hgpu : r = "gpu" := by
      rcases List.mem_cons.mp ho with rfl | ho
      · simpa [claimsOn,eq_comm] using hr
      · rw [List.mem_singleton.mp ho] at hr
        simpa [claimsOn,eq_comm] using hr
    subst hgpu
    revert o
    decide
  refine ⟨by decide +kernel,e,he,hplaced,hholds,(State.held_job_holds_enough s e hplaced).1.mpr hfit _ ?_⟩
  rw [hoptions]
  exact List.mem_cons_self

end Vibesys.Lifecycle
