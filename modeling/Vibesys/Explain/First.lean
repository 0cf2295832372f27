import Mathlib.Data.List.GetD
import Vibesys.Explain.Prefixes

/-!
# The first violation

Where legality of the history up to a time is monotone, the search by halves ends at the first time up to which no order
is accepted. It is monotone unless something that is called while a fault lasts makes legal a history that was not.
-/
namespace Vibesys.Explain

open Library

variable {S I O : Type} {sp : Spec S I O} {allows : ℤ → S → S → Prop} {check : Checker S I O} {horizon : ℤ}
  {p : Partition I O} {faults : List Fault} {t u : ℤ}

namespace Spec

/-- The history up to a time is legal if a longer one is, where faults leave some state or nothing is called while one
lasts. -/
theorem legalUpTo_of_le (hc : sp.Contract allows) (hv : p.Valid faults horizon) (hs : sp.FaultsLeave ∨
      ∀ f ∈ faults, ∀ x ∈ items p faults, f.start ≤ t → t < callOf x → callOf x ≤ u → f.stop < callOf x)
    (htu : t ≤ u) (h : sp.LegalUpTo p faults horizon u) : sp.LegalUpTo p faults horizon t := by
  obtain ⟨order,hperm,hreal,hsome⟩ := legalUpTo_iff.mp h
  have hmem : ∀ x ∈ order, x ∈ items p faults := fun x hx => hperm.subset hx
  have hreal' : sp.InTime p faults horizon t order := by
    refine hreal.imp_of_mem fun {x y} hx hy hxy a ha b hb => ?_
    obtain ⟨a',ha',hlooser⟩ := operationAt_mono hv htu (hmem x hx) ha
    obtain ⟨b',hb',hlooser'⟩ := operationAt_mono hv htu (hmem y hy) hb
    have hnot := hxy a' ha' b' hb'
    have hcall := hlooser.times.1
    have hret := hlooser'.times.2
    omega
  refine legalUpTo_iff.mpr ⟨order,hperm,hreal',?_⟩
  exact runAt_looser hc (fun x => t < callOf x) hmem hv (fun x hx b hb => operationAt_mono hv htu (hmem x hx) hb)
    (fun x hx a ha hnone => operationAt_new hnone ha) hreal hreal' (fun x hx y hy hlate a a' ha ha' hxy b hb =>
      open_of_late hs (hmem x hx) (hmem y hy) htu ha ha' hxy hlate hb) hsome

/-- Something that is called while a fault lasts makes legal a history that was not. -/
def Rescued (sp : Spec S I O) (p : Partition I O) (faults : List Fault) (horizon : ℤ) : Prop :=
  ∃ f ∈ faults, ∃ x ∈ items p faults, f.start < callOf x ∧ callOf x ≤ f.stop ∧
    ¬sp.LegalUpTo p faults horizon (callOf x - 1) ∧ sp.LegalUpTo p faults horizon (callOf x)

/-- Legality of the history up to a time is monotone unless one is rescued. -/
theorem legalUpTo_mono_iff (hc : sp.Contract allows) (hv : p.Valid faults horizon) :
    (∀ t u, t ≤ u → ¬sp.LegalUpTo p faults horizon t → ¬sp.LegalUpTo p faults horizon u) ↔ ¬sp.Rescued p faults horizon := by
  constructor
  · rintro hmono ⟨f,-,x,-,-,-,hnot,hlegal⟩
    exact hmono _ _ (Int.sub_le_self _ Int.one_nonneg) hnot hlegal
  · intro hrescued t u htu hnot hlegal
    refine hnot ?_
    clear hnot
    -- from one time to the next, a call during a fault is the only way to lose legality
    induction u, htu using Int.leInduction with
    | base => exact hlegal
    | succ u htu ih =>
      refine ih ?_
      by_cases hquiet : ∀ f ∈ faults, ∀ x ∈ items p faults, f.start ≤ u → u < callOf x → callOf x ≤ u + 1 → f.stop < callOf x
      · exact legalUpTo_of_le hc hv (Or.inr hquiet) (Int.le_add_one (le_refl u)) hlegal
      · push Not at hquiet
        obtain ⟨f,hf,x,hx,hstart,hlate,hcall,hstop⟩ := hquiet
        have heq : callOf x = u + 1 := by omega
        by_contra hbefore
        refine hrescued ⟨f,hf,x,hx,by omega,hstop,?_,?_⟩
        · rwa [heq,Int.add_sub_cancel]
        · rwa [heq]

theorem legal_iff_legalUpTo (hv : p.Valid faults horizon) :
    sp.Legal p faults horizon ↔ sp.LegalUpTo p faults horizon horizon := by
  have hevents : p.events.filterMap (Event.prefixAt horizon) = p.events := by
    rw [List.filterMap_congr (g := some),List.filterMap_some]
    intro e he
    have hwithin := hv.within e he
    have hordered := hv.ordered e he
    unfold Event.prefixAt
    rw [if_neg (by omega),if_neg (by omega)]
  have hfaults : faults.filter (fun f => f.start ≤ horizon) = faults := by
    refine List.filter_eq_self.mpr fun f hf => ?_
    have hwithin := hv.faults_within f hf
    have hordered := hv.faults_ordered f hf
    rw [decide_eq_true_eq]
    omega
  unfold LegalUpTo prefixAt
  rw [hevents,hfaults]

/-- What was called by the last known response is the same later, but for its floor. -/
theorem operationAt_settled (hv : p.Valid faults horizon) (htu : t ≤ u)
    (hlast : ∀ e ∈ p.events, e.unknown = false → e.ret ≤ t) {x : Event I O ⊕ Fault} (hx : x ∈ items p faults)
    (hcall : callOf x ≤ t) {b : Operation I O} (hb : sp.operationAt p faults horizon u x = some b) :
    ∃ a, sp.operationAt p faults horizon t x = some a ∧ Looser a b ∧ a.ret = b.ret := by
  cases x with
  | inl e =>
    have he := mem_items_inl hx
    obtain ⟨e',he',rfl⟩ := Option.map_eq_some_iff.mp hb
    have hat : Event.prefixAt t e = some e' := by
      refine prefixAt_eq_some.mpr ⟨hcall,?_⟩
      obtain ⟨-,⟨-,rfl⟩ | ⟨hflight,hwrite,rfl⟩⟩ := prefixAt_eq_some.mp he'
      · rcases le_or_gt e'.ret t with hret | hflight
        · exact Or.inl ⟨hret,rfl⟩
        · have hunknown : e'.unknown = true := by
            by_contra hknown
            exact absurd (hlast e' he (by simpa using hknown)) (not_le.mpr hflight)
          exact Or.inr ⟨hflight,hv.writes e' he hunknown,by rw [← hunknown]⟩
      · exact Or.inr ⟨htu.trans_lt hflight,hwrite,rfl⟩
    have ha : sp.operationAt p faults horizon t (.inl e) = some (sp.operation horizon e'
        (sp.floorIn (prefixAt p faults t).1 (prefixAt p faults t).2 horizon e'.call)) := by
      rw [operationAt,hat,Option.map_some]
    exact ⟨_,ha,.op (operationAt_valid hv hx ha) (operationAt_valid hv hx hb).floor_le,rfl⟩
  | inr f =>
    obtain ⟨-,h⟩ := Option.ite_none_right_eq_some.mp hb
    cases h
    exact ⟨_,if_pos hcall,.fault f,rfl⟩

/-- What is called after the last known response and the last start of a fault has no known outcome. -/
theorem open_of_settled (hv : p.Valid faults horizon) (hlast : ∀ e ∈ p.events, e.unknown = false → e.ret ≤ t)
    (hfaults : ∀ f ∈ faults, f.start ≤ t) {x : Event I O ⊕ Fault} (hx : x ∈ items p faults) (hcall : t < callOf x)
    {b : Operation I O} (hb : sp.operationAt p faults horizon u x = some b) : sp.Open b := by
  cases x with
  | inl e =>
    have he := mem_items_inl hx
    have hcall : t < e.call := hcall
    obtain ⟨e',he',rfl⟩ := Option.map_eq_some_iff.mp hb
    refine Or.inl ⟨_,rfl,?_⟩
    obtain ⟨-,⟨-,rfl⟩ | ⟨-,-,rfl⟩⟩ := prefixAt_eq_some.mp he'
    · by_contra hknown
      have hret := hlast e' he (by simpa using hknown)
      have hordered := hv.ordered e' he
      omega
    · rfl
  | inr f => exact absurd (hfaults f (mem_items_inr hx)) (not_le.mpr hcall)

theorem runAt_called (order : List (Event I O ⊕ Fault)) :
    sp.runAt p faults horizon t (order.filter fun x => decide (callOf x ≤ t)) = sp.runAt p faults horizon t order := by
  have hsame : (order.filter fun x => decide (callOf x ≤ t)).filterMap (sp.operationAt p faults horizon t) =
      order.filterMap (sp.operationAt p faults horizon t) := by
    rw [List.filterMap_filter]
    refine List.filterMap_congr fun x hx => ?_
    by_cases hcall : callOf x ≤ t
    · simp only [hcall,decide_true,if_true]
    · simp only [hcall,decide_false,Bool.false_eq_true,if_false]
      cases ha : sp.operationAt p faults horizon t x with
      | none => rfl
      | some a => exact absurd (callOf_operationAt ha).2 hcall
  rw [runAt,runAt,hsame]

/-- What was called later comes after the others, in the order of the calls. -/
theorem InTime.append_late {early late : List (Event I O ⊕ Fault)} (h : sp.InTime p faults horizon u early)
    (hv : p.Valid faults horizon) (hearly : ∀ x ∈ early, callOf x ≤ t)
    (hlate : ∀ x ∈ late, x ∈ items p faults ∧ t < callOf x) (hsorted : late.Pairwise fun x y => callOf x ≤ callOf y) :
    sp.InTime p faults horizon u (early ++ late) := by
  have hret : ∀ y ∈ late, ∀ b, sp.operationAt p faults horizon u y = some b → callOf y ≤ b.ret := by
    intro y hy b hb
    rw [← (callOf_operationAt hb).1]
    exact call_le_ret hv (hlate y hy).1 hb
  refine List.pairwise_append.mpr ⟨h,?_,?_⟩
  · refine hsorted.imp_of_mem fun {x y} hx hy hxy a ha b hb => ?_
    have hb' := hret y hy b hb
    rw [(callOf_operationAt ha).1]
    omega
  · intro x hx y hy a ha b hb
    have hx := hearly x hx
    have hb' := hret y hy b hb
    have hy := (hlate y hy).2
    rw [(callOf_operationAt ha).1]
    omega

/-- After the last known response and the last start of a fault, only calls of unknown outcome come. -/
theorem legalUpTo_later (hc : sp.Contract allows) (hv : p.Valid faults horizon) (htu : t ≤ u)
    (hlast : ∀ e ∈ p.events, e.unknown = false → e.ret ≤ t) (hfaults : ∀ f ∈ faults, f.start ≤ t)
    (h : sp.LegalUpTo p faults horizon t) : sp.LegalUpTo p faults horizon u := by
  obtain ⟨order,hperm,hreal,hsome⟩ := legalUpTo_iff.mp h
  let early := order.filter fun x => decide (callOf x ≤ t)
  let late := (order.filter fun x => !decide (callOf x ≤ t)).insertionSort fun x y => callOf x ≤ callOf y
  have hearly : ∀ x ∈ early, x ∈ items p faults ∧ callOf x ≤ t := by
    intro x hx
    have hx := List.mem_filter.mp hx
    exact ⟨hperm.subset hx.1,by simpa using hx.2⟩
  have hlate : ∀ x ∈ late, x ∈ items p faults ∧ t < callOf x := by
    intro x hx
    have hx := List.mem_filter.mp ((List.mem_insertionSort _).mp hx)
    exact ⟨hperm.subset hx.1,by simpa using hx.2⟩
  have hsame := fun {x b} (hx : x ∈ early) => @operationAt_settled _ _ _ sp horizon p faults t u hv htu hlast x
    (hearly x hx).1 (hearly x hx).2 b
  have hearly' : sp.InTime p faults horizon t early := hreal.filter _
  have hreal' : sp.InTime p faults horizon u early := by
    refine hearly'.imp_of_mem fun {x y} hx hy hxy a ha b hb => ?_
    obtain ⟨a',ha',hlooser,-⟩ := hsame hx ha
    obtain ⟨b',hb',-,hret⟩ := hsame hy hb
    rw [← hlooser.times.1,← hret]
    exact hxy a' ha' b' hb'
  refine legalUpTo_iff.mpr ⟨early ++ late,?_,?_,?_⟩
  · have hsort := List.perm_insertionSort (fun x y => callOf x ≤ callOf y)
      (order.filter fun x => !decide (callOf x ≤ t))
    exact ((List.Perm.refl early).append hsort).trans ((List.filter_append_perm _ order).trans hperm)
  · exact hreal'.append_late hv (fun x hx => (hearly x hx).2) hlate (List.pairwise_insertionSort _ _)
  · have hsome' : (sp.runAt p faults horizon t early).isSome := by
      rw [runAt_called]
      exact hsome
    obtain ⟨set,hset⟩ := Option.isSome_iff_exists.mp (runAt_looser hc (fun _ => False) (fun x hx => (hearly x hx).1) hv
      (fun x hx b hb => (hsame hx hb).imp fun a h => ⟨h.1,h.2.1⟩)
      (fun x hx a ha hnone => by
        obtain ⟨b,hb,-⟩ := operationAt_mono hv htu (hearly x hx).1 ha
        rw [hnone] at hb
        cases hb)
      hearly' hreal' (fun _ _ _ _ => False.elim) hsome')
    rw [runAt] at hset ⊢
    rw [List.filterMap_append,List.foldlM_append,hset]
    refine accepts_open hc (fun b hb => ?_) (run_ne_nil hc (makeSet_ne_nil hc (List.cons_ne_nil _ _)) hset)
    obtain ⟨x,hx,hb⟩ := List.mem_filterMap.mp hb
    exact open_of_settled hv hlast hfaults (hlate x hx).1 (hlate x hx).2 hb

end Spec

/-! ## The search by halves -/

theorem bisect_spec {upTo : ℕ → CheckResult} {fuel lo hi : ℕ} (hdecides : ∀ i, upTo i ≠ .illegal → upTo i = .ok)
    (hmono : ∀ i j, i ≤ j → j ≤ hi → upTo i = .illegal → upTo j = .illegal) (hfuel : hi ≤ lo + fuel) (hle : lo ≤ hi)
    (hhi : upTo hi = .illegal) : ∃ r, bisect upTo fuel lo hi = .ok r ∧ r ≤ hi ∧ upTo r = .illegal ∧
      ∀ i, lo ≤ i → i < r → upTo i ≠ .illegal := by
  induction fuel generalizing lo hi with
  | zero => exact ⟨hi,rfl,le_refl _,hhi,fun i hlo hlt => absurd hlt (by omega)⟩
  | succ fuel ih =>
    unfold bisect
    split
    · next hlt =>
      dsimp only
      by_cases hmid : upTo ((lo + hi) / 2) = .illegal
      · rw [hmid]
        obtain ⟨r,hr,hrhi,hillegal,hleast⟩ := @ih lo ((lo + hi) / 2) (fun i j hij hj => hmono i j hij (by omega)) (by omega)
          (by omega) hmid
        exact ⟨r,hr,by omega,hillegal,hleast⟩
      · rw [hdecides _ hmid]
        obtain ⟨r,hr,hrhi,hillegal,hleast⟩ := @ih ((lo + hi) / 2 + 1) hi hmono (by omega) (by omega) hhi
        refine ⟨r,hr,hrhi,hillegal,fun i hlo hir => ?_⟩
        by_cases him : i ≤ (lo + hi) / 2
        · exact fun h => hmid (hmono i _ him (by omega) h)
        · exact hleast i (by omega) hir
    · next hlt => exact ⟨hi,rfl,le_refl _,hhi,fun i hlo hir => absurd hir (by omega)⟩

theorem mem_violationTimes : t ∈ violationTimes p faults ↔
    (∃ e ∈ p.events, e.unknown = false ∧ e.ret = t) ∨ ∃ f ∈ faults, f.start = t := by
  simp [violationTimes,List.mem_dedup,List.mem_insertionSort,and_assoc]

theorem violationTimes_sorted : (violationTimes p faults).Pairwise (· < ·) := by
  have hle : (violationTimes p faults).Pairwise (· ≤ ·) :=
    (List.pairwise_insertionSort (· ≤ ·) _).sublist (List.dedup_sublist _)
  exact (hle.and (List.nodup_dedup _)).imp fun h => lt_of_le_of_ne h.1 h.2

theorem violationTimes_ne_nil (hc : sp.Contract allows) (hv : p.Valid faults horizon)
    (hillegal : ¬sp.Legal p faults horizon) : violationTimes p faults ≠ [] := by
  intro hempty
  have hnone : ∀ s, s ∉ violationTimes p faults := fun s => by simp [hempty]
  obtain ⟨m,hm⟩ := ((items p faults).map fun x => -callOf x).toFinset.exists_le
  have hnothing : sp.LegalUpTo p faults horizon (min (-m - 1) horizon) := by
    have hat : (items p faults).filterMap (sp.operationAt p faults horizon (min (-m - 1) horizon)) = [] := by
      refine List.filterMap_eq_nil_iff.mpr fun x hx => ?_
      cases ha : sp.operationAt p faults horizon (min (-m - 1) horizon) x with
      | none => rfl
      | some a =>
        have hcall := (Spec.callOf_operationAt ha).2
        have hle := hm (-callOf x) (List.mem_toFinset.mpr (List.mem_map.mpr ⟨x,hx,rfl⟩))
        omega
    unfold Spec.LegalUpTo Spec.Legal Accepts
    rw [sp.buildOps_prefixAt,hat]
    exact ⟨[],List.Perm.refl _,List.Pairwise.nil,rfl⟩
  refine hillegal ((Spec.legal_iff_legalUpTo hv).mpr (Spec.legalUpTo_later hc hv (min_le_right _ _) ?_ ?_ hnothing))
  · intro e he hknown
    exact absurd (mem_violationTimes.mpr (Or.inl ⟨e,he,hknown,rfl⟩)) (hnone _)
  · intro f hf
    exact absurd (mem_violationTimes.mpr (Or.inr ⟨f,hf,rfl⟩)) (hnone _)

theorem le_getLast {last : ℤ} (h : (violationTimes p faults).getLast? = some last) {s : ℤ}
    (hs : s ∈ violationTimes p faults) : s ≤ last := by
  obtain ⟨before,hbefore⟩ := List.getLast?_eq_some_iff.mp h
  have hsorted : (violationTimes p faults).Pairwise (· < ·) := violationTimes_sorted
  rw [hbefore] at hs hsorted
  rcases List.mem_append.mp hs with hs | hs
  · exact ((List.pairwise_append.mp hsorted).2.2 s hs last List.mem_cons_self).le
  · exact (List.mem_singleton.mp hs).le

theorem illegal_at_last (hc : sp.Contract allows) (hv : p.Valid faults horizon)
    (hillegal : ¬sp.Legal p faults horizon) {last : ℤ} (hlast : (violationTimes p faults).getLast? = some last) : ¬sp.LegalUpTo p faults horizon last := by
  intro hlegal
  have hmem := List.mem_of_getLast? hlast
  have hle : last ≤ horizon := by
    rcases mem_violationTimes.mp hmem with ⟨e,he,-,rfl⟩ | ⟨f,hf,rfl⟩
    · exact (hv.within e he).le
    · exact (hv.faults_ordered f hf).trans (hv.faults_within f hf).le
  refine hillegal ((Spec.legal_iff_legalUpTo hv).mpr (Spec.legalUpTo_later hc hv hle ?_ ?_ hlegal))
  · exact fun e he hknown => le_getLast hlast (mem_violationTimes.mpr (Or.inl ⟨e,he,hknown,rfl⟩))
  · exact fun f hf => le_getLast hlast (mem_violationTimes.mpr (Or.inr ⟨f,hf,rfl⟩))

/-- If legality is monotone, the explanation ends at the first time up to which no order is accepted. -/
theorem explain_eq (hcheck : Decides check) (hne : violationTimes p faults ≠ [])
    (hmono : ∀ t u, t ≤ u → ¬sp.LegalUpTo p faults horizon t → ¬sp.LegalUpTo p faults horizon u)
    (hend : ¬sp.LegalUpTo p faults horizon ((violationTimes p faults).getLast hne)) :
    ∃ t ∈ violationTimes p faults, explain check sp p faults horizon =
        .firstViolation t (p.events.filter fun e => !e.unknown && e.ret == t) ∧ ¬sp.LegalUpTo p faults horizon t ∧
      ∀ u ∈ violationTimes p faults, u < t → sp.LegalUpTo p faults horizon u := by
  have hillegal : ∀ t, sp.upTo check p faults horizon t = .illegal ↔ ¬sp.LegalUpTo p faults horizon t := fun t => hcheck.illegal
  have hget : ∀ i (hi : i < (violationTimes p faults).length), (violationTimes p faults).getD i 0 =
      (violationTimes p faults)[i] := fun i hi => List.getD_eq_getElem _ _ hi
  have hpos := List.length_pos_iff.mpr hne
  obtain ⟨r,hr,hrhi,hviolated,hleast⟩ := @bisect_spec
    (fun i => sp.upTo check p faults horizon ((violationTimes p faults).getD i 0)) (violationTimes p faults).length 0
    ((violationTimes p faults).length - 1)
    (fun i hnot => hcheck.ok.mpr (not_not.mp fun h => hnot ((hillegal _).mpr h)))
    (by
      intro i j hij hj hi
      rw [hillegal,hget i (by omega)] at hi
      rw [hillegal,hget j (by omega)]
      refine hmono _ _ ?_ hi
      rcases hij.eq_or_lt with rfl | hlt
      · exact le_refl _
      · exact (List.pairwise_iff_getElem.mp violationTimes_sorted i j (by omega) (by omega) hlt).le)
    (by omega) (by omega)
    (by
      rw [hillegal,hget _ (by omega),← List.getLast_eq_getElem hne]
      exact hend)
  have hlt : r < (violationTimes p faults).length := by omega
  refine ⟨(violationTimes p faults)[r],List.getElem_mem hlt,?_,?_,fun u hu hless => ?_⟩
  · unfold explain
    dsimp only
    rw [List.getLast?_eq_some_getLast hne]
    dsimp only
    rw [(hillegal _).mpr hend]
    dsimp only
    rw [hr]
    dsimp only
    rw [hget r hlt]
  · rw [← hget r hlt]
    exact (hillegal _).mp hviolated
  · obtain ⟨i,hi,rfl⟩ := List.getElem_of_mem hu
    have hir : i < r := by
      by_contra hge
      rcases (not_lt.mp hge).eq_or_lt with rfl | hgt
      · exact lt_irrefl _ hless
      · exact absurd hless (not_lt.mpr (List.pairwise_iff_getElem.mp violationTimes_sorted _ i hlt hi hgt).le)
    have hlegal := hleast i (Nat.zero_le _) hir
    rw [ne_eq,hillegal,not_not,hget i hi] at hlegal
    exact hlegal

namespace Sample

instance (init : List S) (step : List S → Operation I O → Option (List S)) (ops : List (Operation I O)) :
    Decidable (Accepts Operation.call Operation.ret step init ops) :=
  decidable_of_iff (∃ order ∈ ops.permutations', order.Pairwise (fun a b => ¬b.ret < a.call) ∧
      (order.foldlM step init).isSome) (by
    constructor
    · rintro ⟨order,hmem,h⟩
      exact ⟨order,List.mem_permutations'.mp hmem,h⟩
    · rintro ⟨order,hperm,h⟩
      exact ⟨order,List.mem_permutations'.mpr hperm,h⟩)

instance (sp : Spec S I O) (p : Partition I O) (faults : List Fault) (horizon : ℤ) : Decidable (sp.Legal p faults horizon) :=
  inferInstanceAs (Decidable (Accepts _ _ _ _ _))

instance (sp : Spec S I O) (p : Partition I O) (faults : List Fault) (horizon t : ℤ) :
    Decidable (sp.LegalUpTo p faults horizon t) :=
  inferInstanceAs (Decidable (sp.Legal _ _ _))

instance (sp : Spec S I O) (p : Partition I O) (faults : List Fault) (horizon : ℤ) : Decidable (sp.Rescued p faults horizon) :=
  inferInstanceAs (Decidable (∃ f ∈ faults, ∃ x ∈ items p faults, _))

def tryAll : Checker S I O := fun init step ops =>
  if Accepts Operation.call Operation.ret step init ops then .ok else .illegal

theorem tryAll_decides : Decides (tryAll : Checker S I O) where
  ok := by simp [tryAll]
  illegal := by simp [tryAll]

theorem eq_tryAll {check : Checker S I O} (h : Decides check) : check = tryAll := by
  funext init step ops
  unfold tryAll
  split
  · next hok => exact h.ok.mpr hok
  · next hnot => exact h.illegal.mpr hnot

def step (s : Bool) (op : Op Unit Bool) : List Bool :=
  if op.write then if op.unknown then [s,true] else [true]
  else if op.unknown || op.output == s then [s]
  else []

/-- A fault leaves the bit, and must find it set. -/
def spec (init : Bool) : Spec Bool Unit Bool where
  init := fun _ => init
  step := step
  fault := some fun s _ _ => if s then [true] else []
  equal := (· == ·)
  hash := fun s => s.toNat
  effectWindow := 0

def fault : Fault := ⟨"restart","node",1,3⟩

/-- A write of unknown outcome during the fault, a read that finds the bit set and one that does not. -/
def history : Partition Unit Bool :=
  ⟨["k"],[⟨["k"],(),false,true,true,2,2⟩,⟨["k"],(),true,false,false,10,11⟩,⟨["k"],(),false,false,false,20,21⟩]⟩

theorem spec_timeless (init : Bool) : (spec init).Timeless where
  equal_refl s := beq_self_eq_true s
  equal_symm h := by rw [eq_of_beq h]; exact beq_self_eq_true _
  equal_trans h h' := by rw [eq_of_beq h]; exact h'
  times _ _ _ _ _ := rfl
  step_equal h hs := by rw [eq_of_beq h] at hs; exact ⟨_,hs,beq_self_eq_true _⟩
  fault_equal _ h hs := by rw [eq_of_beq h] at hs; exact ⟨_,hs,beq_self_eq_true _⟩
  read := by
    rintro op s s' hread hs
    simp only [spec,step,hread,Bool.false_eq_true,if_false] at hs
    split at hs
    · exact beq_iff_eq.mpr (List.mem_singleton.mp hs).symm
    · exact absurd hs List.not_mem_nil
  unknown := by
    rintro ⟨⟨keys,input,output,unknown,write,call,ret⟩,floor⟩ s s' hs
    cases write <;> cases unknown <;> simp_all [spec,step]
  unapplied := by
    rintro op s hunknown
    cases hwrite : op.write <;> simp [spec,step,hunknown,hwrite]

theorem history_valid : history.Valid [fault] 22 := by
  refine ⟨?_,?_,?_,?_,?_,?_⟩ <;> decide +kernel

/-- A bit with the return of the write that set it: a read may miss it that was called no later. What is older than the
floor is forgotten. -/
def staleStep (s : Option ℤ) (op : Op Unit Bool) : List (Option ℤ) :=
  if op.write then (if op.unknown then [s] else []) ++ [some (max (min (s.getD op.ret) op.ret) (op.floor - 1))]
  else if op.unknown || op.output == s.isSome || !op.output && s.any (op.call ≤ ·) then [s]
  else []

def stale : Spec (Option ℤ) Unit Bool where
  init := fun _ => none
  step := staleStep
  fault := some fun s _ _ => [s,none]
  equal := (· == ·)
  hash := fun s => s.toList.length
  effectWindow := 0

/-- A read called at `t` or later that may miss the one bit may miss the other. -/
def MissedToo (t : ℤ) (a b : Option ℤ) : Prop := a.isSome = b.isSome ∧ ∀ r ∈ a, ∀ r' ∈ b, r < t ∨ r ≤ r'

theorem MissedToo.refl (t : ℤ) (a : Option ℤ) : MissedToo t a a :=
  ⟨rfl,fun _ hr _ hr' => Or.inr (Option.mem_unique hr hr').le⟩

theorem MissedToo.later {t u : ℤ} {a b : Option ℤ} (htu : t ≤ u) (h : MissedToo t a b) : MissedToo u a b :=
  ⟨h.1,fun r ha r' hb => (h.2 r ha r' hb).imp_left htu.trans_lt'⟩

theorem MissedToo.written {t ret ret' floor floor' : ℤ} {a b : Option ℤ} (h : MissedToo t a b) (hret : ret ≤ ret') :
    MissedToo (max t (max floor floor')) (some (max (min (a.getD ret) ret) (floor - 1)))
      (some (max (min (b.getD ret') ret') (floor' - 1))) := by
  obtain ⟨hsome,hr⟩ := h
  refine ⟨rfl,fun r ha r' hb => ?_⟩
  cases ha
  cases hb
  cases a with
  | none =>
    cases b with
    | none => simp only [Option.getD_none]; omega
    | some r' => cases hsome
  | some r =>
    cases b with
    | none => cases hsome
    | some r' =>
      have h := hr r rfl r' rfl
      simp only [Option.getD_some]
      omega

theorem stale_contract : stale.Contract MissedToo where
  refl := .refl _ _
  trans {t a b c} := by
    rintro ⟨hab,hr⟩ ⟨hbc,hr'⟩
    refine ⟨hab.trans hbc,fun r ha r'' hc => ?_⟩
    obtain ⟨r',hb⟩ := Option.isSome_iff_exists.mp (hab.symm.trans (Option.isSome_iff_exists.mpr ⟨r,ha⟩))
    have h := hr r ha r' hb
    have h' := hr' r' hb r'' hc
    omega
  later := .later
  equal h := by
    rw [eq_of_beq h]
    exact .refl _ _
  step {t a b op s floor} _ _ ht hab hs := by
    cases hwrite : op.write with
    | true =>
      simp only [stale,staleStep,hwrite,if_true] at hs ⊢
      rcases List.mem_append.mp hs with hs | hs
      · obtain ⟨hunknown,hs⟩ := List.mem_ite_nil_right.mp hs
        obtain rfl := List.mem_singleton.mp hs
        exact ⟨b,List.mem_append_left _ (List.mem_ite_nil_right.mpr ⟨hunknown,List.mem_cons_self⟩),
          hab.later (le_max_left _ _)⟩
      · obtain rfl := List.mem_singleton.mp hs
        exact ⟨_,List.mem_append_right _ List.mem_cons_self,hab.written (le_refl _)⟩
    | false =>
      simp only [stale,staleStep,hwrite,Bool.false_eq_true,if_false] at hs ⊢
      obtain ⟨hshown,hs⟩ := List.mem_ite_nil_right.mp hs
      obtain rfl := List.mem_singleton.mp hs
      refine ⟨b,List.mem_ite_nil_right.mpr ⟨?_,List.mem_cons_self⟩,hab.later (le_max_left _ _)⟩
      rw [← hab.1,Bool.or_eq_true,Bool.and_eq_true]
      rw [Bool.or_eq_true,Bool.and_eq_true] at hshown
      refine hshown.imp_right (And.imp_right fun hany => ?_)
      obtain ⟨r,hr,hle⟩ := (Option.any_eq_true _ _).mp hany
      obtain ⟨r',hr'⟩ := Option.isSome_iff_exists.mp (hab.1.symm.trans (Option.isSome_iff_exists.mpr ⟨r,hr⟩))
      have h := hab.2 r hr r' hr'
      rw [decide_eq_true_eq] at hle
      exact (Option.any_eq_true _ _).mpr ⟨r',hr',decide_eq_true (by omega)⟩
  unknown {t a b op s ret floor} _ hknown hret _ _ hab hs := by
    cases hwrite : op.write with
    | true =>
      simp only [stale,staleStep,hwrite,hknown,if_true,Bool.false_eq_true,if_false,List.nil_append] at hs ⊢
      obtain rfl := List.mem_singleton.mp hs
      exact ⟨_,List.mem_append_right _ List.mem_cons_self,hab.written hret⟩
    | false =>
      simp only [stale,staleStep,hwrite,Bool.false_eq_true,if_false,Bool.true_or,if_true] at hs ⊢
      split at hs
      · obtain rfl := List.mem_singleton.mp hs
        exact ⟨b,List.mem_cons_self,hab.later (le_max_left _ _)⟩
      · exact absurd hs List.not_mem_nil
  unapplied := by
    intro op s hunknown
    cases hwrite : op.write <;> simp [stale,staleStep,hunknown,hwrite]
  read := by
    intro op s s' _ hread hs
    simp only [stale,staleStep,hread,Bool.false_eq_true,if_false] at hs
    split at hs
    · obtain rfl := List.mem_singleton.mp hs
      exact .refl _ _
    · exact absurd hs List.not_mem_nil
  fault := by
    rintro t a b keys f _ s ⟨⟩ _ hab hs
    rcases List.mem_cons.mp hs with rfl | hs
    · exact ⟨b,List.mem_cons_self,hab⟩
    · exact ⟨none,List.mem_cons_of_mem _ List.mem_cons_self,List.mem_singleton.mp hs ▸ .refl _ _⟩

end Sample

end Vibesys.Explain
