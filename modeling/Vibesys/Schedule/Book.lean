import Mathlib.Algebra.Ring.Int.Defs
import Vibesys.Schedule.Model

/-!
# What the book of a step accounts for

The book is read off the jobs that hold something: what is used of a resource is the sum of
their merged needs, as an integer of 64 bits keeps it, and its holders are the jobs that claim it.
-/
namespace Vibesys.Schedule
open Vibesys.Library

section Permutation
variable {α κ : Type*} [DecidableEq κ] (key : α → κ)

theorem pick_subset {given out : List α} {c : α} (h : ∀ a ∈ out, a ∈ given) :
    ∀ a ∈ pick key given out c, a ∈ given := by
  intro a ha
  unfold pick at ha
  split at ha
  · rename_i have_ hf
    have hg : have_ ∈ given := List.mem_reverse.mp (List.mem_of_find?_eq_some hf)
    split at ha
    · exact h a ha
    · rcases List.mem_append.mp ha with ha | ha
      · exact h a ha
      · rwa [List.mem_singleton.mp ha]
  · exact h a ha

theorem pick_nodup {given out : List α} {c : α} (h : (out.map key).Nodup) :
    ((pick key given out c).map key).Nodup := by
  unfold pick
  split
  · rename_i have_ hf
    have hk : key have_ = key c := by simpa using List.find?_some hf
    split
    · exact h
    · rename_i hn
      rw [List.map_append,List.map_singleton,hk]
      refine List.nodup_append.mpr ⟨h,List.nodup_singleton _,?_⟩
      intro a ha b hb
      rw [List.mem_singleton.mp hb]
      exact fun he => hn (he ▸ ha)
  · exact h

lemma foldl_pick_subset (given ordered : List α) :
    ∀ a ∈ ordered.foldl (pick key given) [], a ∈ given := by
  induction ordered using List.reverseRecOn with
  | nil => simp
  | append_singleton ordered c ih =>
    rw [List.foldl_append]
    exact pick_subset key ih

lemma foldl_pick_nodup (given ordered : List α) :
    ((ordered.foldl (pick key given) []).map key).Nodup := by
  induction ordered using List.reverseRecOn with
  | nil => simp
  | append_singleton ordered c ih =>
    rw [List.foldl_append]
    exact pick_nodup key ih

theorem mem_of_mem_permutation {given ordered : List α} {a : α}
    (h : a ∈ permutation key given ordered) : a ∈ given := by
  rcases List.mem_append.mp h with h | h
  · exact foldl_pick_subset key given ordered a h
  · exact (List.mem_filter.mp h).1

/-- An answer that drops, invents, repeats or reorders items is still held to the given ones. -/
theorem permutation_perm {given : List α} (h : (given.map key).Nodup) (ordered : List α) :
    (permutation key given ordered).Perm given := by
  have hin : ∀ a ∈ given, ∀ b ∈ given, key a = key b → a = b :=
    fun a ha b hb => List.inj_on_of_nodup_map h ha hb
  have hsub := foldl_pick_subset key given ordered
  have hnd := foldl_pick_nodup key given ordered
  refine (List.perm_ext_iff_of_nodup ?_ h.of_map).mpr fun a => ?_
  · refine List.nodup_append.mpr ⟨hnd.of_map,h.of_map.filter _,?_⟩
    intro a ha b hb he
    subst he
    have hb := (List.mem_filter.mp hb).2
    simp only [decide_eq_true_eq] at hb
    exact hb (List.mem_map_of_mem ha)
  · constructor
    · exact mem_of_mem_permutation key
    · intro ha
      by_cases hk : key a ∈ (ordered.foldl (pick key given) []).map key
      · obtain ⟨b,hb,he⟩ := List.mem_map.mp hk
        have hba := hin b (hsub b hb) a ha he
        exact List.mem_append_left _ (hba ▸ hb)
      · exact List.mem_append_right _ (List.mem_filter.mpr ⟨ha,by simpa using hk⟩)

theorem permutation_eq_nil {given ordered : List α} (h : permutation key given ordered = []) :
    given = [] := by
  obtain ⟨ho,hf⟩ := List.append_eq_nil_iff.mp h
  rw [ho] at hf
  simpa using hf

end Permutation

def claimsOn (claims : List Claim) (r : ResourceID) : Bool := claims.any fun c => c.resource = r

def aloneOn (claims : List Claim) (r : ResourceID) : Bool :=
  claims.any fun c => c.resource = r && c.exclusive

/-- What a job's merged needs take of a resource. -/
def amountOn (claims : List Claim) (r : ResourceID) : ℤ :=
  (((needs claims).filter fun n => n.resource = r).map Need.amount).sum

def claimed (claims : List Claim) (r : ResourceID) : ℤ :=
  ((claims.filter fun c => c.resource = r).map fun c => max c.amount 1).sum

lemma needs_concat (claims : List Claim) (c : Claim) :
    needs (claims ++ [c]) = mergeClaim c (needs claims) := by simp [needs]

lemma mergeClaim_resource (c : Claim) (ns : List Need) :
    (mergeClaim c ns).map Need.resource =
      if c.resource ∈ ns.map Need.resource then ns.map Need.resource
      else ns.map Need.resource ++ [c.resource] := by
  induction ns with
  | nil => simp [mergeClaim]
  | cons n ns ih =>
    by_cases h : n.resource = c.resource
    · simp [mergeClaim,h]
    · have h' : c.resource ≠ n.resource := fun he => h he.symm
      simp only [mergeClaim,h,if_false,List.map_cons,ih,List.mem_cons,h',false_or]
      split <;> simp

theorem needs_nodup (claims : List Claim) : ((needs claims).map Need.resource).Nodup := by
  induction claims using List.reverseRecOn with
  | nil => simp [needs]
  | append_singleton claims c ih =>
    rw [needs_concat,mergeClaim_resource]
    split
    · exact ih
    · rename_i h
      refine List.nodup_append.mpr ⟨ih,List.nodup_singleton _,?_⟩
      intro a ha b hb
      rw [List.mem_singleton.mp hb]
      exact fun he => h (he ▸ ha)

theorem exists_need_iff (claims : List Claim) (r : ResourceID) :
    (∃ n ∈ needs claims, n.resource = r) ↔ claimsOn claims r = true := by
  induction claims using List.reverseRecOn with
  | nil => simp [needs,claimsOn]
  | append_singleton claims c ih =>
    have hmem : ∀ ns : List Need, (∃ n ∈ ns, n.resource = r) ↔ r ∈ ns.map Need.resource := by simp
    rw [hmem] at ih ⊢
    rw [needs_concat,mergeClaim_resource]
    simp only [claimsOn,List.any_append,List.any_cons,List.any_nil,Bool.or_false,Bool.or_eq_true,
      decide_eq_true_eq] at ih ⊢
    split
    · rename_i h
      rw [ih]
      constructor
      · exact Or.inl
      · rintro (h' | h')
        · exact h'
        · exact ih.mp (h' ▸ h)
    · rw [List.mem_append,ih,List.mem_singleton,eq_comm (a := r)]

lemma mergeClaim_exclusive (c : Claim) (ns : List Need) (r : ResourceID) :
    (∃ n ∈ mergeClaim c ns, n.resource = r ∧ n.exclusive = true) ↔
      (∃ n ∈ ns, n.resource = r ∧ n.exclusive = true) ∨ (c.resource = r ∧ c.exclusive = true) := by
  induction ns with
  | nil => simp [mergeClaim]
  | cons n ns ih =>
    by_cases h : n.resource = c.resource
    · simp only [mergeClaim,h,if_true,List.mem_cons,exists_eq_or_imp,Bool.or_eq_true,and_or_left]
      exact or_right_comm
    · simp only [mergeClaim,h,if_false,List.mem_cons,exists_eq_or_imp,ih]
      exact or_assoc.symm

theorem exists_exclusive_need_iff (claims : List Claim) (r : ResourceID) :
    (∃ n ∈ needs claims, n.resource = r ∧ n.exclusive = true) ↔ aloneOn claims r = true := by
  induction claims using List.reverseRecOn with
  | nil => simp [needs,aloneOn]
  | append_singleton claims c ih =>
    rw [needs_concat,mergeClaim_exclusive,ih]
    simp [aloneOn]

lemma filter_needs (claims : List Claim) (r : ResourceID) :
    (needs claims).filter (fun n => n.resource = r) = [] ∨
      ∃ n, (needs claims).filter (fun n => n.resource = r) = [n] ∧ n ∈ needs claims ∧ n.resource = r := by
  have hnd : ∀ ns : List Need, (ns.map Need.resource).Nodup →
      ns.filter (fun n => n.resource = r) = [] ∨
        ∃ n, ns.filter (fun n => n.resource = r) = [n] ∧ n ∈ ns ∧ n.resource = r := by
    intro ns
    induction ns with
    | nil => simp
    | cons n ns ih =>
      intro h
      obtain ⟨hn,ht⟩ := List.nodup_cons.mp h
      by_cases hr : n.resource = r
      · right
        refine ⟨n,?_,List.mem_cons_self,hr⟩
        rw [List.filter_cons_of_pos (by simpa using hr),List.filter_eq_nil_iff.mpr]
        intro m hm
        simp only [decide_eq_true_eq]
        exact fun he => hn (List.mem_map.mpr ⟨m,hm,he.trans hr.symm⟩)
      · rw [List.filter_cons_of_neg (by simpa using hr)]
        rcases ih ht with h | ⟨m,hm,hin,he⟩
        · exact Or.inl h
        · exact Or.inr ⟨m,hm,List.mem_cons_of_mem _ hin,he⟩
  exact hnd _ (needs_nodup claims)

theorem amountOn_of_mem {claims : List Claim} {n : Need} (h : n ∈ needs claims) :
    amountOn claims n.resource = n.amount := by
  have hn : n ∈ (needs claims).filter (fun m => m.resource = n.resource) :=
    List.mem_filter.mpr ⟨h,by simp⟩
  rcases filter_needs claims n.resource with he | ⟨m,he,_,_⟩
  · simp [he] at hn
  · rw [he,List.mem_singleton] at hn
    rw [amountOn,he,hn]
    simp

lemma mergeClaim_amount (c : Claim) (ns : List Need) (r : ResourceID) :
    wrap (((mergeClaim c ns).filter fun n => n.resource = r).map Need.amount).sum =
      wrap (((ns.filter fun n => n.resource = r).map Need.amount).sum + if c.resource = r then max c.amount 1 else 0) := by
  induction ns with
  | nil => by_cases hr : c.resource = r <;> simp [mergeClaim,hr]
  | cons n ns ih =>
    by_cases hn : n.resource = c.resource
    · by_cases hr : c.resource = r
      · simp [mergeClaim,hn,hr,add_right_comm]
      · simp [mergeClaim,hn,hr]
    · rw [mergeClaim,if_neg hn]
      by_cases hr : n.resource = r
      · rw [List.filter_cons_of_pos (by simpa using hr),List.filter_cons_of_pos (by simpa using hr),List.map_cons,
          List.map_cons,List.sum_cons,List.sum_cons,← wrap_add_wrap,ih,wrap_add_wrap,add_assoc]
      · rw [List.filter_cons_of_neg (by simpa using hr),List.filter_cons_of_neg (by simpa using hr),ih]

/-- Merging keeps the lowest bits of the sum of the claims. -/
theorem wrap_amountOn (claims : List Claim) (r : ResourceID) : wrap (amountOn claims r) = wrap (claimed claims r) := by
  induction claims using List.reverseRecOn with
  | nil => rfl
  | append_singleton claims c ih =>
    rw [amountOn,needs_concat,mergeClaim_amount,← amountOn,← wrap_wrap_add,ih,wrap_wrap_add]
    by_cases hr : c.resource = r <;> simp [claimed,hr]

lemma wrap_amount {claims : List Claim} {n : Need} (h : n ∈ needs claims) : wrap n.amount = n.amount := by
  induction claims using List.reverseRecOn generalizing n with
  | nil => simp [needs] at h
  | append_singleton claims c ih =>
    have hmerge : ∀ ns : List Need, (∀ m ∈ ns, wrap m.amount = m.amount) →
        ∀ m ∈ mergeClaim c ns, wrap m.amount = m.amount := by
      intro ns
      induction ns with
      | nil => simp [mergeClaim]
      | cons m ns ih =>
        intro hall
        obtain ⟨hm,hns⟩ := List.forall_mem_cons.mp hall
        rw [mergeClaim]
        split_ifs
        · exact List.forall_mem_cons.mpr ⟨wrap_wrap _,hns⟩
        · exact List.forall_mem_cons.mpr ⟨hm,ih hns⟩
    rw [needs_concat] at h
    exact hmerge _ (fun m hm => ih hm) n h

theorem amountOn_eq_wrap (claims : List Claim) (r : ResourceID) : amountOn claims r = wrap (claimed claims r) := by
  rw [← wrap_amountOn]
  rcases filter_needs claims r with he | ⟨n,he,hn,_⟩
  · simp [amountOn,he]
  · simp [amountOn,he,wrap_amount hn]

theorem amountOn_of_not_claimsOn {claims : List Claim} {r : ResourceID} (h : ¬ claimsOn claims r = true) :
    amountOn claims r = 0 := by
  rcases filter_needs claims r with he | ⟨n,_,hn,hr⟩
  · simp [amountOn,he]
  · exact absurd ((exists_need_iff claims r).mp ⟨n,hn,hr⟩) h

namespace Book

/-! Holding a list of needs, resource by resource. -/

lemma foldl_holdNeed_used (id : ID) (ns : List Need) (b : Book) (r : ResourceID)
    {u : ℤ} (hu : b.used r = wrap u) : (ns.foldl (holdNeed id) b).used r =
      wrap (u + ((ns.filter fun n => n.resource = r).map Need.amount).sum) := by
  induction ns generalizing b u with
  | nil => simpa using hu
  | cons n ns ih =>
    rw [List.foldl_cons]
    by_cases h : n.resource = r
    · subst h
      rw [ih _ (u := u+n.amount) (by simp [holdNeed,hu])]
      simp [add_assoc]
    · rw [ih _ (u := u) (by simpa [holdNeed,Function.update_of_ne (fun he => h he.symm)] using hu)]
      simp [h]

lemma foldl_holdNeed_holders (id : ID) (ns : List Need) (b : Book) (r : ResourceID) :
    (ns.foldl (holdNeed id) b).holders r =
      b.holders r ++ (ns.filter fun n => n.resource = r).map fun _ => id := by
  induction ns generalizing b with
  | nil => simp
  | cons n ns ih =>
    rw [List.foldl_cons,ih]
    by_cases h : n.resource = r
    · subst h
      simp [holdNeed]
    · simp [holdNeed,h,Function.update_of_ne (fun he => h he.symm)]

lemma foldl_holdNeed_exclusive (id : ID) (ns : List Need) (b : Book) (r : ResourceID) :
    (ns.foldl (holdNeed id) b).exclusive r =
      b.exclusive r ++ (ns.filter fun n => n.resource = r && n.exclusive).map fun _ => id := by
  induction ns generalizing b with
  | nil => simp
  | cons n ns ih =>
    rw [List.foldl_cons,ih]
    by_cases h : n.resource = r
    · subst h
      cases he : n.exclusive <;> simp [holdNeed,he]
    · cases he : n.exclusive <;> simp [holdNeed,h,he,Function.update_of_ne (fun he => h he.symm)]

lemma foldl_holdNeed_frame (id : ID) (ns : List Need) (b : Book) :
    (ns.foldl (holdNeed id) b).capacity = b.capacity ∧
      (ns.foldl (holdNeed id) b).reserved = b.reserved := by
  induction ns generalizing b with
  | nil => simp
  | cons n ns ih => simpa [holdNeed] using ih (holdNeed id b n)

@[simp] theorem hold_capacity (b : Book) (id : ID) (claims : List Claim) :
    (b.hold id claims).capacity = b.capacity := (foldl_holdNeed_frame id _ b).1

@[simp] theorem hold_reserved (b : Book) (id : ID) (claims : List Claim) :
    (b.hold id claims).reserved = b.reserved := (foldl_holdNeed_frame id _ b).2

theorem hold_used (b : Book) (id : ID) (claims : List Claim) (r : ResourceID) {u : ℤ} (hu : b.used r = wrap u) :
    (b.hold id claims).used r = wrap (u + amountOn claims r) := foldl_holdNeed_used id _ b r hu

theorem hold_holders (b : Book) (id : ID) (claims : List Claim) (r : ResourceID) :
    (b.hold id claims).holders r = b.holders r ++ if claimsOn claims r then [id] else [] := by
  rw [hold,foldl_holdNeed_holders]
  rcases filter_needs claims r with h | ⟨n,h,hn,hr⟩
  · have hc : claimsOn claims r = false := by
      rw [← Bool.not_eq_true,← exists_need_iff]
      rintro ⟨n,hn,hr⟩
      exact List.filter_eq_nil_iff.mp h n hn (by simpa using hr)
    simp [h,hc]
  · have hc := (exists_need_iff claims r).mp ⟨n,hn,hr⟩
    simp [h,hc]

theorem hold_exclusive (b : Book) (id : ID) (claims : List Claim) (r : ResourceID) :
    (b.hold id claims).exclusive r = b.exclusive r ++ if aloneOn claims r then [id] else [] := by
  rw [hold,foldl_holdNeed_exclusive]
  have hf : (needs claims).filter (fun n => n.resource = r && n.exclusive) =
      ((needs claims).filter fun n => n.resource = r).filter fun n => n.exclusive := by
    rw [List.filter_filter]
    congr 1
    funext n
    exact Bool.and_comm _ _
  rw [hf]
  have ha := exists_exclusive_need_iff claims r
  rcases filter_needs claims r with h | ⟨n,h,hn,hr⟩
  · have hc : aloneOn claims r = false := by
      rw [← Bool.not_eq_true,← ha]
      rintro ⟨n,hn,hr,_⟩
      exact List.filter_eq_nil_iff.mp h n hn (by simpa using hr)
    simp [h,hc]
  · cases he : n.exclusive with
    | true => simp [h,he,ha.mp ⟨n,hn,hr,he⟩]
    | false =>
      have hc : aloneOn claims r = false := by
        rw [← Bool.not_eq_true,← ha]
        rintro ⟨m,hm,hmr,hme⟩
        have hf : m ∈ (needs claims).filter (fun n => n.resource = r) :=
          List.mem_filter.mpr ⟨hm,by simpa using hmr⟩
        rw [h,List.mem_singleton] at hf
        rw [hf,he] at hme
        contradiction
      simp [h,he,hc]

/-- The book is that of a list of jobs that hold their claims. -/
structure Accounts (b : Book) (jobs : List (ID × List Claim)) : Prop where
  used : ∀ r, b.used r = wrap (jobs.map fun j => amountOn j.2 r).sum
  holders : ∀ r, b.holders r = (jobs.filter fun j => claimsOn j.2 r).map Prod.fst
  exclusive : ∀ r, b.exclusive r = (jobs.filter fun j => aloneOn j.2 r).map Prod.fst

theorem Accounts.hold {b : Book} {jobs : List (ID × List Claim)} (h : b.Accounts jobs)
    (id : ID) (claims : List Claim) : (b.hold id claims).Accounts (jobs ++ [(id,claims)]) where
  used r := by simp [b.hold_used id claims r (h.used r)]
  holders r := by
    rw [hold_holders,h.holders r,List.filter_append,List.map_append]
    cases hc : claimsOn claims r <;> simp [hc]
  exclusive r := by
    rw [hold_exclusive,h.exclusive r,List.filter_append,List.map_append]
    cases hc : aloneOn claims r <;> simp [hc]

end Book

def heldJobs (holdings : List Holding) : List (ID × List Claim) := holdings.map fun h => (h.id,h.claims)

lemma foldl_hold_accounts (holdings : List Holding) (b : Book) (jobs : List (ID × List Claim))
    (h : b.Accounts jobs) :
    (holdings.foldl (fun b h => b.hold h.id h.claims) b).Accounts (jobs ++ heldJobs holdings) := by
  induction holdings generalizing b jobs with
  | nil => simpa [heldJobs] using h
  | cons x holdings ih =>
    simpa [heldJobs] using ih _ _ (h.hold x.id x.claims)

theorem newBook_accounts (s : State) : (newBook s).Accounts (heldJobs s.holdings) := by
  simpa [newBook] using foldl_hold_accounts s.holdings
    ⟨capacityOf s.resources,fun _ => 0,fun _ => [],fun _ => [],fun _ => [],s.holdings⟩ []
    ⟨by simp,by simp,by simp⟩

theorem newBook_frame (s : State) :
    (newBook s).capacity = capacityOf s.resources ∧ (newBook s).reserved = fun _ => [] := by
  have h : ∀ (hs : List Holding) (b : Book),
      (hs.foldl (fun b h => b.hold h.id h.claims) b).capacity = b.capacity ∧
        (hs.foldl (fun b h => b.hold h.id h.claims) b).reserved = b.reserved := by
    intro hs
    induction hs with
    | nil => simp
    | cons x hs ih => intro b; simpa using ih (b.hold x.id x.claims)
  exact h s.holdings _

end Vibesys.Schedule
