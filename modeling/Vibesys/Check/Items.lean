import Mathlib.Data.List.MinMax
import Mathlib.Data.List.Sort
import Mathlib.Algebra.BigOperators.Group.List.Basic
import Mathlib.Algebra.Order.Ring.Int
import Vibesys.Library.Run

/-!
# Items under bounded staleness

A register keeps the versions of an item in linearization order, a window the times of its writes, and a counter the
increments that are not yet settled. Each forgets what no read from a floor on can tell apart.
-/
namespace Vibesys.Check

open Library

def MinInt64 : ℤ := -9223372036854775808

def MaxInt64 : ℤ := 9223372036854775807

/-- The time that lies the bound before another, or the least one. -/
def before (t bound : ℤ) : ℤ := if t < MinInt64+bound then MinInt64 else t-bound

theorem before_mono {s t : ℤ} (h : s ≤ t) (bound : ℤ) : before s bound ≤ before t bound := by
  unfold before
  split_ifs <;> omega

variable {V : Type}

/-! ## The three structures -/

structure Version (V : Type) where
  val : V
  ret : ℤ

structure Register (V : Type) where
  versions : List (Version V)

namespace Register

def New (initial : V) : Register V := ⟨[⟨initial,MinInt64⟩]⟩

def Write (r : Register V) (v : V) (ret : ℤ) : Register V := ⟨r.versions ++ [⟨v,ret⟩]⟩

/-- The index of the last version that returned before `t`, zero if none did. -/
def settled (t : ℤ) : List (Version V) → ℕ
  | [] => 0
  | _ :: rest => if rest.any (fun v => v.ret < t) then settled t rest+1 else 0

def Allowed (r : Register V) (call bound : ℤ) : List V :=
  (r.versions.drop (settled (before call bound) r.versions)).map Version.val

def MayShow [DecidableEq V] (r : Register V) (v : V) (call bound : ℤ) : Bool := (r.Allowed call bound).any fun x => x = v

def Prune (r : Register V) (floor bound : ℤ) : Register V := ⟨r.versions.drop (settled (before floor bound) r.versions)⟩

end Register

structure Entry (V : Type) where
  v : V
  call : ℤ
  ret : ℤ

/-- The order of a window's entries, by call and then by return. -/
def Entry.le (a b : Entry V) : Prop := a.call < b.call ∨ a.call = b.call ∧ a.ret ≤ b.ret

instance : DecidableRel (@Entry.le V) := fun _ _ => inferInstanceAs (Decidable (_ ∨ _))

instance : IsTrans (Entry V) Entry.le := ⟨fun a b c hab hbc => by unfold Entry.le at *; omega⟩

instance : Std.Total (@Entry.le V) := ⟨fun a b => by unfold Entry.le; omega⟩

structure Window (V : Type) where
  es : List (Entry V)

namespace Window

def New (initial : V) : Window V := ⟨[⟨initial,MinInt64,MinInt64⟩]⟩

def Write (w : Window V) (v : V) (call ret : ℤ) : Window V := ⟨w.es.orderedInsert Entry.le ⟨v,call,ret⟩⟩

/-- Some write started after `ri` and returned before `t`. -/
def overwritten (es : List (Entry V)) (t ri : ℤ) : Bool := es.any fun e => ri < e.call && e.ret < t

def MayShow [DecidableEq V] (w : Window V) (v : V) (c bound : ℤ) : Bool :=
  w.es.any fun e => e.v = v && !overwritten w.es (before c bound) e.ret

def Allowed [DecidableEq V] (w : Window V) (c bound : ℤ) : List V :=
  w.es.foldl (fun out e => if !overwritten w.es (before c bound) e.ret && e.v ∉ out then out ++ [e.v] else out) []

def Prune (w : Window V) (floor bound : ℤ) : Window V :=
  ⟨w.es.filter fun e => !overwritten w.es (before floor bound) e.ret⟩

end Window

structure Inc where
  n : ℤ
  call : ℤ
  ret : ℤ

def Inc.le (a b : Inc) : Prop :=
  a.call < b.call ∨ a.call = b.call ∧ (a.ret < b.ret ∨ a.ret = b.ret ∧ a.n ≤ b.n)

instance : DecidableRel Inc.le := fun _ _ => inferInstanceAs (Decidable (_ ∨ _))

structure Counter where
  settled : ℤ := 0
  recent : List Inc := []

namespace Counter

def Add (c : Counter) (n call ret : ℤ) : Counter := { c with recent := c.recent.orderedInsert Inc.le ⟨n,call,ret⟩ }

def Value (c : Counter) : ℤ := c.settled+(c.recent.map Inc.n).sum

def Range (c : Counter) (s bound : ℤ) : ℤ × ℤ :=
  (c.settled+((c.recent.filter fun e => e.ret < before s bound).map Inc.n).sum,c.Value)

def Prune (c : Counter) (floor bound : ℤ) : Counter where
  settled := c.settled+((c.recent.filter fun e => e.ret < before floor bound).map Inc.n).sum
  recent := c.recent.filter fun e => !decide (e.ret < before floor bound)

end Counter

/-! ## Writes and prunes -/

inductive Act (α : Type)
  | write (a : α) (call ret : ℤ)
  | prune (floor : ℤ)

def Act.writes {α : Type} : Act α → Bool
  | .write .. => true
  | .prune _ => false

/-- A prune is at a floor that is not after `c`. -/
def Act.By {α : Type} (c : ℤ) : Act α → Prop
  | .write .. => True
  | .prune floor => floor ≤ c

def Register.act (bound : ℤ) (r : Register V) : Act V → Register V
  | .write v _ ret => r.Write v ret
  | .prune floor => r.Prune floor bound

def Window.act (bound : ℤ) (w : Window V) : Act V → Window V
  | .write v call ret => w.Write v call ret
  | .prune floor => w.Prune floor bound

def Counter.act (bound : ℤ) (c : Counter) : Act ℤ → Counter
  | .write n call ret => c.Add n call ret
  | .prune floor => c.Prune floor bound

/-! ## What a read from the floor on tells apart -/

/-- The induction that all three share: a structure that prunes stays related to one that does not, if a write keeps
them related and a prune of the first one does. -/
theorem run_related {α σ : Type} {step : σ → Act α → σ} {R : σ → σ → Prop} {c : ℤ} {P : Act α → Prop}
    (hwrite : ∀ p f a call ret, P (.write a call ret) → R p f →
      R (step p (.write a call ret)) (step f (.write a call ret)))
    (hprune : ∀ p f floor, floor ≤ c → R p f → R (step p (.prune floor)) f) {s : σ} (hs : R s s) (acts : List (Act α))
    (hP : ∀ a ∈ acts, P a) (hby : ∀ a ∈ acts, a.By c) :
    R (run step s acts) (run step s (acts.filter Act.writes)) := by
  induction acts using List.reverseRecOn with
  | nil => exact hs
  | append_singleton acts a ih =>
    have hrel := ih (fun a ha => hP a (List.mem_append_left _ ha)) fun a ha => hby a (List.mem_append_left _ ha)
    have hPa := hP a (by simp)
    have hbya := hby a (by simp)
    rw [List.filter_append,run_append,run_append]
    cases a with
    | write a call ret => exact hwrite _ _ a call ret hPa hrel
    | prune floor => exact hprune _ _ floor hbya hrel

namespace Register

variable {t : ℤ} {vs : List (Version V)}

theorem settled_lt (h : vs ≠ []) : settled t vs < vs.length := by
  induction vs with
  | nil => exact absurd rfl h
  | cons v rest ih =>
    rw [settled]
    split_ifs with hany
    · have hne : rest ≠ [] := by
        rintro rfl
        simp at hany
      simpa using ih hne
    · simp

theorem settled_drop {s : ℤ} (hst : s ≤ t) (vs : List (Version V)) :
    settled t vs = settled s vs+settled t (vs.drop (settled s vs)) := by
  induction vs with
  | nil => rfl
  | cons v rest ih =>
    by_cases hs : rest.any (fun v => v.ret < s) = true
    · have ht : rest.any (fun v => v.ret < t) = true := by
        simp only [List.any_eq_true,decide_eq_true_eq] at hs ⊢
        obtain ⟨w,hw,hlt⟩ := hs
        exact ⟨w,hw,by omega⟩
      have hsettled : settled s (v :: rest) = settled s rest+1 := by rw [settled,if_pos hs]
      have htail : settled t (v :: rest) = settled t rest+1 := by rw [settled,if_pos ht]
      rw [hsettled,htail,List.drop_succ_cons,ih]
      omega
    · have hsettled : settled s (v :: rest) = 0 := by rw [settled,if_neg hs]
      rw [hsettled,List.drop_zero,Nat.zero_add]

theorem settled_concat (h : vs ≠ []) (w : Version V) :
    settled t (vs ++ [w]) = if w.ret < t then vs.length else settled t vs := by
  induction vs with
  | nil => exact absurd rfl h
  | cons v rest ih =>
    rw [List.cons_append,settled,List.any_append]
    by_cases hw : w.ret < t
    · rw [if_pos (by simp [hw]),if_pos hw]
      cases rest with
      | nil => simp [settled]
      | cons u rest =>
        rw [ih (by simp),if_pos hw]
        rfl
    · rw [if_neg hw,settled]
      simp only [List.any_cons,List.any_nil,hw,decide_false,Bool.or_false]
      split_ifs with hany
      · have hne : rest ≠ [] := by
          rintro rfl
          simp at hany
        rw [ih hne,if_neg hw]
      · rfl

/-- A register that forgot some first versions of another, none that a read at `t` may show. -/
def Forgot (t : ℤ) (p f : Register V) : Prop :=
  ∃ k < f.versions.length, p.versions = f.versions.drop k ∧ settled t f.versions = k+settled t p.versions

theorem Forgot.act {c bound : ℤ} (initial : V) (acts : List (Act V)) (hby : ∀ a ∈ acts, a.By c) :
    Forgot (before c bound) (run (act bound) (New initial) acts) (run (act bound) (New initial) (acts.filter Act.writes)) := by
  refine run_related (P := fun _ => True) ?_ ?_ ⟨0,by simp [New],rfl,by simp⟩ acts (fun _ _ => trivial) hby
  · rintro ⟨pv⟩ ⟨fv⟩ v call ret - ⟨k,hk,rfl,hsettled⟩
    have hne : fv.drop k ≠ [] := by simpa using hk
    refine ⟨k,?_,?_,?_⟩
    · show k < (fv ++ [_]).length
      rw [List.length_append]
      exact Nat.lt_add_right _ hk
    · exact (List.drop_append_of_le_length hk.le).symm
    · show settled _ (fv ++ [_]) = k+settled _ (fv.drop k ++ [_])
      rw [settled_concat (List.ne_nil_of_length_pos (Nat.zero_lt_of_lt hk)),settled_concat hne,List.length_drop]
      change k < fv.length at hk
      split_ifs
      · show fv.length = k+(fv.length-k)
        omega
      · exact hsettled
  · rintro ⟨pv⟩ ⟨fv⟩ floor hfloor ⟨k,hk,rfl,hsettled⟩
    have hne : fv.drop k ≠ [] := by simpa using hk
    have hlt := @settled_lt V (before floor bound) _ hne
    rw [List.length_drop] at hlt
    refine ⟨k+settled (before floor bound) (fv.drop k),?_,List.drop_drop.symm ▸ rfl,?_⟩
    · change k < fv.length at hk
      show _ < fv.length
      omega
    · show settled _ fv = _
      change settled _ fv = _ at hsettled
      rw [hsettled,settled_drop (before_mono hfloor bound)]
      exact (Nat.add_assoc _ _ _).symm

theorem Forgot.allowed {c bound : ℤ} {p f : Register V} (h : Forgot (before c bound) p f) :
    p.Allowed c bound = f.Allowed c bound := by
  obtain ⟨k,-,hversions,hsettled⟩ := h
  unfold Allowed
  rw [hsettled,hversions,List.drop_drop]

end Register

namespace Window

variable {t : ℤ} {es : List (Entry V)}

theorem overwritten_iff {ri : ℤ} : overwritten es t ri = true ↔ ∃ e ∈ es, ri < e.call ∧ e.ret < t := by
  simp [overwritten]

theorem overwritten_orderedInsert (e : Entry V) (ri : ℤ) :
    overwritten (es.orderedInsert Entry.le e) t ri = (overwritten es t ri || (ri < e.call && e.ret < t)) := by
  rw [Bool.eq_iff_iff,overwritten_iff,Bool.or_eq_true,overwritten_iff]
  simp only [List.mem_orderedInsert,Bool.and_eq_true,decide_eq_true_eq]
  constructor
  · rintro ⟨x,rfl | hx,h⟩
    · exact Or.inr h
    · exact Or.inl ⟨x,hx,h⟩
  · rintro (⟨x,hx,h⟩ | h)
    · exact ⟨x,Or.inr hx,h⟩
    · exact ⟨e,Or.inl rfl,h⟩

lemma orderedInsert_of_forall {e : Entry V} (h : ∀ x ∈ es, e.le x) : es.orderedInsert Entry.le e = e :: es := by
  cases es with
  | nil => rfl
  | cons x es => rw [List.orderedInsert_cons,if_pos (h x List.mem_cons_self)]

theorem filter_orderedInsert {p : Entry V → Bool} (hsorted : es.Pairwise Entry.le) (e : Entry V) :
    (es.orderedInsert Entry.le e).filter p =
      if p e then (es.filter p).orderedInsert Entry.le e else es.filter p := by
  induction es with
  | nil => by_cases hp : p e = true <;> simp [hp]
  | cons x es ih =>
    obtain ⟨hx,hrest⟩ := List.pairwise_cons.mp hsorted
    rw [List.orderedInsert_cons]
    by_cases hle : e.le x
    · have hall : ∀ y ∈ (x :: es).filter p, e.le y := by
        intro y hy
        rcases List.mem_cons.mp (List.mem_filter.mp hy).1 with rfl | hy
        · exact hle
        · exact trans_of Entry.le hle (hx y hy)
      rw [if_pos hle,List.filter_cons,orderedInsert_of_forall hall]
    · rw [if_neg hle,List.filter_cons,ih hrest]
      by_cases hpx : p x = true
      · rw [if_pos hpx,List.filter_cons_of_pos hpx,List.orderedInsert_cons,if_neg hle]
        split_ifs <;> rfl
      · rw [if_neg hpx,List.filter_cons_of_neg hpx]

def showing (t : ℤ) (es : List (Entry V)) : List (Entry V) := es.filter fun e => !overwritten es t e.ret

/-- A window that tells a read at `t` the same as another. -/
structure Forgot (t : ℤ) (p f : Window V) : Prop where
  sorted : p.es.Pairwise Entry.le
  sortedFull : f.es.Pairwise Entry.le
  valid : ∀ e ∈ p.es, e.call ≤ e.ret
  same : ∀ ri, overwritten p.es t ri = overwritten f.es t ri
  shown : showing t p.es = showing t f.es

theorem showing_orderedInsert (hsorted : es.Pairwise Entry.le) (e : Entry V) :
    showing t (es.orderedInsert Entry.le e) =
      (if !overwritten es t e.ret then (showing t es).orderedInsert Entry.le e else showing t es).filter
        fun x => !(x.ret < e.call && e.ret < t) := by
  have hfilter := filter_orderedInsert (p := fun x => !overwritten es t x.ret) hsorted e
  unfold showing
  rw [← hfilter,List.filter_filter]
  refine List.filter_congr fun x _ => ?_
  rw [overwritten_orderedInsert,Bool.not_or,Bool.and_comm]

/-- What overwrites an entry at `t` is not itself dropped at an earlier time without another that does. -/
theorem overwritten_prune {s : ℤ} (hst : s ≤ t) (hvalid : ∀ e ∈ es, e.call ≤ e.ret) (ri : ℤ) :
    overwritten (showing s es) t ri = overwritten es t ri := by
  rw [Bool.eq_iff_iff,overwritten_iff,overwritten_iff]
  constructor
  · rintro ⟨e,he,h⟩
    exact ⟨e,(List.mem_filter.mp he).1,h⟩
  · rintro ⟨e,he,h⟩
    -- of those that overwrite it, the one that was called last
    cases hmax : (es.filter fun e => ri < e.call && e.ret < t).argmax Entry.call with
    | none =>
      have hmem : e ∈ es.filter fun e => ri < e.call && e.ret < t := List.mem_filter.mpr ⟨he,by simpa using h⟩
      rw [List.argmax_eq_none.mp hmax] at hmem
      exact absurd hmem (by simp)
    | some m =>
      have hm := List.argmax_mem hmax
      obtain ⟨hmem,hcond⟩ := List.mem_filter.mp hm
      simp only [Bool.and_eq_true,decide_eq_true_eq] at hcond
      refine ⟨m,List.mem_filter.mpr ⟨hmem,?_⟩,hcond⟩
      rw [Bool.not_eq_true',← Bool.not_eq_true,overwritten_iff]
      rintro ⟨x,hx,hcall,hret⟩
      have hle := hvalid m hmem
      have hxmem : x ∈ es.filter fun e => ri < e.call && e.ret < t :=
        List.mem_filter.mpr ⟨hx,by simp only [Bool.and_eq_true,decide_eq_true_eq]; omega⟩
      have := List.le_of_mem_argmax hxmem hmax
      omega

theorem Forgot.act {c bound : ℤ} (initial : V) (acts : List (Act V))
    (hvalid : ∀ a ∈ acts, ∀ v call ret, a = .write v call ret → call ≤ ret) (hby : ∀ a ∈ acts, a.By c) :
    Forgot (before c bound) (run (act bound) (New initial) acts) (run (act bound) (New initial) (acts.filter Act.writes)) := by
  refine run_related (P := fun a => ∀ v call ret, a = .write v call ret → call ≤ ret) ?_ ?_
    ⟨by simp [New],by simp [New],by simp [New],fun _ => rfl,rfl⟩ acts hvalid hby
  · rintro p f v call ret hle ⟨hsorted,hsortedFull,hvalid,hsame,hshown⟩
    refine ⟨hsorted.orderedInsert _ _,hsortedFull.orderedInsert _ _,?_,fun ri => ?_,?_⟩
    · intro e he
      rcases (List.mem_orderedInsert _).mp he with rfl | he
      · exact hle v call ret rfl
      · exact hvalid e he
    · show overwritten (List.orderedInsert _ _ _) _ _ = overwritten (List.orderedInsert _ _ _) _ _
      rw [overwritten_orderedInsert,overwritten_orderedInsert,hsame]
    · show showing _ (List.orderedInsert _ _ _) = showing _ (List.orderedInsert _ _ _)
      rw [showing_orderedInsert hsorted,showing_orderedInsert hsortedFull,hshown,hsame]
  · rintro p f floor hfloor ⟨hsorted,hsortedFull,hvalid,hsame,hshown⟩
    have hprune := @overwritten_prune V _ p.es _ (before_mono hfloor bound) hvalid
    refine ⟨hsorted.filter _,hsortedFull,fun e he => hvalid e (List.mem_filter.mp he).1,fun ri => ?_,?_⟩
    · exact (hprune ri).trans (hsame ri)
    · rw [← hshown]
      show ((showing _ p.es).filter fun e => !overwritten (showing _ p.es) _ e.ret) = p.es.filter _
      unfold showing
      rw [List.filter_filter]
      refine List.filter_congr fun e _ => ?_
      have hsub : overwritten p.es (before floor bound) e.ret = true → overwritten p.es (before c bound) e.ret = true := by
        rw [overwritten_iff,overwritten_iff]
        rintro ⟨x,hx,hcall,hret⟩
        exact ⟨x,hx,hcall,hret.trans_le (before_mono hfloor bound)⟩
      change (!overwritten (showing (before floor bound) p.es) _ _ && _) = _
      rw [hprune]
      cases h : overwritten p.es (before c bound) e.ret with
      | true => rfl
      | false => rw [Bool.not_eq_true _ |>.mp (fun hs => Bool.noConfusion ((hsub hs).symm.trans h))]; rfl

variable [DecidableEq V]

theorem mayShow_eq (w : Window V) (v : V) (c bound : ℤ) :
    w.MayShow v c bound = (showing (before c bound) w.es).any fun e => e.v = v := by
  unfold MayShow showing
  rw [List.any_filter]
  congr 1
  funext e
  exact Bool.and_comm _ _

theorem Forgot.mayShow {c bound : ℤ} {p f : Window V} (h : Forgot (before c bound) p f) (v : V) :
    p.MayShow v c bound = f.MayShow v c bound := by
  rw [mayShow_eq,mayShow_eq,h.shown]

theorem allowed_eq (w : Window V) (c bound : ℤ) : w.Allowed c bound =
    (showing (before c bound) w.es).foldl (fun out e => if e.v ∉ out then out ++ [e.v] else out) [] := by
  unfold Allowed showing
  rw [List.foldl_filter]
  congr 1
  funext out e
  cases overwritten w.es (before c bound) e.ret <;> simp

theorem Forgot.allowed {c bound : ℤ} {p f : Window V} (h : Forgot (before c bound) p f) :
    p.Allowed c bound = f.Allowed c bound := by
  rw [allowed_eq,allowed_eq,h.shown]

end Window

namespace Counter

/-- A counter that tells a read at `t` the same as another. -/
structure Forgot (t : ℤ) (p f : Counter) : Prop where
  least : p.settled+((p.recent.filter fun e => e.ret < t).map Inc.n).sum =
    f.settled+((f.recent.filter fun e => e.ret < t).map Inc.n).sum
  most : p.Value = f.Value

lemma sum_orderedInsert (p : Inc → Bool) (e : Inc) (es : List Inc) :
    (((es.orderedInsert Inc.le e).filter p).map Inc.n).sum = (if p e then e.n else 0)+((es.filter p).map Inc.n).sum := by
  have hperm := ((List.perm_orderedInsert Inc.le e es).filter p).map Inc.n
  rw [hperm.sum_eq,List.filter_cons]
  split_ifs <;> simp

lemma sum_filter_add (p : Inc → Bool) (es : List Inc) :
    ((es.filter p).map Inc.n).sum+((es.filter fun e => !p e).map Inc.n).sum = (es.map Inc.n).sum := by
  induction es with
  | nil => rfl
  | cons e es ih =>
    cases hp : p e with
    | true => simp [hp,← ih,add_assoc]
    | false => simp [hp,← ih,add_left_comm]

theorem Forgot.act {c bound : ℤ} (acts : List (Act ℤ)) (hby : ∀ a ∈ acts, a.By c) :
    Forgot (before c bound) (run (act bound) {} acts) (run (act bound) {} (acts.filter Act.writes)) := by
  refine run_related (P := fun _ => True) ?_ ?_ ⟨rfl,rfl⟩ acts (fun _ _ => trivial) hby
  · rintro p f n call ret - ⟨hleast,hmost⟩
    refine ⟨?_,?_⟩
    · show p.settled+(((p.recent.orderedInsert Inc.le _).filter _).map Inc.n).sum =
        f.settled+(((f.recent.orderedInsert Inc.le _).filter _).map Inc.n).sum
      rw [sum_orderedInsert,sum_orderedInsert,add_left_comm,hleast,add_left_comm]
    · have hsum : ∀ es : List Inc, ((es.orderedInsert Inc.le ⟨n,call,ret⟩).map Inc.n).sum = n+(es.map Inc.n).sum := by
        intro es
        have := sum_orderedInsert (fun _ => true) ⟨n,call,ret⟩ es
        simpa using this
      show p.settled+((p.recent.orderedInsert Inc.le _).map Inc.n).sum =
        f.settled+((f.recent.orderedInsert Inc.le _).map Inc.n).sum
      rw [hsum,hsum,add_left_comm,add_left_comm f.settled]
      exact congrArg (n+·) hmost
  · rintro p f floor hfloor ⟨hleast,hmost⟩
    have hmono := before_mono hfloor bound
    refine ⟨?_,?_⟩
    · rw [← hleast]
      show p.settled+((p.recent.filter _).map Inc.n).sum+(((p.recent.filter _).filter _).map Inc.n).sum = _
      have hsplit := sum_filter_add (fun e => e.ret < before floor bound) (p.recent.filter fun e => e.ret < before c bound)
      have hfirst : (p.recent.filter fun e => e.ret < before c bound).filter (fun e => e.ret < before floor bound) =
          p.recent.filter fun e => e.ret < before floor bound := by
        rw [List.filter_filter]
        refine List.filter_congr fun e _ => ?_
        simp only [Bool.and_eq_left_iff_imp,decide_eq_true_eq]
        omega
      rw [← hsplit,hfirst,List.filter_comm,add_assoc]
    · rw [← hmost]
      show p.settled+((p.recent.filter _).map Inc.n).sum+((p.recent.filter _).map Inc.n).sum = _
      rw [add_assoc,sum_filter_add]
      rfl

theorem Forgot.range {c bound : ℤ} {p f : Counter} (h : Forgot (before c bound) p f) : p.Range c bound = f.Range c bound :=
  Prod.ext h.least h.most

end Counter

end Vibesys.Check
