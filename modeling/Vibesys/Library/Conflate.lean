import Mathlib.Data.Finset.Card

/-!
# Readers of a map that moves under them

A source retains one value per key and a reader is given values one at a time. What the reader is still owed
is kept as sets of keys only: those it never had, those it holds an old value of, and those it holds although
they are gone. `Tracks` says what these sets mean, and each move of the source or the reader keeps it.
-/
namespace Vibesys.Library

structure Debt (κ : Type*) where
  delivered : Finset κ
  unsent : Finset κ
  changed : Finset κ
  removed : Finset κ
  deriving DecidableEq

namespace Debt

variable {κ V : Type*} {d d' : Debt κ} {k : κ} {value held : Option V}

/-- The sets are right about one key, of which the source retains `value` and the reader holds `held`. -/
structure TracksAt (d : Debt κ) (k : κ) (value held : Option V) : Prop where
  delivered : k ∈ d.delivered ↔ held ≠ none
  unsent : k ∈ d.unsent ↔ value ≠ none ∧ held = none
  removed : k ∈ d.removed ↔ held ≠ none ∧ value = none
  changed : k ∈ d.changed → value ≠ none ∧ held ≠ none
  current : held ≠ none → value ≠ none → k ∉ d.changed → held = value

/-- The sets are what the reader holds against what the source retains. -/
def Tracks (d : Debt κ) (values held : κ → Option V) : Prop := ∀ k, d.TracksAt k (values k) (held k)

/-- Two debts say the same of a key. -/
structure Agree (d d' : Debt κ) (k : κ) : Prop where
  delivered : k ∈ d'.delivered ↔ k ∈ d.delivered
  unsent : k ∈ d'.unsent ↔ k ∈ d.unsent
  changed : k ∈ d'.changed ↔ k ∈ d.changed
  removed : k ∈ d'.removed ↔ k ∈ d.removed

theorem TracksAt.of_agree (h : d.TracksAt k value held) (ha : d.Agree d' k) : d'.TracksAt k value held where
  delivered := ha.delivered.trans h.delivered
  unsent := ha.unsent.trans h.unsent
  removed := ha.removed.trans h.removed
  changed hk := h.changed (ha.changed.mp hk)
  current hh hv hk := h.current hh hv fun hc => hk (ha.changed.mpr hc)

theorem Tracks.start {values : κ → Option V} {unsent : Finset κ} (h : ∀ k, k ∈ unsent ↔ values k ≠ none) :
    (⟨∅,unsent,∅,∅⟩ : Debt κ).Tracks values fun _ => none := by
  intro k
  constructor <;> simp [h]

namespace Tracks

variable {values helds : κ → Option V}

theorem removed_subset (h : d.Tracks values helds) : d.removed ⊆ d.delivered :=
  fun k hk => (h k).delivered.mpr ((h k).removed.mp hk).1

theorem delivered_subset (h : d.Tracks values helds) (hr : d.removed = ∅) {keys : Finset κ}
    (hkeys : ∀ k, values k ≠ none → k ∈ keys) : d.delivered ⊆ keys := by
  intro k hk
  refine hkeys k fun hv => ?_
  have : k ∈ d.removed := (h k).removed.mpr ⟨(h k).delivered.mp hk,hv⟩
  rw [hr] at this
  exact Finset.notMem_empty k this

theorem same_keys (h : d.Tracks values helds) (hr : d.removed = ∅) (hu : d.unsent = ∅) (k : κ) :
    helds k = none ↔ values k = none := by
  have hremoved := (h k).removed
  have hunsent := (h k).unsent
  rw [hr] at hremoved
  rw [hu] at hunsent
  constructor
  · intro hh
    by_contra hv
    exact Finset.notMem_empty k (hunsent.mpr ⟨hv,hh⟩)
  · intro hv
    by_contra hh
    exact Finset.notMem_empty k (hremoved.mpr ⟨hh,hv⟩)

theorem same (h : d.Tracks values helds) (hr : d.removed = ∅) (hu : d.unsent = ∅) (hc : d.changed = ∅) :
    helds = values := by
  funext k
  by_cases hh : helds k = none
  · rw [hh,(h.same_keys hr hu k).mp hh]
  · refine (h k).current hh (fun hv => hh ((h.same_keys hr hu k).mpr hv)) ?_
    rw [hc]
    exact Finset.notMem_empty k

end Tracks

/-- What the reader was given of each key is part of what was put, in order, and the newest value put is not
among it while the key is owed. -/
def InOrder (d : Debt κ) (puts given : κ → List V) : Prop :=
  ∀ k, (given k).Sublist (puts k) ∧ (k ∈ d.unsent ∨ k ∈ d.changed → (given k).Sublist (puts k).dropLast)

theorem InOrder.of_subset {puts given : κ → List V} (h : d.InOrder puts given) (hunsent : d'.unsent ⊆ d.unsent)
    (hchanged : d'.changed ⊆ d.changed) : d'.InOrder puts given :=
  fun k => ⟨(h k).1,fun ho => (h k).2 (ho.imp (fun hk => hunsent hk) fun hk => hchanged hk)⟩

variable [DecidableEq κ]

theorem Tracks.update {values values' helds helds' : κ → Option V} (h : d.Tracks values helds)
    (hat : d'.TracksAt k (values' k) (helds' k)) (hagree : ∀ j, j ≠ k → d.Agree d' j)
    (hvalues : ∀ j, j ≠ k → values' j = values j) (hhelds : ∀ j, j ≠ k → helds' j = helds j) :
    d'.Tracks values' helds' := by
  intro j
  by_cases hj : j = k
  · subst hj
    exact hat
  · rw [hvalues j hj,hhelds j hj]
    exact (h j).of_agree (hagree j hj)

/-- The debt after the source was given a value of a key. -/
def put (d : Debt κ) (k : κ) : Debt κ :=
  if k ∈ d.delivered then { d with removed := d.removed.erase k, changed := insert k d.changed }
  else { d with removed := d.removed.erase k, unsent := insert k d.unsent }

/-- The debt after the source forgot a key. -/
def remove (d : Debt κ) (k : κ) : Debt κ :=
  if k ∈ d.delivered then
    { d with unsent := d.unsent.erase k, changed := d.changed.erase k, removed := insert k d.removed }
  else { d with unsent := d.unsent.erase k, changed := d.changed.erase k }

/-- The debt after the reader was told that a key is gone. -/
def tellRemoved (d : Debt κ) (k : κ) : Debt κ :=
  { d with removed := d.removed.erase k, delivered := d.delivered.erase k }

/-- The debt after the reader was given a key it never had. -/
def sendNew (d : Debt κ) (k : κ) : Debt κ :=
  { d with unsent := d.unsent.erase k, delivered := insert k d.delivered }

/-- The debt after the reader was given the value of a key again. -/
def refresh (d : Debt κ) (k : κ) : Debt κ := { d with changed := d.changed.erase k }

@[simp] theorem delivered_put (d : Debt κ) (k : κ) : (d.put k).delivered = d.delivered := by
  unfold put
  split_ifs <;> rfl

@[simp] theorem delivered_remove (d : Debt κ) (k : κ) : (d.remove k).delivered = d.delivered := by
  unfold remove
  split_ifs <;> rfl

@[simp] theorem unsent_remove (d : Debt κ) (k : κ) : (d.remove k).unsent = d.unsent.erase k := by
  unfold remove
  split_ifs <;> rfl

@[simp] theorem changed_remove (d : Debt κ) (k : κ) : (d.remove k).changed = d.changed.erase k := by
  unfold remove
  split_ifs <;> rfl

theorem agree_put {j : κ} (h : j ≠ k) : d.Agree (d.put k) j := by
  unfold put
  split_ifs <;> constructor <;> simp [h]

theorem agree_remove {j : κ} (h : j ≠ k) : d.Agree (d.remove k) j := by
  unfold remove
  split_ifs <;> constructor <;> simp [h]

theorem agree_tellRemoved {j : κ} (h : j ≠ k) : d.Agree (d.tellRemoved k) j := by
  constructor <;> simp [tellRemoved,h]

theorem agree_sendNew {j : κ} (h : j ≠ k) : d.Agree (d.sendNew k) j := by
  constructor <;> simp [sendNew,h]

theorem agree_refresh {j : κ} (h : j ≠ k) : d.Agree (d.refresh k) j := by
  constructor <;> simp [refresh,h]

namespace TracksAt

theorem put (h : d.TracksAt k value held) (v : V) : (d.put k).TracksAt k (some v) held := by
  unfold Debt.put
  split_ifs with hk
  · have hheld := h.delivered.mp hk
    have hunsent : k ∉ d.unsent := fun hu => hheld (h.unsent.mp hu).2
    constructor <;> simp [hk,hheld,hunsent]
  · have hheld : held = none := not_not.mp fun hne => hk (h.delivered.mpr hne)
    have hchanged : k ∉ d.changed := fun hc => (h.changed hc).2 hheld
    constructor <;> simp [hk,hheld,hchanged]

theorem remove (h : d.TracksAt k value held) : (d.remove k).TracksAt k (none : Option V) held := by
  unfold Debt.remove
  split_ifs with hk
  · have hheld := h.delivered.mp hk
    constructor <;> simp [hk,hheld]
  · have hheld : held = none := not_not.mp fun hne => hk (h.delivered.mpr hne)
    have hremoved : k ∉ d.removed := fun hr => (h.removed.mp hr).1 hheld
    constructor <;> simp [hk,hheld,hremoved]

theorem tellRemoved (h : d.TracksAt k value held) (hk : k ∈ d.removed) :
    (d.tellRemoved k).TracksAt k value (none : Option V) := by
  obtain ⟨hheld,rfl⟩ := h.removed.mp hk
  have hunsent : k ∉ d.unsent := fun hu => (h.unsent.mp hu).1 rfl
  have hchanged : k ∉ d.changed := fun hc => (h.changed hc).1 rfl
  constructor <;> simp [Debt.tellRemoved,hunsent,hchanged]

theorem sendNew (h : d.TracksAt k value held) (hk : k ∈ d.unsent) : (d.sendNew k).TracksAt k value value := by
  obtain ⟨hvalue,rfl⟩ := h.unsent.mp hk
  have hremoved : k ∉ d.removed := fun hr => (h.removed.mp hr).1 rfl
  have hchanged : k ∉ d.changed := fun hc => (h.changed hc).2 rfl
  constructor <;> simp [Debt.sendNew,hvalue,hremoved,hchanged]

theorem refresh (h : d.TracksAt k value held) (hk : k ∈ d.changed) : (d.refresh k).TracksAt k value value := by
  obtain ⟨hvalue,hheld⟩ := h.changed hk
  have hdelivered : k ∈ d.delivered := h.delivered.mpr hheld
  have hunsent : k ∉ d.unsent := fun hu => hheld (h.unsent.mp hu).2
  have hremoved : k ∉ d.removed := fun hr => hvalue (h.removed.mp hr).2
  constructor <;> simp [Debt.refresh,hvalue,hdelivered,hunsent,hremoved]

end TracksAt

namespace Tracks

variable {values helds : κ → Option V}

/-- What is owed of keys the source retains: each of them at most once, and none that is gone. -/
theorem card_fresh (h : d.Tracks values helds) (keys : Finset κ) (hkeys : ∀ k, values k ≠ none → k ∈ keys) :
    d.unsent.card + d.changed.card ≤ keys.card := by
  have hdisjoint : Disjoint d.unsent d.changed := by
    rw [Finset.disjoint_left]
    exact fun k hu hc => ((h k).changed hc).2 ((h k).unsent.mp hu).2
  rw [← Finset.card_union_of_disjoint hdisjoint]
  refine Finset.card_le_card fun k hk => ?_
  rcases Finset.mem_union.mp hk with hu | hc
  · exact hkeys k ((h k).unsent.mp hu).1
  · exact hkeys k ((h k).changed hc).1

end Tracks

namespace InOrder

variable {puts given : κ → List V}

theorem put (h : d.InOrder puts given) (k : κ) (v : V) :
    (d.put k).InOrder (Function.update puts k (puts k ++ [v])) given := by
  intro j
  by_cases hj : j = k
  · subst hj
    rw [Function.update_self,List.dropLast_concat]
    exact ⟨(h j).1.trans (List.sublist_append_left _ _),fun _ => (h j).1⟩
  · rw [Function.update_of_ne hj]
    have ha := agree_put (d := d) hj
    exact ⟨(h j).1,fun ho => (h j).2 (ho.imp ha.unsent.mp ha.changed.mp)⟩

theorem again (h : d.InOrder puts given) (k : κ) (v : V) :
    d.InOrder (Function.update puts k (puts k ++ [v])) given := by
  intro j
  by_cases hj : j = k
  · subst hj
    rw [Function.update_self,List.dropLast_concat]
    exact ⟨(h j).1.trans (List.sublist_append_left _ _),fun _ => (h j).1⟩
  · rw [Function.update_of_ne hj]
    exact h j

theorem give (h : d.InOrder puts given) {k : κ} (hk : k ∈ d.unsent ∨ k ∈ d.changed) {v : V}
    (hlast : (puts k).getLast? = some v) (hpaid : k ∉ d'.unsent ∧ k ∉ d'.changed)
    (hagree : ∀ j, j ≠ k → d.Agree d' j) : d'.InOrder puts (Function.update given k (given k ++ [v])) := by
  intro j
  by_cases hj : j = k
  · subst hj
    rw [Function.update_self]
    have hputs : puts j = (puts j).dropLast ++ [v] := (List.dropLast_append_getLast? v hlast).symm
    refine ⟨?_,fun ho => absurd ho (not_or.mpr hpaid)⟩
    rw [hputs]
    exact ((h j).2 hk).append (List.Sublist.refl _)
  · rw [Function.update_of_ne hj]
    have ha := hagree j hj
    exact ⟨(h j).1,fun ho => (h j).2 (ho.imp ha.unsent.mp ha.changed.mp)⟩

end InOrder
end Debt
end Vibesys.Library
