import Vibesys.Library.Run
import Vibesys.Outbox.Rows

/-!
# Calls on the outbox

The store is called with commits, claims, completions, releases and reopenings, and any of their transactions
may fail with or without having been written. Each effect gets a ticket when it is committed, which no call
reads: ids are used again and tickets are not. What claims gave out is kept, since completions and releases
name it.
-/
namespace Vibesys.Outbox

open Library

variable {F : Type*}

structure Queued (F : Type*) where
  ticket : ℕ
  effect : F
  deriving DecidableEq

structure World (F : Type*) where
  rows : List (Row (Queued F)) := []
  closed : Bool := false
  next : ℕ := 0
  /-- What claims gave out, in order. -/
  granted : List (Claimed (Queued F)) := []
  /-- What claims marked in the file, also those whose reply was lost. -/
  marks : List (Claimed (Queued F)) := []

/-- A completion or release names claims by their place in `granted`. -/
inductive Call (F : Type*)
  | commit (effects : List F) (o : Outcome)
  | claim (now limit : ℤ) (o : Outcome)
  | complete (named : List ℕ) (o : Outcome)
  | release (named : List ℕ) (o : Outcome)
  | reclaim (o : Outcome)
  | reopen (o : Outcome)

namespace World

def picked (w : World F) (named : List ℕ) : List (Claimed (Queued F)) := named.filterMap fun i => w.granted[i]?

theorem picked_subset (w : World F) (named : List ℕ) : ∀ g ∈ w.picked named, g ∈ w.granted := by
  intro g hg
  obtain ⟨i,-,hi⟩ := List.mem_filterMap.mp hg
  exact List.mem_of_getElem? hi

variable (due : F → ℤ)

def push (w : World F) (effect : F) : World F :=
  { w with rows := queue (due ∘ Queued.effect) w.rows ⟨w.next,effect⟩, next := w.next+1 }

/-- A transaction of the writer: it is refused once the store is closed. -/
def write (w : World F) (o : Outcome) (after : World F) : World F := if w.closed || !o.written then w else after

def step (w : World F) : Call F → World F
  | .commit effects o => w.write o (effects.foldl (push due) w)
  | .claim now limit o =>
    let c := claim now limit w.rows
    w.write o { w with
      rows := c.2
      marks := w.marks ++ c.1
      granted := if o.answered then w.granted ++ c.1 else w.granted }
  | .complete named o => w.write o { w with rows := complete ((w.picked named).map Claimed.id) w.rows }
  | .release named o => w.write o { w with rows := release ((w.picked named).map Claimed.id) w.rows }
  | .reclaim o => w.write o { w with rows := reclaim w.rows }
  | .reopen o => { w with rows := if o.written then reclaim w.rows else w.rows, closed := !o.answered }

end World

/-- The order of the outbox: by ids and by tickets alike. -/
def Before (a b : Claimed (Queued F)) : Prop := a.id < b.id ∧ a.effect.ticket < b.effect.ticket

def Comparable (a b : Claimed (Queued F)) : Prop := a = b ∨ Before a b ∨ Before b a

instance : Std.Symm (@Comparable F) where
  symm a b hab := by
    rcases hab with rfl | hab | hab
    · exact Or.inl rfl
    · exact Or.inr (Or.inr hab)
    · exact Or.inr (Or.inl hab)

/-- What every call keeps. `place`: against what was ever marked, a row is the same, or older with a smaller
id, or newer. -/
structure Inv (due : F → ℤ) (w : World F) : Prop where
  sorted : (w.rows.map Row.entry).Pairwise Before
  below : ∀ c ∈ w.rows.map Row.entry, c.effect.ticket < w.next
  timed : ∀ r ∈ w.rows, r.runAfter = due r.effect.effect
  marked : ∀ r ∈ w.rows, r.claimed = true → r.entry ∈ w.marks
  given : ∀ g ∈ w.granted, g ∈ w.marks
  drawn : ∀ m ∈ w.marks, m.effect.ticket < w.next
  place : ∀ m ∈ w.marks, ∀ c ∈ w.rows.map Row.entry, c = m ∨ Before c m ∨ m.effect.ticket < c.effect.ticket

namespace Inv

variable {due : F → ℤ} {w : World F}

theorem start : Inv due ({} : World F) where
  sorted := List.Pairwise.nil
  below := by simp
  timed := by simp
  marked := by simp
  given := by simp
  drawn := by simp
  place := by simp

theorem compare (h : Inv due w) {a b : Claimed (Queued F)} (ha : a ∈ w.rows.map Row.entry)
    (hb : b ∈ w.rows.map Row.entry) : Comparable a b := by
  have hpairs : (w.rows.map Row.entry).Pairwise Comparable := h.sorted.imp fun hab => Or.inr (Or.inl hab)
  have hself : ∀ c ∈ w.rows.map Row.entry, Comparable c c := fun c _ => Or.inl rfl
  exact hpairs.forall_of_forall hself ha hb

theorem eq_of_id (h : Inv due w) {a b : Claimed (Queued F)} (ha : a ∈ w.rows.map Row.entry)
    (hb : b ∈ w.rows.map Row.entry) (hid : a.id = b.id) : a = b := by
  rcases h.compare ha hb with heq | hlt | hlt
  · exact heq
  · exact absurd hid hlt.1.ne
  · exact absurd hid.symm hlt.1.ne

theorem own (h : Inv due w) {g : Claimed (Queued F)} (hg : g ∈ w.granted)
    (hcurrent : ∀ m ∈ w.marks, m.id = g.id → m.effect.ticket ≤ g.effect.ticket) {r : Row (Queued F)}
    (hr : r ∈ w.rows) (hclaimed : r.claimed = true) (hid : r.id = g.id) : r.entry = g := by
  have hle := hcurrent r.entry (h.marked r hr hclaimed) hid
  rcases h.place g (h.given g hg) r.entry (List.mem_map_of_mem hr) with heq | hlt | hlt
  · exact heq
  · exact absurd hid hlt.1.ne
  · exact absurd hle (not_le.mpr hlt)

theorem shrink (h : Inv due w) {rows : List (Row (Queued F))}
    (hentries : (rows.map Row.entry).Sublist (w.rows.map Row.entry))
    (hrows : ∀ r ∈ rows, ∃ old ∈ w.rows, r.entry = old.entry ∧ r.runAfter = old.runAfter ∧
      (r.claimed = true → old.claimed = true)) (closed : Bool) :
    Inv due { w with rows := rows, closed := closed } where
  sorted := h.sorted.sublist hentries
  below c hc := h.below c (hentries.subset hc)
  timed r hr := by
    obtain ⟨old,hold,hentry,hafter,-⟩ := hrows r hr
    have heff : r.effect = old.effect := congrArg Claimed.effect hentry
    rw [hafter,h.timed old hold,heff]
  marked r hr hclaimed := by
    obtain ⟨old,hold,hentry,-,hmark⟩ := hrows r hr
    rw [hentry]
    exact h.marked old hold (hmark hclaimed)
  given := h.given
  drawn := h.drawn
  place m hm c hc := h.place m hm c (hentries.subset hc)

theorem push (h : Inv due w) (effect : F) : Inv due (w.push due effect) := by
  have hentries : (w.push due effect).rows.map Row.entry =
      w.rows.map Row.entry ++ [⟨nextID w.rows,⟨w.next,effect⟩⟩] := by
    simp [World.push,queue,Row.entry]
  refine ⟨?_,?_,?_,?_,h.given,fun m hm => Nat.lt_succ_of_lt (h.drawn m hm),?_⟩
  · rw [hentries,List.pairwise_append]
    refine ⟨h.sorted,List.pairwise_singleton _ _,?_⟩
    intro c hc c' hc'
    obtain rfl := List.mem_singleton.mp hc'
    obtain ⟨r,hr,rfl⟩ := List.mem_map.mp hc
    exact ⟨lt_nextID hr,h.below _ (List.mem_map_of_mem hr)⟩
  · intro c hc
    rw [hentries] at hc
    rcases List.mem_append.mp hc with hc | hc
    · exact Nat.lt_succ_of_lt (h.below c hc)
    · rw [List.mem_singleton.mp hc]
      exact Nat.lt_succ_self _
  · intro r hr
    rcases List.mem_append.mp hr with hr | hr
    · exact h.timed r hr
    · rw [List.mem_singleton.mp hr]
      rfl
  · intro r hr hclaimed
    rcases List.mem_append.mp hr with hr | hr
    · exact h.marked r hr hclaimed
    · rw [List.mem_singleton.mp hr] at hclaimed
      cases hclaimed
  · intro m hm c hc
    rw [hentries] at hc
    rcases List.mem_append.mp hc with hc | hc
    · exact h.place m hm c hc
    · rw [List.mem_singleton.mp hc]
      exact Or.inr (Or.inr (h.drawn m hm))

theorem pushes (h : Inv due w) (effects : List F) : Inv due (effects.foldl (World.push due) w) := by
  induction effects generalizing w with
  | nil => exact h
  | cons effect effects ih => exact ih (h.push effect)

theorem claim (h : Inv due w) (now limit : ℤ) {granted : List (Claimed (Queued F))}
    (hgranted : ∀ g ∈ granted, g ∈ w.granted ∨ g ∈ queryClaim now limit w.rows) :
    Inv due { w with
      rows := (Outbox.claim now limit w.rows).2
      marks := w.marks ++ queryClaim now limit w.rows
      granted := granted } := by
  have hout := (queryClaim_sublist now limit w.rows).subset
  have hentries := map_entry_claim now limit w.rows
  refine ⟨?_,?_,?_,?_,?_,?_,?_⟩
  · rw [hentries]
    exact h.sorted
  · rw [hentries]
    exact h.below
  · intro r hr
    rw [claim_rows] at hr
    obtain ⟨old,hold,rfl⟩ := mem_setState.mp hr
    split <;> exact h.timed old hold
  · intro r hr hclaimed
    rw [claim_rows] at hr
    obtain ⟨old,hold,rfl⟩ := mem_setState.mp hr
    split at hclaimed
    · next htaken =>
      rw [if_pos htaken]
      rw [List.contains_iff_mem] at htaken
      obtain ⟨c,hc,hid⟩ := List.mem_map.mp htaken
      have heq : old.entry = c := h.eq_of_id (List.mem_map_of_mem hold) (hout hc) hid.symm
      refine List.mem_append_right _ ?_
      rw [← heq] at hc
      exact hc
    · next htaken =>
      rw [if_neg htaken]
      exact List.mem_append_left _ (h.marked old hold hclaimed)
  · intro g hg
    rcases hgranted g hg with hg | hg
    · exact List.mem_append_left _ (h.given g hg)
    · exact List.mem_append_right _ hg
  · intro m hm
    rcases List.mem_append.mp hm with hm | hm
    · exact h.drawn m hm
    · exact h.below m (hout hm)
  · intro m hm c hc
    rw [hentries] at hc
    rcases List.mem_append.mp hm with hm | hm
    · exact h.place m hm c hc
    · rcases h.compare hc (hout hm) with heq | hlt | hlt
      · exact Or.inl heq
      · exact Or.inr (Or.inl hlt)
      · exact Or.inr (Or.inr hlt.2)

theorem unmark (h : Inv due w) (p : Row (Queued F) → Bool) (closed : Bool) :
    Inv due { w with rows := setState p false w.rows, closed := closed } := by
  refine h.shrink (by rw [map_entry_setState]) ?_ closed
  intro r hr
  obtain ⟨old,hold,rfl⟩ := mem_setState.mp hr
  refine ⟨old,hold,?_⟩
  split
  · exact ⟨rfl,rfl,fun hclaimed => by cases hclaimed⟩
  · exact ⟨rfl,rfl,id⟩

theorem write (h : Inv due w) {o : Outcome} {after : World F} (hafter : Inv due after) : Inv due (w.write o after) := by
  rw [World.write]
  split
  · exact h
  · exact hafter

theorem step (h : Inv due w) (c : Call F) : Inv due (w.step due c) := by
  cases c with
  | commit effects o => exact h.write (h.pushes effects)
  | claim now limit o =>
    refine h.write (h.claim now limit ?_)
    intro g hg
    split at hg
    · exact List.mem_append.mp hg
    · exact Or.inl hg
  | complete named o =>
    refine h.write (h.shrink ?_ ?_ w.closed)
    · rw [complete_eq]
      exact List.filter_sublist.map _
    · exact fun r hr => ⟨r,(mem_complete.mp hr).1,rfl,rfl,id⟩
  | release named o =>
    refine h.write ?_
    rw [release_eq]
    exact h.unmark _ w.closed
  | reclaim o => exact h.write (h.unmark _ w.closed)
  | reopen o =>
    rw [World.step]
    split
    · exact h.unmark _ _
    · exact h.shrink (List.Sublist.refl _) (fun r hr => ⟨r,hr,rfl,rfl,id⟩) _

end Inv
end Vibesys.Outbox
