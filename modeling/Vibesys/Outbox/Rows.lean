import Vibesys.Orchestrator.State

/-!
# The outbox table

Effects wait in the outbox as rows, in the order of their ids. A new row gets the id one above the largest
in the table, so a row that is deleted may leave its id to a later one. `Claim` marks the oldest rows that
are ready, `Complete` deletes marked rows and `Release` takes their mark away.
-/
namespace Vibesys.Outbox

open Orchestrator

/-- A row: `claimed` is the column `state`. -/
structure Row (F : Type*) where
  id : ℕ
  effect : F
  claimed : Bool
  runAfter : ℤ
  deriving DecidableEq

structure Claimed (F : Type*) where
  id : ℕ
  effect : F
  deriving DecidableEq

/-- How a transaction ends: written and answered, with nothing written, or written with its reply lost. -/
inductive Outcome
  | ok
  | undone
  | lostReply
  deriving DecidableEq

def Outcome.written : Outcome → Bool
  | .ok => true
  | .undone => false
  | .lostReply => true

def Outcome.answered : Outcome → Bool
  | .ok => true
  | .undone => false
  | .lostReply => false

/-- When an effect becomes ready: a timer when it fires, any other at once. -/
def runAfter : Effect → ℤ
  | .armTimer timer => timer.fireAt
  | _ => 0

variable {F G : Type*} (due : F → ℤ)

def Row.entry (r : Row F) : Claimed F := ⟨r.id,r.effect⟩

def nextID (rows : List (Row F)) : ℕ := (rows.map Row.id).foldl max 0+1

def queue (rows : List (Row F)) (effect : F) : List (Row F) := rows ++ [⟨nextID rows,effect,false,due effect⟩]

def commit (rows : List (Row F)) (effects : List F) : List (Row F) := effects.foldl (queue due) rows

/-- `UPDATE outbox SET state = ? WHERE p`. -/
def setState (p : Row F → Bool) (claimed : Bool) (rows : List (Row F)) : List (Row F) :=
  rows.map fun r => if p r then { r with claimed := claimed } else r

def ready (now : ℤ) (r : Row F) : Bool := !r.claimed && decide (r.runAfter ≤ now)

/-- `LIMIT`, which a negative number lifts. -/
def limited {α : Type*} (limit : ℤ) (l : List α) : List α := if limit < 0 then l else l.take limit.toNat

/-- The query of `Claim`: the oldest ready effects first. -/
def queryClaim (now limit : ℤ) (rows : List (Row F)) : List (Claimed F) :=
  (limited limit (rows.filter (ready now))).map Row.entry

def claim (now limit : ℤ) (rows : List (Row F)) : List (Claimed F) × List (Row F) :=
  let out := queryClaim now limit rows
  (out,out.foldl (fun rows c => setState (fun r => r.id == c.id) true rows) rows)

def complete (ids : List ℕ) (rows : List (Row F)) : List (Row F) :=
  ids.foldl (fun rows id => rows.filter fun r => !(r.claimed && r.id == id)) rows

def release (ids : List ℕ) (rows : List (Row F)) : List (Row F) :=
  ids.foldl (fun rows id => setState (fun r => r.claimed && r.id == id) false rows) rows

/-- `Reclaim`, and what opening the file does. -/
def reclaim (rows : List (Row F)) : List (Row F) := setState Row.claimed false rows

section Rows

variable {rows : List (Row F)} {r : Row F}

theorem mem_setState {p : Row F → Bool} {b : Bool} :
    r ∈ setState p b rows ↔ ∃ old ∈ rows, r = if p old then { old with claimed := b } else old := by
  simp only [setState,List.mem_map,eq_comm]

@[simp] theorem map_entry_setState (p : Row F → Bool) (b : Bool) (rows : List (Row F)) :
    (setState p b rows).map Row.entry = rows.map Row.entry := by
  rw [setState,List.map_map]
  refine List.map_congr_left fun r _ => ?_
  rw [Function.comp_apply]
  split <;> rfl

theorem lt_nextID (h : r ∈ rows) : r.id < nextID rows := by
  have hfold : ∀ (l : List ℕ) (n : ℕ), n ≤ l.foldl max n ∧ ∀ m ∈ l, m ≤ l.foldl max n := by
    intro l
    induction l with
    | nil => simp
    | cons a l ih =>
      intro n
      obtain ⟨hn,hl⟩ := ih (max n a)
      refine ⟨(Nat.le_max_left n a).trans hn,?_⟩
      intro m hm
      rcases List.mem_cons.mp hm with rfl | hm
      · exact (Nat.le_max_right n m).trans hn
      · exact hl m hm
  exact Nat.lt_succ_of_le ((hfold (rows.map Row.id) 0).2 r.id (List.mem_map_of_mem h))

theorem complete_eq (ids : List ℕ) (rows : List (Row F)) :
    complete ids rows = rows.filter fun r => !(r.claimed && ids.contains r.id) := by
  induction ids generalizing rows with
  | nil => simp [complete]
  | cons id ids ih =>
    rw [complete,List.foldl_cons]
    refine (ih _).trans ?_
    rw [List.filter_filter]
    refine List.filter_congr fun r _ => ?_
    rw [List.contains_cons]
    cases r.claimed <;> cases r.id == id <;> simp

theorem mem_complete {ids : List ℕ} : r ∈ complete ids rows ↔ r ∈ rows ∧ ¬(r.claimed = true ∧ r.id ∈ ids) := by
  rw [complete_eq,List.mem_filter]
  refine and_congr_right fun _ => ?_
  simp only [Bool.not_eq_true',Bool.and_eq_false_iff,List.contains_eq_mem,decide_eq_false_iff_not,not_and_or,
    Bool.not_eq_true]

theorem setState_setState (p q : Row F → Bool) (b : Bool) (rows : List (Row F)) :
    setState q b (setState p b rows) = setState (fun r => p r || q r) b rows := by
  rw [setState,setState,setState,List.map_map]
  refine List.map_congr_left fun r _ => ?_
  rw [Function.comp_apply]
  by_cases hp : p r = true
  · simp only [hp,if_true,Bool.true_or,ite_self]
  · simp only [Bool.eq_false_iff.mpr hp,Bool.false_or,Bool.false_eq_true,if_false]

theorem setState_none (b : Bool) (rows : List (Row F)) : setState (fun _ => false) b rows = rows := by
  simp [setState]

theorem release_eq (ids : List ℕ) (rows : List (Row F)) :
    release ids rows = setState (fun r => r.claimed && ids.contains r.id) false rows := by
  induction ids generalizing rows with
  | nil => simp [release,setState_none]
  | cons id ids ih =>
    rw [release,List.foldl_cons]
    refine (ih _).trans ?_
    rw [setState_setState]
    simp only [List.contains_cons,Bool.and_or_distrib_left]

theorem claim_rows (now limit : ℤ) (rows : List (Row F)) :
    (claim now limit rows).2 =
      setState (fun r => ((queryClaim now limit rows).map Claimed.id).contains r.id) true rows := by
  have hfold : ∀ (out : List (Claimed F)) (rows : List (Row F)),
      out.foldl (fun rows c => setState (fun r => r.id == c.id) true rows) rows =
        setState (fun r => (out.map Claimed.id).contains r.id) true rows := by
    intro out
    induction out with
    | nil => simp [setState_none]
    | cons c out ih =>
      intro rows
      rw [List.foldl_cons,ih,setState_setState]
      simp only [List.map_cons,List.contains_cons]
  exact hfold _ rows

theorem map_entry_claim (now limit : ℤ) (rows : List (Row F)) :
    (claim now limit rows).2.map Row.entry = rows.map Row.entry := by
  rw [claim_rows,map_entry_setState]

theorem limited_sublist {α : Type*} (limit : ℤ) (l : List α) : (limited limit l).Sublist l := by
  rw [limited]
  split
  · exact List.Sublist.refl l
  · exact List.take_sublist _ l

theorem queryClaim_sublist (now limit : ℤ) (rows : List (Row F)) :
    (queryClaim now limit rows).Sublist (rows.map Row.entry) :=
  ((limited_sublist limit _).trans List.filter_sublist).map Row.entry

theorem mem_queryClaim {now limit : ℤ} {c : Claimed F} (h : c ∈ queryClaim now limit rows) :
    ∃ r ∈ rows, r.entry = c ∧ r.claimed = false ∧ r.runAfter ≤ now := by
  obtain ⟨r,hr,rfl⟩ := List.mem_map.mp h
  obtain ⟨hrows,hready⟩ := List.mem_filter.mp ((limited_sublist limit _).subset hr)
  simp only [ready,Bool.and_eq_true,Bool.not_eq_true',decide_eq_true_eq] at hready
  exact ⟨r,hrows,rfl,hready.1,hready.2⟩

theorem queryClaim_full {R : Row F → Row F → Prop} (hrows : rows.Pairwise R) {now limit : ℤ} (hr : r ∈ rows)
    (hready : ready now r = true) (hout : r.entry ∉ queryClaim now limit rows) :
    (queryClaim now limit rows).length = limit.toNat ∧ 0 ≤ limit ∧
      ∀ c ∈ queryClaim now limit rows, ∃ r' ∈ rows, r'.entry = c ∧ R r' r := by
  set l := rows.filter (ready now) with hl
  have hmem : r ∈ l := List.mem_filter.mpr ⟨hr,hready⟩
  have hnonneg : ¬limit < 0 := by
    intro hneg
    refine hout (List.mem_map_of_mem ?_)
    rw [limited,if_pos hneg]
    exact hmem
  have htake : limited limit l = l.take limit.toNat := if_neg hnonneg
  have hdrop : r ∈ l.drop limit.toNat := by
    rw [← List.take_append_drop limit.toNat l] at hmem
    refine (List.mem_append.mp hmem).resolve_left fun h => hout (List.mem_map_of_mem ?_)
    rw [← hl,htake]
    exact h
  have hsplit := hrows.filter (ready now)
  rw [← hl,← List.take_append_drop limit.toNat l,List.pairwise_append] at hsplit
  refine ⟨?_,not_lt.mp hnonneg,?_⟩
  · have hlen : limit.toNat < l.length := by
      by_contra hge
      rw [List.drop_eq_nil_of_le (Nat.le_of_not_lt hge)] at hdrop
      cases hdrop
    rw [queryClaim,List.length_map,← hl,htake,List.length_take,Nat.min_eq_left hlen.le]
  · intro c hc
    rw [queryClaim,← hl,htake] at hc
    obtain ⟨r',hr',rfl⟩ := List.mem_map.mp hc
    exact ⟨r',List.mem_of_mem_filter (List.mem_of_mem_take hr'),rfl,hsplit.2.2 r' hr' r hdrop⟩

end Rows

end Vibesys.Outbox
