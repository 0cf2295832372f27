import Vibesys.Foldcache.SameFold

/-!
# How far the cache is behind

The calls of `keep` that one process makes, each with the records the log then shows, how many core records the process
has appended, whether the run rests and whether a store would fail.
-/
namespace Vibesys.Foldcache

open Library

variable {R S φ : Type} {c : Schema R S φ}

structure Call where
  shown : ℕ
  appended : ℕ
  resting : Bool
  fails : Bool

/-- The keeper of a process, the core records appended at the last call and at the last store that succeeded, and
whether the last call tried a store that failed. -/
structure Process (S : Type) where
  keeper : FoldKeeper S
  appended : ℕ := 0
  stored : ℕ := 0
  failed : Bool := false

namespace Schema

def call (c : Schema R S φ) (log : List R) (p : Process S) (x : Call) : Process S :=
  let (keeper,cached) := c.keep p.keeper (log.take x.shown) x.appended x.resting
  { keeper := keeper
    appended := x.appended
    stored := if cached.isSome && !x.fails then x.appended else p.stored
    failed := cached.isSome && x.fails }

end Schema

/-- A call at which the keeper writes: there is a new record, and the run rests or enough of them came. -/
def FoldKeeper.Writes (k : FoldKeeper S) (x : Call) : Prop :=
  x.appended ≠ k.written_at ∧ (x.resting = true ∨ k.keeping.every ≤ (x.appended : ℤ)-k.written_at)

instance (k : FoldKeeper S) (x : Call) : Decidable (k.Writes x) := inferInstanceAs (Decidable (_ ∧ _))

/-- After a store that failed, and until one succeeds, a call is one at which the keeper writes. -/
def Process.TriesAgain (p : Process S) (x : Call) : Prop := p.stored ≠ p.keeper.written_at → p.keeper.Writes x

/-- Fewer core records than the keeper's bound came since the last store that succeeded, or a store was just tried and
failed. -/
def Process.CloseBehind (p : Process S) : Prop :=
  (p.appended : ℤ)-p.stored < p.keeper.keeping.every ∨ p.failed = true

namespace Schema

theorem keep_of_not_writes {k : FoldKeeper S} {x : Call} (h : ¬ k.Writes x) (records : List R) :
    c.keep k records x.appended x.resting = (k,none) := by
  unfold keep
  rw [if_pos]
  by_contra hno
  obtain ⟨hne,hdue⟩ := not_or.mp hno
  exact h ⟨hne,not_not.mp hdue⟩

theorem keep_of_writes {log : List R} {k : FoldKeeper S} {x : Call} (hk : c.Keeps log k) (h : k.Writes x) {seed : ℕ}
    (hseed : ∀ n, seed ≤ n → (c.fold_log k.keeping.rules (log.take n) none).isSome = true) (hshown : seed ≤ x.shown) :
    (c.keep k (log.take x.shown) x.appended x.resting).1.written_at = x.appended ∧
      (c.keep k (log.take x.shown) x.appended x.resting).2.isSome = true := by
  have hfold : (c.fold_log k.keeping.rules ((log.take x.shown).drop k.digest.count) k.kept).isSome = true := by
    rw [hk.kept,← fold_log_append,take_append_drop_take,List.length_drop,List.length_take]
    rcases le_total log.length seed with hlen | hlen
    · have hall : log.length ≤ k.digest.count+(min x.shown log.length-k.digest.count) := by omega
      rw [List.take_of_length_le hall,← List.take_of_length_le hlen]
      exact hseed seed le_rfl
    · exact hseed _ (by omega)
  unfold keep
  rw [if_neg (not_or.mpr ⟨h.1,not_not.mpr h.2⟩)]
  exact ⟨rfl,by rw [Option.isSome_map]; exact hfold⟩

theorem closeBehind_call {log : List R} {p : Process S} {x : Call} (hk : c.Keeps log p.keeper)
    (hevery : 1 ≤ p.keeper.keeping.every) {seed : ℕ}
    (hseed : ∀ n, seed ≤ n → (c.fold_log p.keeper.keeping.rules (log.take n) none).isSome = true)
    (hshown : seed ≤ x.shown) (htries : p.TriesAgain x) : (c.call log p x).CloseBehind := by
  have hkeeping : (c.call log p x).keeper.keeping = p.keeper.keeping := (hk.keep x.shown x.appended x.resting).2.1
  unfold Process.CloseBehind
  rw [hkeeping]
  by_cases hw : p.keeper.Writes x
  · have hsome := (keep_of_writes hk hw hseed hshown).2
    cases hf : x.fails with
    | true => exact Or.inr (by simp [call,hsome,hf])
    | false =>
      refine Or.inl ?_
      have hstored : (c.call log p x).stored = x.appended := by simp [call,hsome,hf]
      have happended : (c.call log p x).appended = x.appended := rfl
      rw [hstored,happended]
      omega
  · -- no store is tried, so the last one succeeded and few records came since
    have hstored : p.stored = p.keeper.written_at := by
      by_contra hne
      exact hw (htries hne)
    have hsame : (c.call log p x).stored = p.keeper.written_at := by
      simp [call,keep_of_not_writes hw,hstored]
    have happended : (c.call log p x).appended = x.appended := rfl
    refine Or.inl ?_
    rw [hsame,happended]
    by_cases hnew : x.appended = p.keeper.written_at
    · rw [hnew]
      omega
    · have hfew : ¬ p.keeper.keeping.every ≤ (x.appended : ℤ)-p.keeper.written_at := fun h => hw ⟨hnew,Or.inr h⟩
      omega

end Schema

/-- In a process whose keeper covers the first records of a log that holds a seed, and in which every call after a store
that failed is one that tries again, the cache is close behind after each call, whichever stores fail, and a store is
tried until one succeeds. -/
theorem the_cache_is_close_behind (c : Schema R S φ) (log : List R) (k : FoldKeeper S) (hk : c.Keeps log k)
    (hevery : 1 ≤ k.keeping.every) (seed : ℕ)
    (hseed : ∀ n, seed ≤ n → (c.fold_log k.keeping.rules (log.take n) none).isSome = true) (calls : List Call)
    (hshown : ∀ x ∈ calls, seed ≤ x.shown) (htries : Along (c.call log) Process.TriesAgain { keeper := k } calls) :
    Along (c.call log) (fun p x => (c.call log p x).CloseBehind ∧ (p.stored ≠ p.keeper.written_at →
      (c.keep p.keeper (log.take x.shown) x.appended x.resting).2.isSome = true)) { keeper := k } calls := by
  refine Along.ensures (I := fun p => c.Keeps log p.keeper ∧ p.keeper.keeping = k.keeping) ?_ ⟨hk,rfl⟩
    ((along_of_mem hshown _).and htries)
  rintro p x ⟨hp,hsame⟩ ⟨hx,htries⟩
  obtain ⟨hkeeps,hkeeping,-⟩ := hp.keep x.shown x.appended x.resting
  have hseed' : ∀ n, seed ≤ n → (c.fold_log p.keeper.keeping.rules (log.take n) none).isSome = true := by
    rw [hsame]
    exact hseed
  refine ⟨⟨hkeeps,hkeeping.trans hsame⟩,Schema.closeBehind_call hp ?_ hseed' hx htries,fun hfailed => ?_⟩
  · rw [hsame]
    exact hevery
  · exact (Schema.keep_of_writes hp (htries hfailed) hseed' hx).2

namespace Sample

def log : List Entry := [⟨1,[]⟩,⟨2,[]⟩,⟨3,[]⟩,⟨4,[]⟩,⟨5,[]⟩,⟨6,[]⟩]

/-- The keeper of a process that starts on the first record and writes every three. -/
def keeper : FoldKeeper Bytes := (schema.start_fold (.error .absent) (log.take 1) 3 "now").2

theorem keeps_keeper : schema.Keeps log keeper := ⟨by decide,by decide,by decide⟩

theorem fold_isSome (n : ℕ) (hn : 1 ≤ n) : (schema.fold_log "now" (log.take n) none).isSome = true := by
  obtain ⟨m,rfl⟩ := Nat.exists_eq_add_of_le' hn
  have hsome : ∀ (rs : List Entry) (s : Bytes), (schema.fold_log "now" rs (some s)).isSome = true := by
    intro rs
    induction rs with
    | nil => exact fun _ => rfl
    | cons r rs ih => exact fun s => ih _
  exact hsome _ _

theorem the_cache_is_close_behind_after_failure :
    Along (schema.call log) (fun p x => (schema.call log p x).CloseBehind) { keeper := keeper }
      [⟨2,1,false,false⟩,⟨4,3,false,true⟩,⟨5,4,true,false⟩,⟨6,5,false,false⟩] := by
  refine (the_cache_is_close_behind schema log keeper keeps_keeper (by decide) 1 fold_isSome _ (by decide) ?_).imp
    fun _ _ => And.left
  unfold Process.TriesAgain
  decide +kernel

/-- A store fails at the third record. The fourth record does not try again, since the keeper counts from the third,
and four records are behind where three is the bound. -/
theorem failed_store_is_not_tried_again :
    let p := run (schema.call log) { keeper := keeper } [⟨4,3,false,true⟩,⟨5,4,false,false⟩]
    p.appended = 4 ∧ p.stored = 0 ∧ p.failed = false ∧ p.keeper.keeping.every = 3 ∧ ¬ p.CloseBehind := by
  unfold Process.CloseBehind
  decide +kernel

end Sample

end Vibesys.Foldcache
