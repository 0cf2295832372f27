import Mathlib.Algebra.Order.Field.Rat
import Vibesys.Schedule.Safety

/-!
# The fair-share policy

Each run has its own queue, in arrival order, and the next job is the head of the queue of the run
that used the resources the job claims least of late, divided by the run's weight. Ties go to the job
that arrived first. Scores are rationals here and floats in the source.
-/
namespace Vibesys.Schedule.FairShare
open Vibesys.Core Vibesys.Library

def weight (weights : RunID → ℚ) (run : RunID) : ℚ := if 0 < weights run then weights run else 1

/-- A job's use is its run's use of what it would claim where the run has used least. -/
def cheapest (use : Usage) (c : Candidate) : List Claim × ℤ :=
  let best := c.options.foldl (fun best o =>
    let total := wrap (o.claims.map fun claim => use c.run claim.resource).sum
    if best.2 < 0 ∨ total < best.2 then (o.claims,total) else best) ([],-1)
  (best.1,max best.2 0)

def score (weights : RunID → ℚ) (use : Usage) (c : Candidate) : ℚ := (cheapest use c).2/weight weights c.run

def arrivedBefore (a b : Candidate) : Bool :=
  a.submitted < b.submitted || (a.submitted == b.submitted && a.seq < b.seq)

/-- The head `c` goes before `b`. -/
def Before (value : Candidate → ℚ) (c b : Candidate) : Prop :=
  value c < value b ∨ (value c = value b ∧ arrivedBefore c b = true)

instance (value : Candidate → ℚ) (c b : Candidate) : Decidable (Before value c b) :=
  inferInstanceAs (Decidable (_ ∨ _))

def runsOf (waiting : List Candidate) : List RunID :=
  waiting.foldl (fun runs c => if c.run ∈ runs then runs else runs ++ [c.run]) []

def queuesOf (waiting : List Candidate) (run : RunID) : List Candidate := waiting.filter fun c => c.run = run

def best (value : Candidate → ℚ) (queues : RunID → List Candidate) (sofar : Option Candidate) (run : RunID) :
    Option Candidate :=
  match queues run,sofar with
  | [],_ => sofar
  | c :: _,none => some c
  | c :: _,some b => if Before value c b then some c else some b

/-- Orders the next `n` jobs, counting each one put ahead as used by its run. -/
def takeTurns (weights : RunID → ℚ) (usage : Usage) (runs : List RunID) :
    ℕ → (RunID → List Candidate) → Usage → List Candidate
  | 0,_,_ => []
  | n+1,queues,used =>
    let use : Usage := fun run r => wrap (usage run r+used run r)
    match runs.foldl (best (score weights use) queues) none with
    | none => []
    | some head =>
      head :: takeTurns weights usage runs n (Function.update queues head.run (queues head.run).tail)
        (addUse used head.run (cheapest use head).1)

def Order (weights : RunID → ℚ) : Policy := fun waiting usage =>
  takeTurns weights usage (runsOf waiting) waiting.length (queuesOf waiting) fun _ _ => 0

def New : Policy := Order fun _ => 0

theorem Before.trans {value : Candidate → ℚ} {a b c : Candidate} (hab : Before value a b) (hbc : Before value b c) :
    Before value a c := by
  unfold Before arrivedBefore at *
  simp only [Bool.or_eq_true,decide_eq_true_eq,Bool.and_eq_true,beq_iff_eq] at *
  rcases hab with hab | ⟨hab,hab'⟩ <;> rcases hbc with hbc | ⟨hbc,hbc'⟩
  · exact .inl (hab.trans hbc)
  · exact .inl (hbc ▸ hab)
  · exact .inl (hab ▸ hbc)
  · exact .inr ⟨hab.trans hbc,by rcases hab' with h | h <;> rcases hbc' with h' | h' <;> grind⟩

theorem Before.irrefl (value : Candidate → ℚ) (c : Candidate) : ¬Before value c c := by
  simp [Before,arrivedBefore]

theorem foldl_best (value : Candidate → ℚ) (queues : RunID → List Candidate) (runs : List RunID) :
    ((runs.foldl (best value queues) none = none ∧ ∀ run ∈ runs, queues run = [])
      ∨ ∃ c, runs.foldl (best value queues) none = some c ∧ (∃ run ∈ runs, (queues run).head? = some c)
        ∧ ∀ run ∈ runs, ∀ d, (queues run).head? = some d → ¬Before value d c) := by
  induction runs using List.reverseRecOn with
  | nil => exact .inl ⟨rfl,by simp⟩
  | append_singleton runs run ih =>
    rw [List.foldl_append,List.foldl_cons,List.foldl_nil]
    cases hqueue : queues run with
    | nil =>
      have hsame : ∀ sofar, best value queues sofar run = sofar := fun sofar => by simp [best,hqueue]
      rw [hsame]
      rcases ih with ⟨hnone,hempty⟩ | ⟨c,hc,⟨run',hrun',hhead⟩,hleast⟩
      · refine .inl ⟨hnone,fun run' hrun' => ?_⟩
        rcases List.mem_append.mp hrun' with hrun' | hrun'
        · exact hempty run' hrun'
        · rw [List.mem_singleton.mp hrun',hqueue]
      · refine .inr ⟨c,hc,⟨run',List.mem_append_left _ hrun',hhead⟩,fun r hr d hd => ?_⟩
        rcases List.mem_append.mp hr with hr | hr
        · exact hleast r hr d hd
        · rw [List.mem_singleton.mp hr,hqueue] at hd
          cases hd
    | cons d rest =>
      right
      have hlast : ∀ r ∈ [run], ∀ d', (queues r).head? = some d' → d' = d := by
        intro r hr d' hd'
        rw [List.mem_singleton.mp hr,hqueue] at hd'
        exact (Option.some.inj hd').symm
      rcases ih with ⟨hnone,hempty⟩ | ⟨c,hc,⟨run',hrun',hhead⟩,hleast⟩
      · refine ⟨d,by simp [best,hqueue,hnone],⟨run,by simp,by simp [hqueue]⟩,fun r hr d' hd' => ?_⟩
        rcases List.mem_append.mp hr with hr | hr
        · simp [hempty r hr] at hd'
        · rw [hlast r hr d' hd']
          exact Before.irrefl value d
      · by_cases hbefore : Before value d c
        · refine ⟨d,by simp [best,hqueue,hc,hbefore],⟨run,by simp,by simp [hqueue]⟩,fun r hr d' hd' hd => ?_⟩
          rcases List.mem_append.mp hr with hr | hr
          · exact hleast r hr d' hd' (hd.trans hbefore)
          · rw [hlast r hr d' hd'] at hd
            exact Before.irrefl value d hd
        · refine ⟨c,by simp [best,hqueue,hc,hbefore],⟨run',by simp [hrun'],hhead⟩,fun r hr d' hd' => ?_⟩
          rcases List.mem_append.mp hr with hr | hr
          · exact hleast r hr d' hd'
          · rw [hlast r hr d' hd']
            exact hbefore

theorem mem_runsOf {waiting : List Candidate} {run : RunID} : run ∈ runsOf waiting ↔ ∃ c ∈ waiting, c.run = run := by
  unfold runsOf
  induction waiting using List.reverseRecOn with
  | nil => simp
  | append_singleton waiting c ih =>
    rw [List.foldl_append,List.foldl_cons,List.foldl_nil]
    split_ifs with hmem
    · rw [ih]
      grind
    · rw [List.mem_append,ih]
      grind

/-- The first job in the order is the head of its run's queue, and no other head goes before it. -/
theorem head_order (weights : RunID → ℚ) {waiting : List Candidate} (h : waiting ≠ []) {usage : Usage}
    (husage : ∀ run r, wrap (usage run r) = usage run r) :
    ∃ c rest, Order weights waiting usage = c :: rest ∧ (queuesOf waiting c.run).head? = some c
      ∧ ∀ d ∈ waiting, (queuesOf waiting d.run).head? = some d → ¬Before (score weights usage) d c := by
  obtain ⟨n,hn⟩ := Nat.exists_eq_succ_of_ne_zero (fun hlen => h (List.length_eq_zero_iff.mp hlen))
  have huse : (fun run r => wrap (usage run r+(fun (_ : RunID) (_ : ResourceID) => (0 : ℤ)) run r)) = usage := by
    funext run r
    exact (congrArg wrap (add_zero _)).trans (husage run r)
  rw [Order,hn,takeTurns]
  simp only [huse]
  rcases foldl_best (score weights usage) (queuesOf waiting) (runsOf waiting) with
    ⟨_,hempty⟩ | ⟨c,hc,⟨run,_,hhead⟩,hleast⟩
  · obtain ⟨d,hd⟩ := List.exists_mem_of_ne_nil waiting h
    have := hempty d.run (mem_runsOf.mpr ⟨d,hd,rfl⟩)
    exact absurd (List.mem_filter.mpr ⟨hd,by simp⟩) (this ▸ List.not_mem_nil)
  · have hrun : c.run = run := by
      have hmem : c ∈ queuesOf waiting run := List.mem_of_mem_head? hhead
      simpa [queuesOf] using (List.mem_filter.mp hmem).2
    refine ⟨c,_,by rw [hc],hrun ▸ hhead,fun d hd hdhead => ?_⟩
    exact hleast d.run (mem_runsOf.mpr ⟨d,hd,rfl⟩) d hdhead

end Vibesys.Schedule.FairShare
