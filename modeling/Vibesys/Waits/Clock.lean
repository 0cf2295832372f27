import Mathlib.Tactic.Linarith
import Vibesys.Library.Run

/-!
# The clock of a wait on a job

When work on a job ends, from the facts about the job. Queue time that fresh facts show is credited to the limit, a
pending fact may still earn up to the cap, and the queue budget and the run's end come before that. Times are
rational.
-/
namespace Vibesys.Waits

open Library

inductive ProgressState
  | pending | running | unknown
  deriving DecidableEq

structure JobProgress where
  observation_sequence : ℕ
  state : ProgressState
  deriving DecidableEq

structure Observation where
  sequence : ℕ
  observed_at : ℚ
  terminal : Bool := false
  deriving DecidableEq

structure Limits where
  queue_wait_budget : ℚ
  observe_backoff_cap : ℚ

structure RunState where
  limits : Limits
  deadline_at : ℚ

structure Job where
  observation : Option Observation := none
  progress : Option JobProgress := none
  terminal : Bool := false
  queue_credit : ℚ := 0
  deriving DecidableEq

inductive WaitEnd
  | limit | queueBudget | runEnd
  deriving DecidableEq

structure Bound where
  at_ : ℚ
  by_ : WaitEnd
  deriving DecidableEq

/-- A fact about a job: an observation, and progress if it carries any. -/
structure Fact where
  observation : Observation
  progress : Option JobProgress := none

/-- The earliest of two bounds, the first of them where they are at one time. -/
def earliest (a b : Bound) : Bound := if b.at_ < a.at_ then b else a

def pending (job : Job) : Bool :=
  match job.progress,job.observation with
  | some progress,some observation =>
    !job.terminal && progress.state = .pending && progress.observation_sequence = observation.sequence
  | _,_ => false

def queuedSince (job : Job) : Option ℚ := if pending job then job.observation.map Observation.observed_at else none

/-- The queue credit of a job once it takes its next fact. -/
def credited (job : Job) (observation : Observation) (limits : Limits) : ℚ :=
  match queuedSince job with
  | none => job.queue_credit
  | some previous =>
    if observation.observed_at ≤ previous then job.queue_credit
    else job.queue_credit+min (observation.observed_at-previous) limits.observe_backoff_cap

def observed (limits : Limits) (job : Job) (x : Fact) : Job where
  observation := some x.observation
  progress := x.progress.or job.progress
  terminal := x.observation.terminal
  queue_credit := credited job x.observation limits

/-- When the work ends if the run does not end before. -/
def uncapped (job : Job) (stated : ℚ) (limits : Limits) : Bound :=
  let bound : Bound := ⟨stated+job.queue_credit,.limit⟩
  match queuedSince job with
  | none => bound
  | some queued_since =>
    if bound.at_ > queued_since then
      earliest ⟨bound.at_+limits.observe_backoff_cap,.limit⟩
        ⟨queued_since+limits.queue_wait_budget-job.queue_credit,.queueBudget⟩
    else bound

def job_bound (job : Job) (stated : ℚ) (run : RunState) : Bound :=
  let bound := uncapped job stated run.limits
  let ceiling := max run.deadline_at stated
  if bound.at_ ≤ ceiling then bound else ⟨ceiling,.runEnd⟩

/-! ## One fact -/

variable {run : RunState} {stated : ℚ} {job : Job} {x : Fact}

theorem job_bound_at (job : Job) (stated : ℚ) (run : RunState) :
    (job_bound job stated run).at_ = min (uncapped job stated run.limits).at_ (max run.deadline_at stated) := by
  unfold job_bound
  dsimp only
  split_ifs with h
  · rw [min_eq_left h]
  · rw [min_eq_right (not_le.mp h).le]

theorem job_bound_eq_uncapped (h : (job_bound job stated run).by_ ≠ .runEnd) :
    job_bound job stated run = uncapped job stated run.limits := by
  unfold job_bound at h ⊢
  dsimp only at h ⊢
  split_ifs at h ⊢
  · rfl
  · exact absurd rfl h

theorem queuedSince_observed {t : ℚ} (h : queuedSince (observed run.limits job x) = some t) : t = x.observation.observed_at := by
  unfold queuedSince at h
  split_ifs at h
  exact (Option.some.inj h).symm

/-- A limit at or before the fact bounds the work, whether or not the fact says that the job is pending. -/
theorem uncapped_of_late (h : stated+(observed run.limits job x).queue_credit ≤ x.observation.observed_at) :
    (uncapped (observed run.limits job x) stated run.limits).at_ = stated+(observed run.limits job x).queue_credit := by
  unfold uncapped
  dsimp only
  split
  · rfl
  · rename_i t ht
    rw [queuedSince_observed ht,if_neg (not_lt.mpr h)]

/-- What a step has to meet for a passed bound not to move. The run's end stays. Where the limit passed, the job has not
been seen pending at or after it. Where the queue budget ran out, the fact is a fresh one that still says pending. -/
def LeavesPut (stated : ℚ) (run : RunState) (job : Job) (x : Fact) : Prop :=
  ((job_bound job stated run).by_ = .limit → ∀ t ∈ queuedSince job, t < stated+job.queue_credit) ∧
  ((job_bound job stated run).by_ = .queueBudget → pending (observed run.limits job x) = true ∧
    ∀ t ∈ queuedSince job, x.observation.observed_at ≤ t+run.limits.observe_backoff_cap)

instance (stated : ℚ) (run : RunState) (job : Job) (x : Fact) : Decidable (LeavesPut stated run job x) :=
  inferInstanceAs (Decidable (_ ∧ _))

theorem uncapped_limit (hcap : 0 < run.limits.observe_backoff_cap) (hby : (uncapped job stated run.limits).by_ = .limit)
    (hlate : ∀ t ∈ queuedSince job, t < stated+job.queue_credit) :
    stated+(observed run.limits job x).queue_credit ≤ (uncapped job stated run.limits).at_ := by
  show stated+credited job x.observation run.limits ≤ _
  unfold uncapped at hby ⊢
  unfold credited
  dsimp only at hby ⊢
  cases hp : queuedSince job with
  | none => simp
  | some t =>
    simp only [hp] at hby ⊢
    have hbefore := hlate t hp
    rw [if_pos hbefore] at hby ⊢
    unfold earliest at hby ⊢
    split_ifs at hby ⊢ with h₁ h₂
    · linarith
    · have := min_le_right (x.observation.observed_at-t) run.limits.observe_backoff_cap
      linarith

theorem uncapped_queueBudget (hby : (uncapped job stated run.limits).by_ = .queueBudget)
    (hpending : pending (observed run.limits job x) = true)
    (hfresh : ∀ t ∈ queuedSince job, x.observation.observed_at ≤ t+run.limits.observe_backoff_cap) :
    (uncapped (observed run.limits job x) stated run.limits).at_ ≤ (uncapped job stated run.limits).at_ := by
  have hsince : queuedSince (observed run.limits job x) = some x.observation.observed_at := by
    unfold queuedSince
    rw [if_pos hpending]
    rfl
  cases hp : queuedSince job with
  | none => simp [uncapped,hp] at hby
  | some t =>
    have hcap := hfresh t hp
    have hlive : t < stated+job.queue_credit := by
      by_contra hno
      simp [uncapped,hp,not_lt.mpr (not_lt.mp hno)] at hby
    have hat : (uncapped job stated run.limits).at_ = t+run.limits.queue_wait_budget-job.queue_credit := by
      unfold uncapped at hby ⊢
      simp only [hp,gt_iff_lt,if_pos hlive] at hby ⊢
      unfold earliest at hby ⊢
      split_ifs at hby ⊢
      rfl
    -- the credit grows by the time that passed, so what is left of the budget ends when it did
    have hcredit : x.observation.observed_at-(observed run.limits job x).queue_credit ≤ t-job.queue_credit ∧
        x.observation.observed_at < stated+(observed run.limits job x).queue_credit := by
      show x.observation.observed_at-credited job x.observation run.limits ≤ _ ∧ _ < stated+credited job x.observation run.limits
      unfold credited
      simp only [hp]
      split_ifs with hle
      · exact ⟨by linarith,by linarith⟩
      · rw [min_eq_left (by linarith)]
        exact ⟨by linarith,by linarith⟩
    rw [hat]
    unfold uncapped
    simp only [hsince,gt_iff_lt,if_pos hcredit.2]
    unfold earliest
    split_ifs with h
    · have := hcredit.1
      show x.observation.observed_at+_-_ ≤ _
      linarith
    · have := hcredit.1
      have := not_lt.mp h
      linarith

theorem bound_observed (hcap : 0 < run.limits.observe_backoff_cap)
    (hpassed : (job_bound job stated run).at_ ≤ x.observation.observed_at)
    (hput : LeavesPut stated run job x) :
    (job_bound (observed run.limits job x) stated run).at_ ≤ (job_bound job stated run).at_ := by
  cases hby : (job_bound job stated run).by_ with
  | runEnd =>
    have hend : (job_bound job stated run).at_ = max run.deadline_at stated := by
      unfold job_bound at hby ⊢
      dsimp only at hby ⊢
      split_ifs at hby ⊢ with h
      · unfold uncapped at hby
        dsimp only at hby
        split at hby
        · cases hby
        · unfold earliest at hby
          split_ifs at hby
      · rfl
    rw [hend,job_bound_at]
    exact min_le_right _ _
  | limit =>
    have hlate := hput.1 hby
    have hsame := @job_bound_eq_uncapped run stated job (by rw [hby]; decide)
    rw [hsame] at hby hpassed
    have hle := @uncapped_limit run stated job x hcap hby hlate
    rw [job_bound_at,job_bound_at,uncapped_of_late (hle.trans hpassed)]
    exact min_le_min_right _ hle
  | queueBudget =>
    obtain ⟨hpending,hfresh⟩ := hput.2 hby
    have hsame := @job_bound_eq_uncapped run stated job (by rw [hby]; decide)
    rw [hsame] at hby
    rw [job_bound_at,job_bound_at]
    exact min_le_min_right _ (uncapped_queueBudget hby hpending hfresh)

/-! ## All facts that follow -/

/-- If the first of some facts in increasing time comes at or after a job's bound, and each of them leaves a passed bound
put, then the bound is never later than it was. -/
theorem a_passed_bound_stays (run : RunState) (stated : ℚ) (job : Job) (facts : List Fact)
    (hcap : 0 < run.limits.observe_backoff_cap)
    (hfirst : ∀ x ∈ facts.head?, (job_bound job stated run).at_ ≤ x.observation.observed_at)
    (hincreasing : facts.Pairwise fun x y => x.observation.observed_at < y.observation.observed_at)
    (hput : Along (observed run.limits) (LeavesPut stated run) job facts) :
    Along (observed run.limits)
      (fun j x => (job_bound (observed run.limits j x) stated run).at_ ≤ (job_bound job stated run).at_) job facts := by
  -- every fact comes at or after the first bound, and no bound is later than that one
  have hall : ∀ x ∈ facts, (job_bound job stated run).at_ ≤ x.observation.observed_at := by
    cases facts with
    | nil => simp
    | cons y facts =>
      intro x hx
      have hy := hfirst y rfl
      rcases List.mem_cons.mp hx with rfl | hx
      · exact hy
      · exact hy.trans ((List.pairwise_cons.mp hincreasing).1 x hx).le
  refine Along.ensures (I := fun j => (job_bound j stated run).at_ ≤ (job_bound job stated run).at_) ?_ le_rfl
    ((along_of_mem hall _).and hput)
  rintro j x hj ⟨hx,hput⟩
  have hstep := (bound_observed hcap (hj.trans hx) hput).trans hj
  exact ⟨hstep,hstep⟩

namespace Sample

def patient : RunState := ⟨⟨10,5⟩,2000⟩

def seen (state : ProgressState) (sequence : ℕ) (at_ : ℚ) : Fact := ⟨⟨sequence,at_,false⟩,some ⟨sequence,state⟩⟩

/-- A job seen pending at zero and again at eight, five of which are credited, so that its queue budget runs out at
thirteen. -/
def queued : Job := observed patient.limits (observed patient.limits {} (seen .pending 1 0)) (seen .pending 2 8)

def bounds (stated : ℚ) (job : Job) (facts : List Fact) : List Bound :=
  (facts.scanl (observed patient.limits) job).map fun j => job_bound j stated patient

theorem a_passed_bound_stays_queued : job_bound queued 1000 patient = ⟨13,.queueBudget⟩ ∧ Along (observed patient.limits)
    (fun j x => (job_bound (observed patient.limits j x) 1000 patient).at_ ≤ (job_bound queued 1000 patient).at_)
      queued [seen .pending 3 13,seen .pending 4 18] := by
  refine ⟨by decide +kernel,a_passed_bound_stays patient 1000 queued _ (by decide +kernel) (by decide +kernel)
    (by decide +kernel) (by decide +kernel)⟩

/-- The queue budget runs out at ten, no fact comes before twenty, and the budget then ends at twenty-five: the time since
the last fact is credited up to the cap only, and counted whole. -/
theorem outage_revives_the_queue_budget :
    bounds 1000 (observed patient.limits {} (seen .pending 1 0)) [seen .pending 2 20] =
      [⟨10,.queueBudget⟩,⟨25,.queueBudget⟩] ∧
    -- a job that runs once its budget has run out has its limit again
    bounds 1000 (observed patient.limits {} (seen .pending 1 0)) [seen .running 2 12] =
      [⟨10,.queueBudget⟩,⟨1005,.limit⟩] ∧
    -- a limit that passed moves with each further pending fact
    bounds 10 (observed ⟨100,5⟩ {} (seen .running 1 8)) [seen .pending 2 12,seen .pending 3 14] =
      [⟨10,.limit⟩,⟨10,.limit⟩,⟨12,.limit⟩] := by decide +kernel

end Sample

end Vibesys.Waits
