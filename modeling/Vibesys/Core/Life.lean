import Vibesys.Core.Key
import Vibesys.Library.Run

/-!
# The life of a job's record

A job begins as a submission creates it and is offered transitions one after another. What
`Job.Apply` accepts is inverted once, into the effects an accepted transition has; every fact about the
record over a whole life is then kept step by step.
-/
namespace Vibesys.Core

open Library

def nameChar (c : Char) : Bool := c.isAlphanum || c == '_' || c == '-'

/-- The pattern `^[A-Za-z0-9_-][A-Za-z0-9._-]{0,127}$`. -/
def isName (s : String) : Bool :=
  match s.toList with
  | [] => false
  | c :: cs => nameChar c && cs.length ≤ 127 && cs.all fun c => nameChar c || c == '.'

def invalid (path reason : String) : Failure := failf .invalidInput s!"{path}: {reason}"

def CheckName (what s : String) : Option Failure :=
  if isName s then none
  else some (invalid what
    s!"{s.quote} is not a name of 1 to 128 letters, digits, dots, underscores and hyphens that does not start with a dot")

structure Submission where
  spec : JobSpec
  key : JobKey
  deriving DecidableEq, Repr

/-- Why no job is made of the submission, if none is. -/
def Submission.refusal (sub : Submission) : Option Failure :=
  match sub.spec.settings with
  | none => some (invalid "submission.Spec.Settings" "is missing")
  | some kind =>
    if sub.spec.commit = "" then some (invalid "submission.Spec.Commit" "is empty")
    else if kind = .command then
      if sub.key ≠ "" then some (invalid "submission.Key" "a command job has no key") else none
    else CheckName "submission.Key" sub.key

def JobIDFor (n : ℕ) : JobID := "j" ++ toString n

def Submission.record (sub : Submission) (n : ℕ) : Job :=
  { id := JobIDFor n, spec := sub.spec, state := .queued, key := sub.key, environment := none, startedAt := none
    finishedAt := none, cancelReason := "", exitCode := none, resultJob := "", checkJob := "", attempts := [] }

def Submission.create (sub : Submission) (n : ℕ) : Except Failure Job :=
  match sub.refusal with
  | some failure => .error failure
  | none => .ok (sub.record (n+1))

/-- A job with the transitions it accepted, oldest first. -/
structure Life where
  job : Job
  accepted : List Transition

/-- A transition is offered to the job. One that is refused leaves the job as it was. -/
def Life.offer (l : Life) (t : Transition) : Life :=
  match l.job.Apply t with
  | .ok j => ⟨j,l.accepted ++ [t]⟩
  | .error _ => l

/-- What an accepted transition has, and has not. -/
structure Accepted (j : Job) (kind : JobKind) (t : Transition) : Prop where
  from_ : t.from_ = j.state
  move : j.state.CanMoveTo t.to_ = true
  settings : j.spec.settings = some kind
  environment : t.environment.isSome = true ↔ t.to_ = .running
  key : t.key ≠ "" → t.to_ = .running ∧ kind ≠ .command
  cancelReason : t.cancelReason ≠ "" → t.to_ = .cancelled
  exitCode : t.exitCode ≠ none → t.to_ = .succeeded ∨ t.to_ = .failed
  cut : t.cut.isSome = true ↔ t.to_ = .queued
  attempts : t.to_ = .queued → j.attempts.length+1 < MaxAttempts
  result : t.result.isSome = true ↔ t.to_ = .succeeded ∧ kind ≠ .command
  saved : ∀ r, t.result = some r → checkSavedResult j kind r = none

theorem misplacedEffect_eq_none {j : Job} {kind : JobKind} {t : Transition} (h : misplacedEffect j kind t = none) :
    (t.environment.isSome = true ↔ t.to_ = .running) ∧ (t.key ≠ "" → t.to_ = .running ∧ kind ≠ .command)
      ∧ (t.cancelReason ≠ "" → t.to_ = .cancelled) ∧ (t.exitCode ≠ none → t.to_ = .succeeded ∨ t.to_ = .failed)
      ∧ (t.cut.isSome = true ↔ t.to_ = .queued) ∧ (t.to_ = .queued → j.attempts.length+1 < MaxAttempts)
      ∧ (t.result.isSome = true ↔ t.to_ = .succeeded ∧ kind ≠ .command) := by
  unfold misplacedEffect at h
  dsimp only at h
  obtain ⟨h1,h⟩ := of_refusal h
  obtain ⟨h2,h⟩ := of_refusal h
  obtain ⟨h3,h⟩ := of_refusal h
  obtain ⟨h4,h⟩ := of_refusal h
  obtain ⟨h5,h⟩ := of_refusal h
  obtain ⟨h6,h⟩ := of_refusal h
  obtain ⟨h7,h⟩ := of_refusal h
  obtain ⟨h8,h⟩ := of_refusal h
  obtain ⟨h9,h⟩ := of_refusal h
  obtain ⟨_,h⟩ := of_refusal h
  obtain ⟨h11,h⟩ := of_refusal h
  obtain ⟨h12,h⟩ := of_refusal h
  obtain ⟨h13,_⟩ := of_refusal h
  rw [Option.isSome_iff_ne_none,Option.isSome_iff_ne_none,Option.isSome_iff_ne_none]
  have hresult : t.result ≠ none → t.to_ = .succeeded := fun hr => by_contra fun hn => h11 ⟨hr,hn⟩
  refine ⟨⟨fun he => by_contra fun hn => h2 ⟨hn,he⟩,fun hr he => h1 ⟨hr,he⟩⟩,?_,fun hc => by_contra fun hn => h5 ⟨hc,hn⟩,?_,
    ⟨fun hc => by_contra fun hn => h8 ⟨hn,hc⟩,fun hq hn => h7 ⟨hq,hn⟩⟩,fun hq => not_le.mp fun hm => h9 ⟨hq,hm⟩,?_⟩
  · exact fun hk => ⟨by_contra fun hn => h3 ⟨hk,hn⟩,fun hc => h4 ⟨hk,hc⟩⟩
  · exact fun he => by_contra fun hn => h6 ⟨he,fun hs => hn (.inl hs),fun hf => hn (.inr hf)⟩
  · exact ⟨fun hr => ⟨hresult hr,fun hc => h13 ⟨hresult hr,hc,hr⟩⟩,fun hs hr => h12 ⟨hs.1,hs.2,hr⟩⟩

theorem Job.accepted_of_apply {j j' : Job} {t : Transition} (h : j.Apply t = .ok j') :
    j' = j.moved t ∧ ∃ kind, Accepted j kind t := by
  obtain ⟨rfl,hfrom,hmove⟩ := Job.of_apply h
  refine ⟨rfl,?_⟩
  unfold Apply at h
  split_ifs at h
  cases hsettings : j.spec.settings with
  | none => simp [hsettings] at h
  | some kind =>
    cases heffects : checkEffects j kind t with
    | some failure => simp [hsettings,heffects] at h
    | none =>
      obtain ⟨_,hrest⟩ := Option.or_eq_none_iff.mp heffects
      obtain ⟨hmisplaced,hresult⟩ := Option.or_eq_none_iff.mp hrest
      obtain ⟨h1,h2,h3,h4,h5,h6,h7⟩ := misplacedEffect_eq_none hmisplaced
      refine ⟨kind,hfrom,hmove,hsettings,h1,h2,h3,h4,h5,h6,h7,fun r hr => ?_⟩
      rw [hr,Option.bind_some] at hresult
      exact (Option.or_eq_none_iff.mp hresult).1

theorem checkSavedResult_eq_none {j : Job} {kind : JobKind} {r : Result} (h : checkSavedResult j kind r = none) :
    r.job = j.id ∧ r.commit = j.spec.commit ∧ r.key = j.key ∧ r.schemaVersion = SchemaVersion
      ∧ (∃ e, j.environment = some e ∧ r.environment.Equal e = true)
      ∧ ((kind = .check ∧ ∃ d, r.outcome = .check d)
        ∨ (kind = .measure ∧ ∃ m, r.outcome = .measure m ∧ checkMeasurement m = none)) := by
  obtain ⟨h1,h⟩ := of_refusal h
  obtain ⟨h2,h⟩ := of_refusal h
  obtain ⟨h3,h⟩ := of_refusal h
  obtain ⟨h4,h⟩ := of_refusal h
  obtain ⟨h5,h⟩ := of_refusal h
  refine ⟨not_not.mp h1,not_not.mp h2,not_not.mp h3,not_not.mp h4,?_,?_⟩
  · cases he : j.environment with
    | none => simp [he] at h5
    | some e => exact ⟨e,rfl,by simpa [he] using h5⟩
  · cases ho : r.outcome with
    | check d =>
      rw [ho] at h
      obtain ⟨hkind,_⟩ := of_refusal h
      exact .inl ⟨not_not.mp hkind,d,rfl⟩
    | measure m =>
      rw [ho] at h
      obtain ⟨hkind,hm⟩ := of_refusal h
      exact .inr ⟨not_not.mp hkind,m,rfl,hm⟩
    | none_ =>
      rw [ho] at h
      cases h

theorem checkMeasurement_eq_none {m : MeasureOutcome} (h : checkMeasurement m = none) :
    m.metric.name ≠ "" ∧ (m.metric.direction = .maximize ∨ m.metric.direction = .minimize) ∧ m.samples ≠ []
      ∧ m.checkJob ≠ "" ∧ ∀ x ∈ m.samples, x.isFinite = true := by
  obtain ⟨h1,h⟩ := of_refusal h
  obtain ⟨h2,h⟩ := of_refusal h
  obtain ⟨h3,h⟩ := of_refusal h
  obtain ⟨h4,h⟩ := of_refusal h
  refine ⟨h1,by tauto,h3,h4,fun x hx => ?_⟩
  have hnone := List.find?_eq_none.mp (Option.map_eq_none_iff.mp h)
  obtain ⟨i,hi,rfl⟩ := List.getElem_of_mem hx
  simpa using hnone (m.samples[i],i) (List.mk_mem_zipIdx_iff_getElem?.mpr (List.getElem?_eq_getElem hi))

namespace JobState

theorem of_canMoveTo {s to_ : JobState} (h : s.CanMoveTo to_ = true) :
    (s = .queued ∧ (to_ = .running ∨ to_.Final = true)) ∨ (s = .running ∧ (to_ = .queued ∨ to_.Final = true)) := by
  cases s <;> cases to_ <;> revert h <;> decide

theorem final_cases {s : JobState} (h : s.Final = true) : s ≠ .queued ∧ s ≠ .running := by
  cases s <;> revert h <;> decide

theorem not_final_of_canMoveTo {s to_ : JobState} (h : s.CanMoveTo to_ = true) : s.Final = false := by
  cases s <;> cases to_ <;> revert h <;> decide

end JobState

namespace Job

section moved

variable (j : Job) (t : Transition)

theorem moved_key : (j.moved t).key = if t.to_ = .running ∧ t.key ≠ "" then t.key else j.key := by
  unfold moved noted entered
  cases t.result <;> cases t.to_ <;> simp

theorem moved_environment : (j.moved t).environment
    = if t.to_ = .running then t.environment else if t.to_ = .queued then none else j.environment := by
  unfold moved noted entered
  cases t.result <;> cases t.to_ <;> rfl

theorem moved_startedAt : (j.moved t).startedAt
    = if t.to_ = .running then some t.at_ else if t.to_ = .queued then none else j.startedAt := by
  unfold moved noted entered
  cases t.result <;> cases t.to_ <;> rfl

theorem moved_finishedAt : (j.moved t).finishedAt = if t.to_.Final then some t.at_ else j.finishedAt := by
  unfold moved noted entered
  cases t.result <;> cases t.to_ <;> rfl

theorem moved_exitCode : (j.moved t).exitCode = if t.exitCode.isSome then t.exitCode else j.exitCode := by
  unfold moved noted entered
  cases t.result <;> cases t.to_ <;> rfl

theorem moved_cancelReason : (j.moved t).cancelReason = if t.to_ = .cancelled then t.cancelReason else j.cancelReason := by
  unfold moved noted entered
  cases t.result <;> cases t.to_ <;> rfl

theorem moved_resultJob : (j.moved t).resultJob = if t.result.isSome then j.id else j.resultJob := by
  unfold moved noted entered
  cases t.result <;> cases t.to_ <;> rfl

theorem length_moved_attempts (h : t.cut.isSome = true ↔ t.to_ = .queued) :
    (j.moved t).attempts.length = j.attempts.length+if t.to_ = .queued then 1 else 0 := by
  rw [moved_attempts]
  split_ifs with hq
  · obtain ⟨cut,hcut⟩ := Option.isSome_iff_exists.mp (h.mpr hq)
    simp [hcut]
  · rfl

end moved

end Job

theorem checkSavedResult_congr {j j' : Job} (kind : JobKind) (r : Result) (hid : j'.id = j.id) (hspec : j'.spec = j.spec)
    (hkey : j'.key = j.key) (henvironment : j'.environment = j.environment) :
    checkSavedResult j' kind r = checkSavedResult j kind r := by
  unfold checkSavedResult
  rw [hid,hspec,hkey,henvironment]

theorem Job.apply_of_final {j : Job} (h : j.state.Final = true) (t : Transition) : ∃ failure, j.Apply t = .error failure := by
  cases hap : j.Apply t with
  | error failure => exact ⟨failure,rfl⟩
  | ok j' =>
    obtain ⟨_,kind,hacc⟩ := Job.accepted_of_apply hap
    rw [JobState.not_final_of_canMoveTo hacc.move] at h
    cases h

namespace Life

def Ran (l : Life) : Prop :=
  l.job.state = .running ∨ (l.job.state.Final = true ∧ ∃ t, l.accepted.getLast? = some t ∧ t.from_ = .running)

def current (j : Job) : ℕ := (if j.startedAt.isSome then 1 else 0)+if j.state.Final then 1 else 0

/-- What holds of a job's record all its life. -/
structure Kept (l : Life) (kind : JobKind) : Prop where
  settings : l.job.spec.settings = some kind
  named : l.job.id ≠ ""
  attempts : l.job.attempts.length < MaxAttempts
  requeued : l.job.attempts.length = (l.accepted.filter fun t => t.to_ = .queued).length
  count : l.accepted.length = 2*l.job.attempts.length+current l.job
  environment : l.job.environment.isSome = true ↔ l.Ran
  started : l.job.startedAt.isSome = true ↔ l.Ran
  finished : l.job.finishedAt.isSome = true ↔ l.job.state.Final = true
  result : l.job.resultJob = if l.job.state = .succeeded ∧ kind ≠ .command then l.job.id else ""
  saved : l.job.state = .succeeded → kind ≠ .command → ∃ t r, l.accepted.getLast? = some t ∧ t.result = some r
    ∧ checkSavedResult l.job kind r = none
  unsaved : kind = .command → ∀ t ∈ l.accepted, t.result = none
  exitCode : l.job.exitCode ≠ none → l.job.state = .succeeded ∨ l.job.state = .failed
  cancelReason : l.job.cancelReason ≠ "" → l.job.state = .cancelled
  command : kind = .command → l.job.key = ""

theorem JobIDFor_ne_empty (n : ℕ) : JobIDFor n ≠ "" := by
  intro h
  have := congrArg String.length h
  simp [JobIDFor] at this

theorem create_ok {sub : Submission} {n : ℕ} {j : Job} (h : sub.create n = .ok j) :
    j = sub.record (n+1) ∧ ∃ kind, sub.spec.settings = some kind ∧ (kind = .command → sub.key = "") := by
  unfold Submission.create at h
  cases hrefusal : sub.refusal with
  | some failure => rw [hrefusal] at h; cases h
  | none =>
    rw [hrefusal] at h
    refine ⟨(Except.ok.inj h).symm,?_⟩
    unfold Submission.refusal at hrefusal
    cases hsettings : sub.spec.settings with
    | none => simp [hsettings] at hrefusal
    | some kind =>
      rw [hsettings] at hrefusal
      obtain ⟨_,hkey⟩ := of_refusal hrefusal
      refine ⟨kind,rfl,fun hcommand => ?_⟩
      rw [if_pos hcommand] at hkey
      exact not_not.mp (of_refusal hkey).1

theorem kept_record {sub : Submission} (n : ℕ) {kind : JobKind} (hsettings : sub.spec.settings = some kind)
    (hkey : kind = .command → sub.key = "") : Kept ⟨sub.record n,[]⟩ kind := by
  have hran : ¬ Ran ⟨sub.record n,[]⟩ := by
    rintro (hr | ⟨hf,_⟩)
    · cases hr
    · cases hf
  exact {
    settings := hsettings
    named := JobIDFor_ne_empty n
    attempts := Nat.zero_lt_succ _
    requeued := rfl
    count := rfl
    environment := ⟨nofun,fun h => absurd h hran⟩
    started := ⟨nofun,fun h => absurd h hran⟩
    finished := ⟨nofun,nofun⟩
    result := rfl
    saved := nofun
    unsaved := fun _ t ht => absurd ht List.not_mem_nil
    exitCode := fun h => absurd rfl h
    cancelReason := fun h => absurd rfl h
    command := hkey }

section

variable {l : Life} {kind : JobKind} {t : Transition}

theorem ran_iff_of_not_final (h : l.job.state.Final = false) : l.Ran ↔ l.job.state = .running := by
  refine ⟨fun hr => ?_,.inl⟩
  rcases hr with hr | ⟨hf,_⟩
  · exact hr
  · rw [h] at hf; cases hf

theorem ran_moved (h : Accepted l.job kind t) : Ran ⟨l.job.moved t,l.accepted ++ [t]⟩
    ↔ t.to_ = .running ∨ (t.to_.Final = true ∧ l.job.state = .running) := by
  simp [Ran,h.from_]

theorem ran_of_attempt {α : Type} {before after value : Option α} (hbefore : before.isSome = true ↔ l.Ran)
    (hacc : Accepted l.job kind t) (hvalue : t.to_ = .running → value.isSome = true)
    (hafter : after = if t.to_ = .running then value else if t.to_ = .queued then none else before) :
    after.isSome = true ↔ Ran ⟨l.job.moved t,l.accepted ++ [t]⟩ := by
  have hnotfinal := JobState.not_final_of_canMoveTo hacc.move
  rw [ran_moved hacc,hafter]
  rw [ran_iff_of_not_final hnotfinal] at hbefore
  split_ifs with hrunning hqueued
  · simp [hrunning,hvalue hrunning]
  · simp [hqueued,JobState.Final,JobState.next]
  · have hfinal : t.to_.Final = true := by
      rcases JobState.of_canMoveTo hacc.move with ⟨_,h | h⟩ | ⟨_,h | h⟩
      · exact absurd h hrunning
      · exact h
      · exact absurd h hqueued
      · exact h
    simp [hrunning,hfinal,hbefore]

/-- The moves accepted are two for each attempt cut off, and those of the current one. -/
theorem count_moved (h : l.Kept kind) (hacc : Accepted l.job kind t) :
    l.accepted.length+1 = 2*(l.job.moved t).attempts.length+current (l.job.moved t) := by
  have hbefore := h.started
  rw [ran_iff_of_not_final (JobState.not_final_of_canMoveTo hacc.move)] at hbefore
  rw [Job.length_moved_attempts _ _ hacc.cut,h.count,current,current,Job.moved_startedAt,Job.moved_state]
  rcases JobState.of_canMoveTo hacc.move with ⟨hs,ht | ht⟩ | ⟨hs,ht | ht⟩
  · have hnone : l.job.startedAt.isSome = false := by simpa [hs] using hbefore
    simp [hs,ht,hnone,JobState.Final,JobState.next]
  · obtain ⟨hq,hr⟩ := JobState.final_cases ht
    have hnone : l.job.startedAt.isSome = false := by simpa [hs] using hbefore
    simp [hs,hq,hr,hnone,JobState.Final,JobState.next]
  · have hsome : l.job.startedAt.isSome = true := hbefore.mpr hs
    simp [hs,ht,hsome,JobState.Final,JobState.next]
    omega
  · obtain ⟨hq,hr⟩ := JobState.final_cases ht
    have hsome : l.job.startedAt.isSome = true := hbefore.mpr hs
    simp [hs,hq,hr,hsome,JobState.Final,JobState.next]

/-- The rule of a job's record: what an accepted transition keeps of it. -/
theorem Kept.moved (h : l.Kept kind) (hacc : Accepted l.job kind t) : Kept ⟨l.job.moved t,l.accepted ++ [t]⟩ kind := by
  have hnotfinal := JobState.not_final_of_canMoveTo hacc.move
  have hnever : l.job.state ≠ .succeeded ∧ l.job.state ≠ .failed ∧ l.job.state ≠ .cancelled := by
    refine ⟨?_,?_,?_⟩ <;> intro hs <;> rw [hs] at hnotfinal <;> cases hnotfinal
  exact {
    settings := by simpa using h.settings
    named := by simpa using h.named
    attempts := by
      rw [Job.length_moved_attempts _ _ hacc.cut]
      split_ifs with hq
      · exact hacc.attempts hq
      · exact h.attempts
    requeued := by
      rw [Job.length_moved_attempts _ _ hacc.cut,h.requeued,List.filter_append,List.length_append]
      split_ifs with hq <;> simp [hq]
    count := by
      rw [List.length_append]
      exact count_moved h hacc
    environment := ran_of_attempt h.environment hacc (fun hr => hacc.environment.mpr hr) (Job.moved_environment l.job t)
    started := ran_of_attempt h.started hacc (fun _ => rfl) (Job.moved_startedAt l.job t)
    finished := by
      have hnone : l.job.finishedAt.isSome = false := by
        rw [← Bool.not_eq_true,h.finished,hnotfinal]
        simp
      rw [Job.moved_finishedAt,Job.moved_state]
      split_ifs with hf
      · simp [hf]
      · simp [hf,hnone]
    result := by
      have hnone : l.job.resultJob = "" := by rw [h.result,if_neg fun hs => hnever.1 hs.1]
      rw [Job.moved_resultJob,Job.moved_state,Job.moved_id,hnone]
      exact if_congr hacc.result rfl rfl
    saved := by
      rw [Job.moved_state]
      intro hsucceeded hcommand
      obtain ⟨r,hr⟩ := Option.isSome_iff_exists.mp (hacc.result.mpr ⟨hsucceeded,hcommand⟩)
      refine ⟨t,r,by simp,hr,?_⟩
      rw [checkSavedResult_congr kind r (Job.moved_id l.job t) (Job.moved_spec l.job t)]
      · exact hacc.saved r hr
      · rw [Job.moved_key,if_neg (by simp [hsucceeded])]
      · rw [Job.moved_environment,if_neg (by simp [hsucceeded]),if_neg (by simp [hsucceeded])]
    unsaved := by
      intro hcommand t' ht'
      rcases List.mem_append.mp ht' with ht' | ht'
      · exact h.unsaved hcommand t' ht'
      · obtain rfl := List.mem_singleton.mp ht'
        by_contra hr
        exact (hacc.result.mp (Option.isSome_iff_ne_none.mpr hr)).2 hcommand
    exitCode := by
      rw [Job.moved_exitCode,Job.moved_state]
      split_ifs with he
      · exact hacc.exitCode
      · intro hcode
        rcases h.exitCode hcode with hs | hs
        · exact absurd hs hnever.1
        · exact absurd hs hnever.2.1
    cancelReason := by
      rw [Job.moved_cancelReason,Job.moved_state]
      split_ifs with hc
      · exact fun _ => hc
      · exact fun hreason => absurd (h.cancelReason hreason) hnever.2.2
    command := by
      intro hcommand
      rw [Job.moved_key,if_neg fun hk => (hacc.key hk.2).2 hcommand]
      exact h.command hcommand }

theorem Kept.offer (h : l.Kept kind) (t : Transition) : (l.offer t).Kept kind := by
  unfold Life.offer
  cases hap : l.job.Apply t with
  | error failure => exact h
  | ok j =>
    obtain ⟨rfl,kind',hacc⟩ := Job.accepted_of_apply hap
    obtain rfl := Option.some.inj (h.settings.symm.trans hacc.settings)
    exact h.moved hacc

/-- The record of a job over its whole life, whatever transitions it is offered. -/
theorem consistent {sub : Submission} {n : ℕ} {j : Job} (h : sub.create n = .ok j) (ts : List Transition) :
    let l := run Life.offer ⟨j,[]⟩ ts
    l.accepted.length ≤ 2*MaxAttempts
      ∧ (l.job.state.Final = true → ∀ t, ∃ failure, l.job.Apply t = .error failure)
      ∧ l.job.attempts.length < MaxAttempts
      ∧ l.job.attempts.length = (l.accepted.filter fun t => t.to_ = .queued).length
      ∧ (l.job.environment.isSome = true ↔ l.Ran) ∧ (l.job.startedAt.isSome = true ↔ l.Ran)
      ∧ (l.job.finishedAt.isSome = true ↔ l.job.state.Final = true)
      ∧ (l.job.spec.settings ≠ some .command → (l.job.state = .succeeded ↔ l.job.resultJob = l.job.id))
      ∧ (l.job.spec.settings ≠ some .command → l.job.state = .succeeded →
        ∃ t r e, l.accepted.getLast? = some t ∧ t.result = some r ∧ r.job = l.job.id ∧ r.commit = l.job.spec.commit
          ∧ r.key = l.job.key ∧ l.job.environment = some e ∧ r.environment.Equal e = true
          ∧ ((l.job.spec.settings = some .check ∧ ∃ d, r.outcome = .check d)
            ∨ (l.job.spec.settings = some .measure ∧ ∃ m, r.outcome = .measure m ∧ m.checkJob ≠ "")))
      ∧ (l.job.exitCode ≠ none → l.job.state = .succeeded ∨ l.job.state = .failed)
      ∧ (l.job.cancelReason ≠ "" → l.job.state = .cancelled)
      ∧ (l.job.spec.settings = some .command →
        l.job.key = "" ∧ l.job.resultJob = "" ∧ ∀ t ∈ l.accepted, t.result = none) := by
  intro l
  obtain ⟨rfl,kind,hsettings,hkey⟩ := create_ok h
  have hk : l.Kept kind :=
    run_invariant (I := fun l => Life.Kept l kind) (fun l t hl => hl.offer t) (kept_record (n+1) hsettings hkey) ts
  have hkind : ∀ k, l.job.spec.settings = some k ↔ kind = k := fun k => by rw [hk.settings,Option.some_inj]
  simp only [ne_eq,hkind]
  refine ⟨?_,fun hf t => Job.apply_of_final hf t,hk.attempts,hk.requeued,hk.environment,hk.started,hk.finished,?_,?_,hk.exitCode,
    hk.cancelReason,?_⟩
  · have hcount := hk.count
    have hattempts := hk.attempts
    have hcurrent : current l.job ≤ 2 := by
      unfold current
      split_ifs <;> omega
    unfold MaxAttempts at hattempts ⊢
    omega
  · intro hcommand
    rw [hk.result]
    split_ifs with hs
    · simp [hs.1]
    · have hnot : l.job.state ≠ .succeeded := fun h => hs ⟨h,hcommand⟩
      simp [hnot,hk.named.symm]
  · intro hcommand hsucceeded
    obtain ⟨t,r,hlast,hr,hsaved⟩ := hk.saved hsucceeded hcommand
    obtain ⟨hjob,hcommit,hrkey,_,⟨e,he,hequal⟩,houtcome⟩ := checkSavedResult_eq_none hsaved
    refine ⟨t,r,e,hlast,hr,hjob,hcommit,hrkey,he,hequal,?_⟩
    rcases houtcome with ⟨hcheck,d,hd⟩ | ⟨hmeasure,m,hm,hmeasurement⟩
    · exact .inl ⟨hcheck,d,hd⟩
    · obtain ⟨_,_,_,hcheckJob,_⟩ := checkMeasurement_eq_none hmeasurement
      exact .inr ⟨hmeasure,m,hm,hcheckJob⟩
  · intro hcommand
    refine ⟨hk.command hcommand,?_,hk.unsaved hcommand⟩
    rw [hk.result,if_neg fun hs => hs.2 hcommand]

/-- A check that starts, is cut off, starts again and passes. -/
theorem consistent_check :
    ∃ j, (Submission.mk ⟨"c",some .check⟩ "k").create 0 = .ok j ∧
      let env : Fingerprint := ⟨.host,.cpu,"",∅⟩
      let l := run Life.offer ⟨j,[]⟩
        [{ job := "j1", from_ := .queued, to_ := .running, at_ := 1, environment := some env },
          { job := "j1", from_ := .running, to_ := .queued, at_ := 2, cut := some (.beforeStart .rebooted) },
          { job := "j1", from_ := .queued, to_ := .running, at_ := 3, environment := some env },
          { job := "j1", from_ := .running, to_ := .succeeded, at_ := 4
            result := some { job := "j1", key := "k", task := "t", taskVersion := "1", commit := "c", schemaVersion := 1, environment := env, recordedAt := 9, outcome := .check 5 } }]
      l.job.state = .succeeded ∧ l.accepted.length = 4 ∧ l.accepted.length ≤ 2*MaxAttempts := by
  refine ⟨_,rfl,?_,?_,?_⟩
  · decide +kernel
  · decide +kernel
  · exact (@consistent ⟨⟨"c",some .check⟩,"k"⟩ 0 _ rfl _).1

end

end Life

end Vibesys.Core
