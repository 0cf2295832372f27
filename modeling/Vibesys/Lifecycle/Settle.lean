import Vibesys.Core.Job

/-!
# How a job's end is recorded

What a supervisor's outcome means for its job, and what comes of a job whose supervisor is proved
gone. An interface of the source that may be nil is an option here, and a text outside a closed set
is the constructor `unknown`.
-/
namespace Vibesys.Lifecycle
open Vibesys.Core

inductive ExecKind
  | exited | timedOut | cancelled | serviceNotReady | serviceExited
  | unknown (text : String)
  deriving DecidableEq, Repr

structure ExecOutcome where
  kind : ExecKind
  exitCode : ℤ
  deriving DecidableEq, Repr

/-- What one attempt at a command did; the service log that `Ended` carries is read by nothing here. -/
inductive Attempt
  | notStarted (failure : Failure)
  | ended (exec : ExecOutcome)
  | unobserved (failure : Failure)
  deriving DecidableEq, Repr

inductive Verdict
  | passed (result : Result)
  | stopped (exec : ExecOutcome)
  | notAttempted (failure : Failure)
  | rejected (reason : String)
  | lost (failure : Failure)
  deriving DecidableEq

inductive End
  | commandEnded (attempt : Option Attempt)
  | flowEnded (verdict : Option Verdict)
  deriving DecidableEq

structure Outcome where
  end_ : Option End
  cancelAsked : Bool
  cancelReason : String
  deriving DecidableEq

structure Settlement where
  transition : Transition
  log : String := ""
  deriving DecidableEq

/-- The settlement queues the job again and does not end it. -/
def Settlement.Requeues (s : Settlement) : Bool := s.transition.cut.isSome

/-- The settlement of an entry that has none. A state has no empty value here, so it is written as
a move from queued, which like the source's zero value neither requeues nor moves a running job. -/
def Settlement.zero : Settlement := { transition := ⟨"",.queued,.queued,0,none,"",none,none,"","",none⟩ }

/-- The evidence that a supervisor is gone; `nothing` is the zero value and any other text. -/
inductive DeathProof
  | lockFree | rebooted | released | nothing
  deriving DecidableEq, Repr

def DeathProof.Valid (p : DeathProof) : Bool := p ≠ .nothing

inductive Start
  | neverStarted | mayHaveStarted
  deriving DecidableEq, Repr

def ending (job : JobID) (from_ to_ : JobState) (at_ : Time) (log : String) : Settlement where
  transition := { job := job, from_ := from_, to_ := to_, at_ := at_ }
  log := log

def notStarted (job : JobID) (from_ : JobState) (at_ : Time) (f : Failure) : Settlement :=
  ending job from_ .failed at_ s!"vibesys-cli: the job could not be run: {f.message}"

def unobserved (job : JobID) (from_ : JobState) (at_ : Time) (f : Failure) : Settlement :=
  ending job from_ .lost at_ s!"vibesys-cli: the job ran, and how it ended is not known: {f.message}"

def unknownEnd (job : JobID) (from_ : JobState) (at_ : Time) : Settlement :=
  ending job from_ .lost at_ "vibesys-cli: the supervisor did not say how the job ended"

/-- What a command's end means. -/
def settleRan (job : JobID) (from_ : JobState) (at_ : Time) (exec : ExecOutcome) (o : Outcome) : Settlement :=
  match exec.kind with
  | .exited =>
    { transition := { job := job, from_ := from_, at_ := at_, exitCode := some exec.exitCode
                      to_ := if exec.exitCode = 0 then .succeeded else .failed } }
  | .timedOut => ending job from_ .failed at_ "vibesys-cli: the command ran past its time limit and was ended"
  | .serviceNotReady => ending job from_ .failed at_ "vibesys-cli: the service was not ready in time"
  | .serviceExited => ending job from_ .failed at_ "vibesys-cli: the service exited before the command finished"
  | .cancelled =>
    if o.cancelAsked then
      { transition := { job := job, from_ := from_, to_ := .cancelled, at_ := at_, cancelReason := o.cancelReason } }
    else ending job from_ .lost at_ "vibesys-cli: the job was ended by something other than a cancel"
  | .unknown text =>
    ending job from_ .lost at_ s!"vibesys-cli: the job ended in a way this build does not know ({text.quote})"

def settleAttempt (job : JobID) (from_ : JobState) (at_ : Time) (a : Option Attempt) (o : Outcome) : Settlement :=
  match a with
  | some (.ended exec) => settleRan job from_ at_ exec o
  | some (.notStarted f) => notStarted job from_ at_ f
  | some (.unobserved f) => unobserved job from_ at_ f
  | none => unknownEnd job from_ at_

def settleVerdict (job : JobID) (from_ : JobState) (at_ : Time) (v : Option Verdict) (o : Outcome) : Settlement :=
  match v with
  | some (.passed result) =>
    { transition := { job := job, from_ := from_, to_ := .succeeded, at_ := at_, exitCode := some 0
                      result := some result } }
  | some (.stopped exec) =>
    if exec.kind = .exited ∧ exec.exitCode = 0 then
      ending job from_ .lost at_
        "vibesys-cli: the supervisor said a step stopped the job and exited 0, which is no ending"
    else settleRan job from_ at_ exec o
  | some (.notAttempted f) => notStarted job from_ at_ f
  | some (.rejected reason) =>
    ending job from_ .failed at_ s!"vibesys-cli: the job's result was rejected: {reason}"
  | some (.lost f) => unobserved job from_ at_ f
  | none => unknownEnd job from_ at_

/-- What a supervisor's outcome means for its job, which was in state `from_`. -/
def Settle (job : JobID) (from_ : JobState) (o : Outcome) (at_ : Time) : Settlement :=
  match o.end_ with
  | some (.commandEnded a) => settleAttempt job from_ at_ a o
  | some (.flowEnded v) => settleVerdict job from_ at_ v o
  | none => unknownEnd job from_ at_

def cancelQueued (job : JobID) (reason : String) (at_ : Time) : Settlement :=
  { transition := { job := job, from_ := .queued, to_ := .cancelled, at_ := at_, cancelReason := reason } }

def failedToLaunch (job : JobID) (f : Failure) (at_ : Time) : Settlement :=
  ending job .queued .failed at_ s!"vibesys-cli: the job could not be started: {f.message}"

def stoppedJob (job : JobID) (f : Failure) (at_ : Time) : Settlement :=
  ending job .running .failed at_
    s!"vibesys-cli: the job was stopped because the daemon could not follow it: {f.message}"

def lostJob (job : JobID) (at_ : Time) : Settlement :=
  ending job .running .lost at_ "vibesys-cli: the job's supervisor went away, so the job is lost and is not run again"

def givenUpJob (job : JobID) (at_ : Time) : Settlement :=
  ending job .running .lost at_
    "vibesys-cli: the store's owner record was removed, which gives up the place that ran the job, and nothing here runs it, so the job is lost and is not run again"

def howCut : Cut → String
  | .beforeStart _ => "before its command started"
  | .midCommand _ => "mid-command"

/-- The line a job's output gets for an attempt that was cut off and queued again. -/
def CutLine (attempt : ℕ) (cut : Cut) : String :=
  s!"vibesys-cli: attempt {attempt} was cut off {howCut cut} ({cut.Cause.text}); running it again as attempt {attempt+1} of {MaxAttempts}"

def cutAt (job : JobID) (attempt : ℕ) (cut : Cut) (at_ : Time) : Settlement :=
  if MaxAttempts ≤ attempt then
    ending job .running .lost at_
      s!"vibesys-cli: attempt {attempt} was cut off {howCut cut} ({cut.Cause.text}), and a job gets {MaxAttempts} attempts, so the job is lost and is not run again"
  else
    { transition := { job := job, from_ := .running, to_ := .queued, at_ := at_, cut := some cut }
      log := CutLine attempt cut }

/-- What comes of a running job whose supervisor is proved gone by `cause`. -/
def cutBy (job : JobID) (policy : Option RerunPolicy) (attempts : ℕ) (cause : CutCause) (start : Option Start)
    (at_ : Time) : Settlement :=
  if start = some .neverStarted then cutAt job (attempts+1) (.beforeStart cause) at_
  else if policy ≠ some .afterProvenDeath then
    ending job .running .lost at_
      s!"vibesys-cli: the job's supervisor went away ({cause.text}) after its command may have started, so the job is lost and is not run again: a command job is never run twice"
  else cutAt job (attempts+1) (.midCommand cause) at_

/-- What comes of a running job whose supervisor is gone: only a supervisor that died or a machine
that restarted cuts an attempt off. -/
def CutOff (job : JobID) (policy : Option RerunPolicy) (attempts : ℕ) (proof : DeathProof) (start : Option Start)
    (at_ : Time) : Settlement :=
  match proof with
  | .lockFree => cutBy job policy attempts .supervisorDied start at_
  | .rebooted => cutBy job policy attempts .rebooted start at_
  | .released => lostJob job at_
  | .nothing => lostJob job at_

/-! What a settlement asks of the store. -/

@[simp] lemma ending_requeues (job : JobID) (from_ to_ : JobState) (at_ : Time) (log : String) :
    (ending job from_ to_ at_ log).Requeues = false := rfl

@[simp] lemma cancelQueued_requeues (job : JobID) (reason : String) (at_ : Time) :
    (cancelQueued job reason at_).Requeues = false := rfl

@[simp] lemma zero_requeues : Settlement.zero.Requeues = false := rfl

@[simp] lemma failedToLaunch_requeues (job : JobID) (f : Failure) (at_ : Time) :
    (failedToLaunch job f at_).Requeues = false := rfl

@[simp] lemma stoppedJob_requeues (job : JobID) (f : Failure) (at_ : Time) :
    (stoppedJob job f at_).Requeues = false := rfl

@[simp] lemma lostJob_requeues (job : JobID) (at_ : Time) : (lostJob job at_).Requeues = false := rfl

@[simp] lemma givenUpJob_requeues (job : JobID) (at_ : Time) : (givenUpJob job at_).Requeues = false := rfl

lemma settleRan_requeues (job : JobID) (from_ : JobState) (at_ : Time) (exec : ExecOutcome) (o : Outcome) :
    (settleRan job from_ at_ exec o).Requeues = false := by
  unfold settleRan
  split
  case h_5 => split_ifs <;> rfl
  all_goals rfl

@[simp] theorem Settle_requeues (job : JobID) (from_ : JobState) (o : Outcome) (at_ : Time) :
    (Settle job from_ o at_).Requeues = false := by
  unfold Settle
  split
  · unfold settleAttempt
    split
    · exact settleRan_requeues ..
    all_goals rfl
  · unfold settleVerdict
    split
    case h_2 =>
      split_ifs
      · rfl
      · exact settleRan_requeues ..
    all_goals rfl
  · rfl

end Vibesys.Lifecycle
