import Vibesys.Promotion.Compare
import Vibesys.Library.Run

/-!
# Deciding a promotion, and its next step

A commit may become the head of the result branch if it is better than the head, on measurements that
stand. Carrying the promotion out is a record in the store and a move of the branch, and which is next is
read off the head and the record alone.
-/
namespace Vibesys.Promotion
open Vibesys.Core Vibesys.Library

inductive RefusalKind
  | unmeasured | checkMissing | worse | withinNoise | inconclusive | tradeoff | stale | environmentMismatch
  deriving DecidableEq, Repr

structure Reason where
  kind : RefusalKind
  message : String
  verdict : Option Verdict := none
  objectives : List ObjectiveVerdict := []
  measuredAgainst : Commit := ""
  currentHead : Commit := ""
  deriving DecidableEq

structure Promotion where
  commit : Commit
  previousHead : Commit
  verdict : Verdict
  objectives : List ObjectiveVerdict
  environment : Fingerprint
  resultJob : JobID
  at_ : Time
  deriving DecidableEq

inductive PromotionDecision
  | approved (promotion : Promotion)
  | refused (reasons : List Reason)
  deriving DecidableEq

structure PromotionRequest where
  candidate : Commit
  head : Commit
  results : List Result
  promotions : List Promotion
  relativeNoise : ℚ
  at_ : Time

/-- The order of measurements, oldest first. -/
def Older (a b : Measurement) : Prop :=
  a.recordedAt < b.recordedAt ∨ a.recordedAt = b.recordedAt ∧ a.job ≤ b.job

instance : DecidableRel Older := fun _ _ => inferInstanceAs (Decidable (_ ∨ _))

def measurementsOf (commit : Commit) (results : List Result) : List Measurement :=
  (results.filterMap fun r =>
    if r.commit = commit then r.measured.map fun measure => { r with measure := measure } else none).insertionSort Older

/-- The head the first promotion at or after a measurement replaced. -/
def movedSince (measuredAt : Time) (promotions : List Promotion) : Option Commit :=
  (promotions.find? fun p => measuredAt ≤ p.at_).map Promotion.previousHead

/-- The measurement names a passing check of its own commit, task version and environment. -/
def restsOnPassingCheck (m : Measurement) (results : List Result) : Bool :=
  let named := m.measure.checkJob
  named ≠ "" && (named = m.job || results.any fun r =>
    r.outcome.isCheck && r.job = named && r.commit = m.commit && r.taskVersion = m.taskVersion &&
      r.environment.Equal m.environment)

def describeObjectives (verdicts : List ObjectiveVerdict) : String :=
  ", ".intercalate (verdicts.map fun v => v.metric.name ++ " " ++ v.verdict.kind.text)

/-- The refusal for a verdict that is not better. -/
def verdictRefusal (verdict : Verdict) (objectives : List ObjectiveVerdict) : List Reason :=
  let refusal (kind : RefusalKind) (text : String) : List Reason :=
    let text := if objectives.isEmpty then text else text ++ " (" ++ describeObjectives objectives ++ ")"
    [{ kind := kind, message := text, verdict := some verdict, objectives := objectives }]
  match verdict.kind with
  | .better => []
  | .worse => refusal .worse "the candidate is worse than the commit to beat"
  | .withinNoise => refusal .withinNoise "the candidate is within noise of the commit to beat"
  | .inconclusive => refusal .inconclusive
      ("the samples cannot say whether the candidate beats the commit to beat (" ++ verdict.reason.text ++ ")")
  | .tradeoff => refusal .tradeoff
      "the candidate is better than the commit to beat on some objectives and worse on others"

/-- Why the promotion is refused, of measurements that could be compared. -/
def reasonsOf (req : PromotionRequest) (first : Measurement) (candidate : List Measurement)
    (compared : MeasuredComparison) : List Reason :=
  let short := shortCommit req.candidate
  (if candidate.any fun m => !restsOnPassingCheck m req.results then
    [{ kind := .checkMissing
       message := s!"a measurement of commit {short} does not rest on a passing check of the same commit, task version and environment" }]
    else []) ++
  (if compared.mixedEnvironments.isNone then verdictRefusal compared.verdict compared.objectives else []) ++
  (match movedSince first.recordedAt req.promotions with
    | some measuredAgainst =>
      [{ kind := .stale
         message := s!"the result branch moved after commit {short} was measured; measure it again with --no-cache, and with --plan N for the plan it tests (or --no-plan)"
         measuredAgainst := measuredAgainst, currentHead := req.head }]
    | none => []) ++
  (compared.mixedEnvironments.toList.map fun mix => { kind := .environmentMismatch, message := mix })

/-- Why the promotion is refused when a side has no measurement. -/
def unmeasured (req : PromotionRequest) (candidate base : List Measurement) : List Reason :=
  let short := shortCommit req.candidate
  let beaten := shortCommit req.head
  (if candidate.isEmpty then [{ kind := .unmeasured, message := s!"commit {short} has no measurement" }] else []) ++
  (if base.isEmpty then
    [{ kind := .unmeasured, message := s!"the commit to beat, {beaten}, has no measurement to compare with" }]
    else [])

def DecidePromotion (req : PromotionRequest) : Except Failure PromotionDecision :=
  if req.at_.IsZero then .error (failf .invalidInput "promotion: no time")
  else
    let candidate := measurementsOf req.candidate req.results
    let base := measurementsOf req.head req.results
    match candidate,unmeasured req candidate base with
    | first :: _,[] =>
      match compareMeasurements first candidate base req.relativeNoise with
      | .error f => .error f
      | .ok compared =>
        match reasonsOf req first candidate compared with
        | [] => .ok (.approved
            { commit := req.candidate, previousHead := req.head, verdict := compared.verdict
              objectives := compared.objectives, environment := compared.environment
              resultJob := (candidate.getLast?.map fun m => m.job).getD "", at_ := req.at_ })
        | reasons => .ok (.refused reasons)
    | _,reasons => .ok (.refused reasons)

theorem mem_of_measurementsOf {commit : Commit} {results : List Result} {m : Measurement}
    (h : m ∈ measurementsOf commit results) : m.toResult ∈ results := by
  rw [measurementsOf,List.mem_insertionSort,List.mem_filterMap] at h
  obtain ⟨r,hr,hm⟩ := h
  split_ifs at hm
  obtain ⟨outcome,_,rfl⟩ := Option.map_eq_some_iff.mp hm
  exact hr

theorem better_of_verdictRefusal {v : Verdict} {objectives : List ObjectiveVerdict}
    (h : verdictRefusal v objectives = []) : v.kind = .better := by
  unfold verdictRefusal at h
  cases hkind : v.kind with
  | better => rfl
  | _ =>
    rw [hkind] at h
    exact absurd h (List.cons_ne_nil _ _)

theorem of_reasonsOf_nil {req : PromotionRequest} {first : Measurement} {candidate : List Measurement}
    {compared : MeasuredComparison} (h : reasonsOf req first candidate compared = []) :
    compared.verdict.kind = .better ∧ ∀ p ∈ req.promotions, p.at_ < first.recordedAt := by
  unfold reasonsOf at h
  obtain ⟨h,hmixed⟩ := List.append_eq_nil_iff.mp h
  obtain ⟨h,hstale⟩ := List.append_eq_nil_iff.mp h
  obtain ⟨_,hverdict⟩ := List.append_eq_nil_iff.mp h
  have hnone : compared.mixedEnvironments = none := Option.toList_eq_nil_iff.mp (List.map_eq_nil_iff.mp hmixed)
  refine ⟨?_,?_⟩
  · rw [hnone] at hverdict
    exact better_of_verdictRefusal hverdict
  · intro p hp
    split at hstale
    · cases hstale
    · rename_i hmoved
      have hfind := Option.map_eq_none_iff.mp hmoved
      simpa using List.find?_eq_none.mp hfind p hp

/-- An approval is of the commit asked for, over the head, at the time it was asked; the commit is not the
head, and was measured after every promotion there is. -/
theorem of_approved {req : PromotionRequest} {p : Promotion} (h : DecidePromotion req = .ok (.approved p)) :
    p.commit = req.candidate ∧ p.previousHead = req.head ∧ p.at_ = req.at_ ∧ req.candidate ≠ req.head
      ∧ ∃ r ∈ req.results, ∀ q ∈ req.promotions, q.at_ < r.recordedAt := by
  unfold DecidePromotion at h
  split_ifs at h
  dsimp only at h
  split at h
  · rename_i first rest hcandidate _
    cases hcompared : compareMeasurements first (measurementsOf req.candidate req.results)
        (measurementsOf req.head req.results) req.relativeNoise with
    | error f =>
      rw [hcompared] at h
      cases h
    | ok compared =>
      rw [hcompared] at h
      dsimp only at h
      split at h
      · rename_i hreasons
        obtain ⟨hbetter,hlate⟩ := of_reasonsOf_nil hreasons
        obtain rfl := PromotionDecision.approved.inj (Except.ok.inj h)
        refine ⟨rfl,rfl,rfl,?_,first.toResult,mem_of_measurementsOf (by rw [hcandidate]; exact List.mem_cons_self),hlate⟩
        intro hsame
        rw [← hsame] at hcompared
        exact compareMeasurements_self hcompared hbetter
      · cases h
  · cases h

inductive PromotionStep
  | record (promotion : Promotion)
  | move (from_ to_ : Commit)
  | done
  | diverged (head : Commit)
  deriving DecidableEq

def Recorded (p : Promotion) (promotions : List Promotion) : Prop :=
  ∃ q ∈ promotions, q.commit = p.commit ∧ q.previousHead = p.previousHead ∧ q.at_ = p.at_

instance (p : Promotion) (promotions : List Promotion) : Decidable (Recorded p promotions) :=
  inferInstanceAs (Decidable (∃ q ∈ promotions,_))

def NextPromotionStep (p : Promotion) (head : Commit) (promotions : List Promotion) : PromotionStep :=
  if ¬Recorded p promotions ∧ head = p.previousHead then .record p
  else if Recorded p promotions ∧ head = p.previousHead then .move p.previousHead p.commit
  else if Recorded p promotions ∧ head = p.commit then .done
  else .diverged head

/-!
## The result branch and the record of promotions

The branch is one commit that others move too. A call of the daemon is split at each read and each effect:
it can be stopped there by a crash or an error, and others can move the branch there. The calls that look
at the branch exclude each other, so there is one at a time.
-/

def maxPromotionSteps : ℕ := 3

structure Carry where
  promotion : Promotion
  /-- How many more times it looks. -/
  left : ℕ := maxPromotionSteps
  recorded : Bool := false
  /-- How often others had moved the branch when it began, and when it last looked. -/
  since : ℕ
  seen : ℕ
  /-- How many records and moves it has made. -/
  records : ℕ := 0
  moves : ℕ := 0
  deriving DecidableEq

inductive Answer
  | settled (head : Commit)
  | decided (decision : PromotionDecision)
  | failed (failure : Failure)
  deriving DecidableEq

/-- What the settled head is for. -/
inductive Goal
  | settle
  | promote (commit : Commit)
  deriving DecidableEq

/-- Where the call is: what it does next, or what it returned. -/
inductive Call
  | none_
  | settling (goal : Goal)
  | found (goal : Goal) (head : Commit)
  | completing (goal : Goal) (from_ to_ : Commit)
  | deciding (commit head : Commit)
  | carrying (c : Carry)
  | looked (c : Carry) (head : Commit)
  | recording (c : Carry)
  | pushing (c : Carry) (from_ to_ : Commit)
  | returned (answer : Answer) (c : Option Carry)
  deriving DecidableEq

/-- The promotion that is carried out, or was when the call returned. -/
def Call.carry : Call → Option Carry
  | .carrying c => some c
  | .looked c _ => some c
  | .recording c => some c
  | .pushing c _ _ => some c
  | .returned _ c => c
  | _ => none

def Call.over : Call → Bool
  | .none_ => true
  | .returned _ _ => true
  | _ => false

structure Durable where
  branch : String
  head : Commit
  promotions : List Promotion := []
  /-- How often others moved the branch. -/
  others : ℕ := 0
  deriving DecidableEq

structure State extends Durable where
  call : Call := .none_
  deriving DecidableEq

inductive Act
  | move (to_ : Commit)
  | settle
  | promote (commit : Commit)
  | read
  | decide (results : List Result) (at_ : Time) (ahead : Except Failure Bool)
  | record (durable : Bool) (failure : Option Failure)
  | forward (moved : Bool) (failure : Option Failure)
  | fail (failure : Failure)
  | crash

/-- The failure of a promotion that is recorded while the branch has not moved. -/
def unmoved (commit : Commit) (branch : String) (f : Failure) : Failure :=
  let message := f.message
  { f with message := s!"the promotion of {commit} is recorded but the branch {branch} has not moved yet; it moves the next time the daemon looks at the branch: {message}" }

namespace Carry

def fail (c : Carry) (branch : String) (f : Failure) : Failure :=
  if c.recorded then unmoved c.promotion.commit branch f else f

def diverged (c : Carry) (branch : String) (head : Commit) : Failure :=
  let replaced := c.promotion.previousHead
  let promoted := c.promotion.commit
  c.fail branch (failf .conflict s!"the result branch {branch} is at {head}, which is neither the head {replaced} this promotion replaces nor the promoted commit {promoted}; someone moved it")

def unsettled (c : Carry) (branch : String) : Failure :=
  let promoted := c.promotion.commit
  c.fail branch (failf .internal s!"the promotion of {promoted} did not settle after {maxPromotionSteps} steps")

/-- The loop of `carryOut` goes round, if it has steps left. -/
def again (c : Carry) (branch : String) : Call :=
  if c.left = 0 then .returned (.failed (c.unsettled branch)) (some c) else .carrying c

end Carry

def Goal.at_ (goal : Goal) (head : Commit) : Call :=
  match goal with
  | .settle => .returned (.settled head) none
  | .promote commit => .deciding commit head

namespace State

/-- `FastForward`: the head after it, and its failure. The move may have been made when it fails. -/
def FastForward (s : State) (from_ to_ : Commit) (moved : Bool) (failure : Option Failure) : Commit × Option Failure :=
  let quoted := s.branch.quote
  let head := s.head
  if s.head = to_ then (s.head,failure)
  else if s.head ≠ from_ then (s.head,some (failf .conflict s!"branch {quoted} is at {head}, not {from_}"))
  else match failure with
    | none => (to_,none)
    | some f => (if moved then to_ else s.head,some f)

def decided (s : State) (commit head : Commit) (results : List Result) (at_ : Time) (ahead : Except Failure Bool) :
    Call :=
  match DecidePromotion { candidate := commit, head := head, results := results, promotions := s.promotions
                          relativeNoise := 0, at_ := at_ } with
  | .error f => .returned (.failed f) none
  | .ok (.refused reasons) => .returned (.decided (.refused reasons)) none
  | .ok (.approved p) =>
    match ahead with
    | .error f => .returned (.failed f) none
    | .ok false => .returned (.failed (failf .conflict s!"commit {commit} does not contain the result branch head {head}, so the branch cannot fast-forward to it; merge or rebase onto the head and measure it again")) none
    | .ok true => .carrying { promotion := p, since := s.others, seen := s.others }

/-- A read of the head or of the record, and the step that follows from it. -/
def read (s : State) : Call :=
  match s.call with
  | .settling goal => .found goal s.head
  | .found goal head =>
    match s.promotions.getLast? with
    | none => goal.at_ head
    | some last =>
      match NextPromotionStep last head s.promotions with
      | .move from_ to_ => .completing goal from_ to_
      | _ => goal.at_ head
  | .carrying c => .looked { c with left := c.left-1, seen := s.others } s.head
  | .looked c head =>
    match NextPromotionStep c.promotion head s.promotions with
    | .record _ => .recording c
    | .move from_ to_ => .pushing { c with recorded := true } from_ to_
    | .done => .returned (.decided (.approved c.promotion)) (some c)
    | .diverged _ => .returned (.failed (c.diverged s.branch head)) (some c)
  | call => call

def record (s : State) (durable : Bool) (failure : Option Failure) : State :=
  match s.call with
  | .recording c =>
    match failure with
    | none =>
      { s with promotions := s.promotions ++ [c.promotion]
               call := Carry.again { c with recorded := true, records := c.records+1 } s.branch }
    | some f =>
      { s with promotions := if durable then s.promotions ++ [c.promotion] else s.promotions
               call := .returned (.failed f) (some { c with records := c.records+1 }) }
  | _ => s

def forward (s : State) (moved : Bool) (failure : Option Failure) : State :=
  match s.call with
  | .completing goal from_ to_ =>
    let (head,failure) := s.FastForward from_ to_ moved failure
    { s with head := head
             call := match failure with
               | none => goal.at_ to_
               | some f => .returned (.failed f) none }
  | .pushing c from_ to_ =>
    let (head,failure) := s.FastForward from_ to_ moved failure
    let c := { c with moves := c.moves+1 }
    { s with head := head
             call := match failure with
               | none => c.again s.branch
               | some f => .returned (.failed (c.fail s.branch f)) (some c) }
  | _ => s

def fail (s : State) (f : Failure) : Call :=
  match s.call with
  | .settling _ => .returned (.failed f) none
  | .found _ _ => .returned (.failed f) none
  | .deciding _ _ => .returned (.failed f) none
  | .carrying c => .returned (.failed (c.fail s.branch f)) (some c)
  | .looked c _ => .returned (.failed (c.fail s.branch f)) (some c)
  | call => call

def step (s : State) : Act → State
  | .move to_ => { s with head := to_, others := s.others+1 }
  | .settle => if s.call.over then { s with call := .settling .settle } else s
  | .promote commit =>
    if s.call.over then
      let quoted := commit.quote
      { s with call := if Commit.Valid commit then .settling (.promote commit)
          else .returned (.failed (failf .invalidInput s!"commit: {quoted} is not a full 40-digit commit id")) none }
    else s
  | .read => { s with call := s.read }
  | .decide results at_ ahead =>
    match s.call with
    | .deciding commit head => { s with call := s.decided commit head results at_ ahead }
    | _ => s
  | .record durable failure => s.record durable failure
  | .forward moved failure => s.forward moved failure
  | .fail f => { s with call := s.fail f }
  | .crash => { s with call := .none_ }

end State
end Vibesys.Promotion
