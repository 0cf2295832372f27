import Vibesys.Lifecycle.Machine
import Vibesys.Schedule.Safety

/-!
# A step, as one job sees it

A step changes the entry of the job its event is about, and then whatever the scheduler starts. For
one job this is a change of what the machine holds of it: `Entry.handle` for an event about the job,
then `Scheduled` for the scheduler. The results about single jobs follow from these two.
-/
namespace Vibesys.Lifecycle
open Vibesys.Core Vibesys.Schedule Vibesys.Library

def Event.job : Event → Option Ref
  | .admitted e => some e.ref
  | .recovered e => some e.ref
  | .cancelAsked e => some e.ref
  | .discarded ref _ => some ref
  | .launched ref => some ref
  | .launchFailed e => some e.ref
  | .leaseRefused e => some e.ref
  | .finished e => some e.ref
  | .supervisorLost e => some e.ref
  | .followFailed e => some e.ref
  | .stopFailed ref _ => some ref
  | .cancelFailed ref => some ref
  | .moveFailed ref _ => some ref
  | .discardFailed ref _ => some ref
  | .retryDue ref => some ref
  | .closed ref => some ref
  | .requeued ref => some ref
  | .recoveryDone | .storeUnread _ _ | .storeRead _ | .storeForgotten _ => none

def requestsFor (r : Ref) (reqs : List Request) : List Request := reqs.filter fun q => q.Target = r

@[simp] lemma requestsFor_nil (r : Ref) : requestsFor r [] = [] := rfl

@[simp] lemma requestsFor_append (r : Ref) (a b : List Request) :
    requestsFor r (a ++ b) = requestsFor r a ++ requestsFor r b := List.filter_append ..

lemma requestsFor_of_target {r : Ref} {reqs : List Request} (h : ∀ q ∈ reqs, q.Target = r) :
    requestsFor r reqs = reqs :=
  List.filter_eq_self.mpr fun q hq => decide_eq_true (h q hq)

lemma requestsFor_of_ne {r r' : Ref} {reqs : List Request} (h : ∀ q ∈ reqs, q.Target = r') (hne : r' ≠ r) :
    requestsFor r reqs = [] := by
  refine List.filter_eq_nil_iff.mpr fun q hq => ?_
  rw [h q hq]
  simpa using hne

namespace Entry

attribute [grind =] Request.Target awaitRetry settle cancelQueuedJob unlessCancelled noteCancel signalOnce
  cancel cancelFailed discarded adoptRequest follow launched cancelLaunch spawnFailed launchFailed leaseRefused
  finished settleCut cutOff lookAgain lost requeued followFailed stopFailed moveFailed discardFailed rested
  retryDue doubted signalAlive inDoubt doubtUnlessGivenUp recoverRunning recoverEnded recoverQueuedAfresh recover
  recoverLeft adopt unwaited admitted judgeHold known told place

/-- An event about a job the machine may not hold does nothing to one it does not. -/
def onHeld (cur : Option Entry) (f : Entry → Entry × List Request) : Option Entry × List Request :=
  match cur with
  | some cur => (f cur).map some id
  | none => (none,[])

/-- What a look makes of a job, by the phase the machine has it in. -/
def lookedAt (resources : List Resource) (fresh : ℕ) (e : Recovered) : Option Entry → Option Entry × List Request
  | none => recover resources {} e fresh
  | some cur =>
    match cur.phase with
    | .queued =>
      if e.finding.job.any (fun f => f.state = .queued) then (cur.recoverQueuedAfresh e fresh).map some id
      else (some cur,[])
    | .inDoubt => cur.recover resources e fresh
    | .left => cur.recoverLeft e
    | .discarding | .launching | .running | .stopping | .settling | .cancelling | .unrecorded => (some cur,[])

/-- What an event about a job makes of what the machine holds of it, and what it asks for. -/
def handle (resources : List Resource) (fresh : ℕ) (cur : Option Entry) : Event → Option Entry × List Request
  | .admitted e => (some (cur.getD (admitted e fresh)),[])
  | .recovered e => lookedAt resources fresh e cur
  | .cancelAsked e =>
    if cur.isNone ∧ e.state ≠ .queued then (none,[])
    else ((cur.getD (admitted { ref := e.ref, submittedAt := e.submittedAt } fresh)).cancel e).map some id
  | .discarded _ at_ => onHeld cur fun cur => cur.discarded at_
  | .launched _ => onHeld cur fun cur => cur.launched resources
  | .launchFailed e => onHeld cur fun cur => cur.launchFailed e
  | .leaseRefused e => onHeld cur fun cur => cur.leaseRefused e
  | .finished e => onHeld cur fun cur => cur.finished e
  | .supervisorLost e => onHeld cur fun cur => cur.lost e
  | .followFailed e => onHeld cur fun cur => cur.followFailed e
  | .stopFailed _ failure => onHeld cur fun cur => cur.stopFailed failure
  | .cancelFailed _ => onHeld cur fun cur => cur.cancelFailed
  | .moveFailed _ failure => onHeld cur fun cur => cur.moveFailed failure
  | .discardFailed _ failure => onHeld cur fun cur => cur.discardFailed failure
  | .retryDue _ => onHeld cur fun cur => cur.retryDue
  | .closed _ => (none,[])
  | .requeued _ => onHeld cur fun cur => cur.requeued
  | .recoveryDone | .storeUnread _ _ | .storeRead _ | .storeForgotten _ => (cur,[])

attribute [grind =] onHeld Event.job

/-- What a look can make of a job that was not held, was queued or was in doubt. -/
inductive Look (resources : List Resource) (fresh : ℕ) (e : Recovered) (kept : Entry) :
    Option Entry × List Request → Prop
  | unseen (hfinding : e.finding = .storeAway) (hfresh : kept.seq = 0) (hrun : e.supervisor = .none_) :
      Look resources fresh e kept (none,[])
  | ended (haway : e.finding ≠ .storeAway)
      (hfinding : ∀ f, e.finding = .jobIn f → f.state ≠ .queued ∧ f.state ≠ .running) :
      Look resources fresh e kept (none,recoverEnded e)
  | queued {f : JobIn} (hfinding : e.finding = .jobIn f) (hstate : f.state = .queued)
      (hrun : e.supervisor = .none_) :
      Look resources fresh e kept (((kept.place e fresh .queued).unlessCancelled e.at_).map some id)
  | discarding {f : JobIn} (hfinding : e.finding = .jobIn f) (hstate : f.state = .queued)
      (hrun : (∃ phase limit, e.supervisor = .alive phase limit) ∨ ∃ proof start, e.supervisor = .dead proof start) :
      Look resources fresh e kept (some (kept.place e fresh .discarding),[.discard e.ref true])
  | parked {f : JobIn} {limit : Duration} (hfinding : e.finding = .jobIn f) (hstate : f.state = .running)
      (hrun : e.supervisor = .alive .parked limit) :
      Look resources fresh e kept (some { kept.place e fresh .inDoubt with
        parked := true, trouble := ⟨.unavailable,"its command waits for the machine"⟩ },[])
  | running {f : JobIn} {phase : RunPhase} {limit : Duration} (hfinding : e.finding = .jobIn f)
      (hstate : f.state = .running) (hrun : e.supervisor = .alive phase limit) (hphase : phase ≠ .parked) :
      Look resources fresh e kept (((kept.place e fresh .running).follow resources).map some id)
  | cut {f : JobIn} {proof : DeathProof} {start : Option Start} (hfinding : e.finding = .jobIn f)
      (hstate : f.state = .running) (hrun : e.supervisor = .dead proof start) (hproof : proof.Valid = true) :
      Look resources fresh e kept (((kept.place e fresh .running).cutOff proof start e.at_).map some id)
  | givenUp {f : JobIn} (hfinding : e.finding = .jobIn f) (hstate : f.state = .running)
      (hgiven : f.givenUp = true) (hpast : (kept.judgeHold e.supervisor e.at_).past e.at_ = true)
      (hrun : e.supervisor = .none_ ∨ (∃ limit, e.supervisor = .unknown limit) ∨
        ∃ proof start, e.supervisor = .dead proof start ∧ proof.Valid = false) :
      Look resources fresh e kept (((kept.place e fresh .running).settle (givenUpJob e.ref.job e.at_)).map some id)
  | inDoubt (hfinding : e.finding = .storeAway ∨ ∃ f, e.finding = .jobIn f ∧
        (f.state = .queued ∧ (∃ limit, e.supervisor = .unknown limit) ∨
          f.state = .running ∧ ¬aliveIn e.supervisor)) :
      Look resources fresh e kept ((kept.inDoubt e fresh).map some id)

variable {resources : List Resource} {fresh : ℕ} {e : Recovered} {kept : Entry}

lemma look_recoverQueuedAfresh {f : JobIn} (hfinding : e.finding = .jobIn f) (hstate : f.state = .queued) :
    Look resources fresh e kept ((kept.recoverQueuedAfresh e fresh).map some id) := by
  unfold recoverQueuedAfresh
  split
  case h_1 hrun => exact .queued hfinding hstate hrun
  case h_2 phase limit hrun => exact .discarding hfinding hstate (.inl ⟨phase,limit,hrun⟩)
  case h_3 proof start hrun => exact .discarding hfinding hstate (.inr ⟨proof,start,hrun⟩)
  case h_4 limit hrun => exact .inDoubt (.inr ⟨f,hfinding,.inl ⟨hstate,limit,hrun⟩⟩)

lemma look_doubtUnlessGivenUp {f : JobIn} (hfinding : e.finding = .jobIn f) (hstate : f.state = .running)
    (hrun : e.supervisor = .none_ ∨ (∃ limit, e.supervisor = .unknown limit) ∨
      ∃ proof start, e.supervisor = .dead proof start ∧ proof.Valid = false) :
    Look resources fresh e kept ((kept.doubtUnlessGivenUp e fresh).map some id) := by
  unfold doubtUnlessGivenUp
  split_ifs with h
  · obtain ⟨hgiven,hpast⟩ := Bool.and_eq_true_iff.mp h
    exact .givenUp hfinding hstate (by simpa [hfinding,Finding.job] using hgiven) hpast hrun
  · refine .inDoubt (.inr ⟨f,hfinding,.inr ⟨hstate,?_⟩⟩)
    rcases hrun with hrun | ⟨_,hrun⟩ | ⟨_,_,hrun,_⟩ <;> simp [hrun,aliveIn]

lemma look_recoverRunning {f : JobIn} (hfinding : e.finding = .jobIn f) (hstate : f.state = .running) :
    Look resources fresh e kept ((kept.recoverRunning resources e fresh).map some id) := by
  unfold recoverRunning
  split
  case h_1 limit hrun => exact .parked hfinding hstate hrun
  case h_2 phase limit hne hrun => exact .running hfinding hstate hrun hne
  case h_3 proof start hrun =>
    split_ifs with h
    · exact look_doubtUnlessGivenUp hfinding hstate (.inr (.inr ⟨proof,start,hrun,by simpa using h⟩))
    · exact .cut hfinding hstate hrun (by simpa using h)
  case h_4 hparked halive hdead =>
    refine look_doubtUnlessGivenUp hfinding hstate ?_
    cases hrun : e.supervisor with
    | none_ => exact .inl rfl
    | alive phase limit => exact absurd hrun (halive phase limit)
    | dead proof start => exact absurd hrun (hdead proof start)
    | unknown limit => exact .inr (.inl ⟨limit,rfl⟩)

theorem look_recover : Look resources fresh e kept (kept.recover resources e fresh) := by
  unfold recover
  split
  case h_1 f hfinding =>
    split
    case h_1 hstate => exact look_recoverQueuedAfresh hfinding hstate
    case h_2 hstate => exact look_recoverRunning hfinding hstate
    case h_3 hqueued hrunning =>
      refine .ended (by simp [hfinding]) fun f' hf' => ?_
      obtain rfl : f = f' := by simpa [hfinding] using hf'
      exact ⟨hqueued,hrunning⟩
  case h_2 hfinding => exact .ended (by simp [hfinding]) fun f hf => by simp [hfinding] at hf
  case h_3 hfinding =>
    split_ifs with h
    · exact .unseen hfinding h.2 h.1
    · exact .inDoubt (.inl hfinding)

/-- What a change makes of a job has the property: its entry, if it has one, and its requests. -/
def Ensures (P : Entry → Prop) (Q : Request → Prop) (x : Option Entry × List Request) : Prop :=
  (∀ c, x.1 = some c → P c) ∧ ∀ q ∈ x.2, Q q

attribute [grind =] Ensures

abbrev Keeps (r : Ref) : Option Entry × List Request → Prop := Ensures (fun c => c.ref = r) fun q => q.Target = r

lemma place_ref (h : kept.seq ≠ 0 → kept.ref = e.ref) (phase : Phase) : (kept.place e fresh phase).ref = e.ref := by
  grind

lemma Look.keeps {x : Option Entry × List Request} (hx : Look resources fresh e kept x)
    (h : kept.seq ≠ 0 → kept.ref = e.ref) : Keeps e.ref x := by
  have hplace : ∀ phase, (kept.place e fresh phase).ref = e.ref := place_ref h
  cases hx with
  | unseen => simp [Ensures]
  | ended => grind
  | queued => grind
  | discarding => grind
  | parked => grind
  | running => grind
  | cut => grind
  | givenUp => grind
  | inDoubt =>
    have : (kept.doubted e fresh).ref = e.ref := hplace .inDoubt
    grind

/-- What a look can make of a job, by the phase the machine has it in. -/
inductive LookedAt (resources : List Resource) (fresh : ℕ) (e : Recovered) :
    Option Entry → Option Entry × List Request → Prop
  | afresh {x : Option Entry × List Request} (h : Look resources fresh e {} x) :
      LookedAt resources fresh e none x
  | again {cur : Entry} {x : Option Entry × List Request} (hphase : cur.phase = .queued ∨ cur.phase = .inDoubt)
      (h : Look resources fresh e cur x) : LookedAt resources fresh e (some cur) x
  | left {cur : Entry} (hphase : cur.phase = .left) : LookedAt resources fresh e (some cur) (cur.recoverLeft e)
  | ignored {cur : Entry} (hphase : cur.phase ≠ .inDoubt ∧ cur.phase ≠ .left) :
      LookedAt resources fresh e (some cur) (some cur,[])

theorem lookedAt_cases (resources : List Resource) (fresh : ℕ) (e : Recovered) (cur : Option Entry) :
    LookedAt resources fresh e cur (lookedAt resources fresh e cur) := by
  cases cur with
  | none => exact .afresh look_recover
  | some cur =>
    simp only [lookedAt]
    split
    case h_1 hphase =>
      split_ifs with h
      · cases hf : e.finding with
        | jobIn f => exact .again (.inl hphase) (look_recoverQueuedAfresh hf (by simpa [hf,Finding.job] using h))
        | storeAway => simp [hf,Finding.job] at h
        | noSuchJob => simp [hf,Finding.job] at h
      · exact .ignored (by simp [hphase])
    case h_2 hphase => exact .again (.inr hphase) look_recover
    case h_3 hphase => exact .left hphase
    all_goals exact .ignored (by simp [*])

theorem handle_keeps {cur : Option Entry} {e : Event} {r : Ref} (he : e.job = some r)
    (hcur : ∀ c, cur = some c → c.ref = r) : Keeps r (handle resources fresh cur e) := by
  cases e with
  | recovered e =>
    obtain rfl : e.ref = r := by simpa [Event.job] using he
    have hx := lookedAt_cases resources fresh e cur
    rw [handle]
    generalize lookedAt resources fresh e cur = x at hx ⊢
    cases hx with
    | afresh h => exact h.keeps (by simp)
    | again hphase h => exact h.keeps fun _ => hcur _ rfl
    | left hphase => grind
    | ignored => exact ⟨hcur,by simp⟩
  | _ => cases cur <;> grind [handle]

end Entry

namespace State
open Entry

lemma ref_of_find {s : State} {r : Ref} {cur : Entry} (h : s.find r = some cur) : cur.ref = r :=
  Roster.key_of_find h

/-- The state after an event about a job holds of that job what `x` says, and of every other what
it held before. -/
def Changes (s : State) (ref : Ref) (x : Option Entry × List Request) (y : State × List Request) : Prop :=
  y.1.find ref = x.1 ∧ (∀ r, r ≠ ref → y.1.find r = s.find r) ∧ y.2 = x.2

lemma changes_self (s : State) (ref : Ref) : s.Changes ref (s.find ref,[]) (s,[]) := ⟨rfl,fun _ _ => rfl,rfl⟩

lemma changes_onJob {s : State} {ref : Ref} {f : Entry → Entry × List Request}
    (h : Keeps ref (onHeld (s.find ref) f)) : s.Changes ref (onHeld (s.find ref) f) (s.onJob ref f) := by
  unfold onJob
  cases hcur : s.find ref with
  | none => exact ⟨hcur,fun _ _ => rfl,rfl⟩
  | some cur =>
    rw [hcur] at h
    have href : (f cur).1.ref = ref := h.1 _ rfl
    refine ⟨?_,fun r hr => ?_,rfl⟩
    · have hput := Roster.find_put s.entries (f cur).1 ref
      rw [if_pos href,show s.entries.find ref = some cur from hcur] at hput
      exact hput
    · have hput := Roster.find_put s.entries (f cur).1 r
      rw [href,if_neg hr.symm] at hput
      exact hput

lemma changes_push {s s' : State} {ref : Ref} {cur : Entry} {reqs : List Request} (href : cur.ref = ref)
    (hs : ∀ r, r ≠ ref → s'.find r = s.find r) (seq : ℕ) :
    s.Changes ref (some cur,reqs) ({ s' with entries := s'.entries.push cur, seq := seq },reqs) := by
  refine ⟨?_,fun r hr => ?_,rfl⟩
  · exact (Roster.find_push s'.entries cur ref).trans (if_pos href)
  · refine (Roster.find_push s'.entries cur r).trans ?_
    rw [href,if_neg hr.symm]
    exact hs r hr

lemma find_remove (s : State) (ref r : Ref) : (s.remove ref).find r = if ref = r then none else s.find r :=
  Roster.find_remove s.entries ref r

lemma changes_remove (s : State) (ref : Ref) (reqs : List Request) :
    s.Changes ref (none,reqs) (s.remove ref,reqs) := by
  refine ⟨by simp [find_remove],fun r hr => ?_,rfl⟩
  rw [find_remove,if_neg hr.symm]

lemma changes_lookedAt {s s' : State} {ref : Ref} {kept : Entry} {x : Option Entry × List Request}
    (hx : Keeps ref x) (hself : s'.find ref = none) (hs : ∀ r, r ≠ ref → s'.find r = s.find r) :
    s.Changes ref x (s'.lookedAt kept x) := by
  obtain ⟨cur,reqs⟩ := x
  cases cur with
  | none => exact ⟨hself,hs,rfl⟩
  | some cur => exact changes_push (hx.1 cur rfl) hs _

lemma changes_recover (s : State) (e : Recovered) :
    s.Changes e.ref (Entry.lookedAt s.resources (s.seq+1) e (s.find e.ref)) (s.recover e) := by
  have hkeeps : Keeps e.ref (Entry.lookedAt s.resources (s.seq+1) e (s.find e.ref)) :=
    handle_keeps (e := .recovered e) rfl fun _ h => ref_of_find h
  have hremoved : (s.remove e.ref).find e.ref = none := by simp [find_remove]
  have hothers : ∀ r, r ≠ e.ref → (s.remove e.ref).find r = s.find r := fun r hr => by
    rw [find_remove,if_neg hr.symm]
  unfold recover
  cases hcur : s.find e.ref with
  | none =>
    rw [hcur] at hkeeps
    exact changes_lookedAt hkeeps hcur fun _ _ => rfl
  | some cur =>
    rw [hcur] at hkeeps
    simp only [Entry.lookedAt] at hkeeps ⊢
    have hself := s.changes_self e.ref
    rw [hcur] at hself
    split <;> rename_i hphase <;> simp only [hphase] at hkeeps ⊢
    · split_ifs with h
      · rw [if_pos h] at hkeeps
        exact changes_lookedAt hkeeps hremoved hothers
      · exact hself
    · exact changes_lookedAt hkeeps hremoved hothers
    · cases hleft : cur.recoverLeft e with
      | mk left reqs =>
        rw [hleft] at hkeeps
        cases left with
        | none => exact s.changes_remove e.ref reqs
        | some left =>
          have hput : s.Changes e.ref (onHeld (s.find e.ref) fun _ => (left,reqs)) _ :=
            changes_onJob (hcur ▸ hkeeps)
          rw [onJob,hcur] at hput
          exact hput
    all_goals exact hself

lemma changes_admitJob (s : State) (e : Admitted) :
    s.Changes e.ref (some ((s.find e.ref).getD (Entry.admitted e (s.seq+1))),[]) (s.admitJob e,[]) := by
  unfold admitJob
  cases hcur : s.find e.ref with
  | none => exact changes_push rfl (fun _ _ => rfl) _
  | some cur => exact ⟨hcur,fun _ _ => rfl,rfl⟩

lemma changes_cancel (s : State) (e : CancelAsked) :
    s.Changes e.ref (Entry.handle s.resources (s.seq+1) (s.find e.ref) (.cancelAsked e)) (s.cancel e) := by
  have hkeeps : Keeps e.ref (Entry.handle s.resources (s.seq+1) (s.find e.ref) (.cancelAsked e)) :=
    handle_keeps rfl fun _ h => ref_of_find h
  unfold cancel
  simp only [Entry.handle] at hkeeps ⊢
  split_ifs with h
  · have hself := s.changes_self e.ref
    rwa [Option.isNone_iff_eq_none.mp h.1] at hself
  · rw [if_neg h] at hkeeps
    obtain ⟨hcur,hothers,_⟩ := s.changes_admitJob { ref := e.ref, submittedAt := e.submittedAt }
    have hon : Keeps e.ref (onHeld ((s.admitJob { ref := e.ref, submittedAt := e.submittedAt }).find e.ref)
        fun cur => cur.cancel e) := by
      rw [hcur]
      exact hkeeps
    obtain ⟨hself,hrest,hreqs⟩ := changes_onJob hon
    rw [hcur] at hself hreqs
    exact ⟨hself,fun r hr => (hrest r hr).trans (hothers r hr),hreqs⟩

/-- An event about a job changes what the machine holds of it as `Entry.handle` says, and nothing
of any other job. -/
theorem changes_handle (s : State) {e : Event} {r : Ref} (he : e.job = some r) :
    s.Changes r (Entry.handle s.resources (s.seq+1) (s.find r) e) (s.handle e) := by
  have hkeeps : Keeps r (Entry.handle s.resources (s.seq+1) (s.find r) e) :=
    handle_keeps he fun _ h => ref_of_find h
  cases e with
  | admitted e => cases he; exact s.changes_admitJob e
  | recovered e => cases he; exact s.changes_recover e
  | cancelAsked e => cases he; exact s.changes_cancel e
  | closed => cases he; exact s.changes_remove _ []
  | recoveryDone => cases he
  | storeUnread => cases he
  | storeRead => cases he
  | storeForgotten => cases he
  | _ => cases he; exact changes_onJob hkeeps

/-- The entry of a job that was left when its store was given up. -/
structure Left (r : Ref) (cur : Entry) : Prop where
  ref : cur.ref = r
  seq : cur.seq ≠ 0
  phase : cur.phase = .left
  armed : cur.armed = true
  waiting : cur.waiting = true
  cancelAsked : cur.cancelAsked = false
  parked : cur.parked = false
  leased : cur.leased = none

/-- What is held of a job while its store is given up: nothing of it changes if its store is
another, and it is gone or left if it is not. -/
def Forgets (s : State) (e : StoreForgotten) (r : Ref) (x : State × List Request) : Prop :=
  if r.store = e.store then
    (x.1.find r = none ∧ requestsFor r x.2 = []) ∨
      ∃ cur, x.1.find r = some cur ∧ Left r cur ∧ requestsFor r x.2 = [.armRetry r]
  else x.1.find r = s.find r ∧ requestsFor r x.2 = []

lemma forgets_keepLeft {s : State} {e : StoreForgotten} {r : Ref} {x : State × List Request} {run : LeftRun}
    (h : s.Forgets e r x) (hstore : run.ref.store = e.store) (hnone : x.1.find run.ref = none) {was : Entry}
    (hseq : was.seq ≠ 0) (seq : ℕ) : s.Forgets e r (keepLeft x (was.leftOver run e.at_) seq) := by
  unfold keepLeft
  split_ifs with hholds
  · have hasks : (was.leftOver run e.at_).awaitRetry.2 = [.armRetry run.ref] := rfl
    have hfind : (x.1.entries.push (was.leftOver run e.at_).awaitRetry.1).find r =
        if run.ref = r then some (was.leftOver run e.at_).awaitRetry.1 else x.1.find r :=
      Roster.find_push ..
    by_cases hr : run.ref = r
    · subst hr
      rw [if_pos rfl] at hfind
      rw [Forgets,if_pos hstore] at h ⊢
      have hold : requestsFor run.ref x.2 = [] := by
        rcases h with ⟨_,h⟩ | ⟨cur,hcur,_⟩
        · exact h
        · simp [hcur] at hnone
      refine .inr ⟨_,hfind,⟨rfl,hseq,rfl,rfl,rfl,rfl,rfl,rfl⟩,?_⟩
      rw [requestsFor_append,hold,hasks]
      simp [requestsFor,Request.Target]
    · have hothers : requestsFor r [.armRetry run.ref] = [] := by simp [requestsFor,Request.Target,hr]
      have hsame : (keepLeft x (was.leftOver run e.at_) seq).1.find r = x.1.find r := by
        rw [keepLeft,if_pos hholds]
        exact hfind.trans (if_neg hr)
      rw [keepLeft,if_pos hholds] at hsame
      unfold Forgets at h ⊢
      rw [requestsFor_append,hasks,hothers,List.append_nil,hsame]
      exact h
  · exact h

lemma forgets_leave {s : State} {e : StoreForgotten} {r : Ref} {was : Roster Entry.ref}
    (hwas : ∀ ref cur, was.find ref = some cur → cur.seq ≠ 0) {x : State × List Request}
    (h : s.Forgets e r x) (run : LeftRun) : s.Forgets e r (leave was e x run) := by
  unfold leave
  split_ifs with hskip
  · exact h
  obtain ⟨hstore,hnone⟩ := not_or.mp hskip
  have hnone : x.1.find run.ref = none := by simpa using hnone
  cases hknown : was.find run.ref with
  | none => exact forgets_keepLeft h (not_not.mp hstore) hnone (by simp) _
  | some cur => exact forgets_keepLeft h (not_not.mp hstore) hnone (hwas _ cur hknown) _

/-- Every entry came in with a sequence number, which counts from one. -/
def Numbered (s : State) : Prop := ∀ r cur, s.find r = some cur → cur.seq ≠ 0

theorem forgets_forgotten {s : State} (hs : s.Numbered) (e : StoreForgotten) (r : Ref) :
    s.Forgets e r (s.forgotten e) := by
  have hwas : ∀ ref cur, (s.entries.filter fun cur => cur.ref.store = e.store).find ref = some cur →
      cur.seq ≠ 0 := by
    intro ref cur hcur
    rw [Roster.find_filter,Option.filter_eq_some_iff] at hcur
    exact hs ref cur hcur.1
  have hfold : ∀ (left : List LeftRun) x, s.Forgets e r x →
      s.Forgets e r (left.foldl (leave (s.entries.filter fun cur => cur.ref.store = e.store) e) x) := by
    intro left
    induction left with
    | nil => exact fun x h => h
    | cons run left ih => exact fun x h => ih _ (forgets_leave hwas h run)
  refine hfold e.left _ ?_
  have hfind := Roster.find_filter s.entries (fun cur => cur.ref.store ≠ e.store) r
  have hcases : s.entries.find r = none ∨ ∃ cur, s.entries.find r = some cur ∧ cur.ref = r := by
    cases hcur : s.entries.find r with
    | none => exact .inl rfl
    | some cur => exact .inr ⟨cur,rfl,Roster.key_of_find hcur⟩
  unfold Forgets
  split_ifs with hstore
  · refine .inl ⟨hfind.trans ?_,rfl⟩
    rcases hcases with hcur | ⟨cur,hcur,href⟩
    · simp [hcur]
    · simp [hcur,Option.filter,href,hstore]
  · refine ⟨hfind.trans ?_,rfl⟩
    rcases hcases with hcur | ⟨cur,hcur,href⟩
    · simp [hcur,find]
    · simp [hcur,Option.filter,href,hstore,find]

end State
end Vibesys.Lifecycle
