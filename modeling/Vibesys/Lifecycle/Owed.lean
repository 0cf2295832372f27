import Vibesys.Lifecycle.Runs

/-!
# Every wait is owed an answer

The shell around the machine is a multiset of requests in flight. Each is answered at most once, by
an event that answers it, and other events come unasked. In every state the machine and its shell
reach, each job the machine holds waits for an answer to a request in flight, for a retry that is
armed, or for its turn.
-/
namespace Vibesys.Lifecycle
open Vibesys.Core Vibesys.Schedule Vibesys.Library

/-- The events by which the shell may answer a request. -/
def Answers : Request → Event → Prop
  | .launch ref _ _,.launched r => r = ref
  | .launch ref _ _,.launchFailed e => e.ref = ref
  | .launch ref _ _,.leaseRefused e => e.ref = ref
  | .launch ref _ _,.closed r => r = ref
  | .adopt ref _ _ _,.finished e => e.ref = ref
  | .adopt ref _ _ _,.supervisorLost e => e.ref = ref
  | .adopt ref _ _ _,.followFailed e => e.ref = ref
  | .stop ref _,.finished e => e.ref = ref
  | .stop ref _,.supervisorLost e => e.ref = ref
  | .stop ref _,.stopFailed r _ => r = ref
  | .move ref _ _,.closed r => r = ref
  | .move ref _ _,.moveFailed r _ => r = ref
  | .move ref settlement _,.requeued r => r = ref ∧ settlement.Requeues = true
  | .discard ref _,.discarded r _ => r = ref
  | .discard ref _,.closed r => r = ref
  | .discard ref _,.discardFailed r _ => r = ref
  | .reexamine ref,.recovered e => e.ref = ref
  | .armRetry ref,.retryDue r => r = ref
  | .signalCancel ref _,.cancelFailed r => r = ref
  | _,_ => False

/-- The events that answer no request. -/
def Unsolicited : Event → Prop
  | .admitted _ | .cancelAsked _ | .recovered _ | .storeUnread _ _ | .storeRead _ | .recoveryDone
  | .storeForgotten _ => True
  | _ => False

lemma Answers.job {q : Request} {e : Event} (h : Answers q e) : e.job = some q.Target := by
  cases q <;> cases e <;> simp_all [Answers,Event.job,Request.Target]

structure Shell where
  machine : State
  pending : Multiset Request

namespace Shell

def tell (w : Shell) (pending : Multiset Request) (e : Event) : Shell where
  machine := next w.machine e
  pending := pending + (Step w.machine e).2

inductive Move : Shell → Shell → Prop
  | answer (w : Shell) (q : Request) (e : Event) (hq : q ∈ w.pending) (h : Answers q e) :
      Move w (w.tell (w.pending.erase q) e)
  | delivered (w : Shell) (ref : Ref) (reason : String) (hq : .signalCancel ref reason ∈ w.pending) :
      Move w { w with pending := w.pending.erase (.signalCancel ref reason) }
  | event (w : Shell) (e : Event) (h : Unsolicited e) : Move w (w.tell w.pending e)

def start (sc : Scheduling) : Shell := ⟨RecoveringWith sc,0⟩

def Reachable (sc : Scheduling) (w : Shell) : Prop := Relation.ReflTransGen Move (start sc) w

end Shell

namespace Entry

/-- The requests whose answer takes the entry out of its phase. -/
def Awaits (cur : Entry) : Request → Prop
  | .launch ref _ _ => cur.phase = .launching ∧ ref = cur.ref
  | .adopt ref _ _ _ => cur.phase = .running ∧ ref = cur.ref
  | .stop ref _ => cur.phase = .stopping ∧ ref = cur.ref
  | .move ref settlement release =>
    (cur.phase = .settling ∨ (cur.phase = .cancelling ∧ settlement.Requeues = false) ∨ cur.phase = .unrecorded) ∧
      ref = cur.ref ∧ settlement = cur.settlement ∧ release = cur.release
  | .discard ref _ => cur.phase = .discarding ∧ ref = cur.ref
  | .reexamine ref => (cur.phase = .inDoubt ∨ cur.phase = .left) ∧ ref = cur.ref
  | .armRetry _ | .signalCancel _ _ => False

/-- A retry is armed that repeats what the entry waits for. -/
def Retries (cur : Entry) : Prop :=
  (cur.phase = .discarding ∨ cur.phase = .unrecorded ∨ cur.phase = .inDoubt ∨ cur.phase = .left) ∧
    cur.armed = true ∧ cur.waiting = true

/-- A queued or a parked job waits for its turn. -/
def TakesTurn (cur : Entry) : Prop := cur.phase = .queued ∨ (cur.phase = .inDoubt ∧ cur.parked = true)

/-- The entry waits for something that is coming, and a retry that is armed is on its way. -/
structure Owed (pending : Request → Prop) (cur : Entry) : Prop where
  waits : cur.TakesTurn ∨ cur.Retries ∨ ∃ q, cur.Awaits q ∧ pending q
  armed : cur.armed = true → pending (.armRetry cur.ref)

lemma Awaits.target {cur : Entry} {q : Request} (h : cur.Awaits q) : q.Target = cur.ref := by
  cases q <;> simp_all [Awaits,Request.Target]

lemma Owed.mono {p p' : Request → Prop} {cur : Entry} (h : cur.Owed p)
    (hp : ∀ q, q.Target = cur.ref → p q → p' q) : cur.Owed p' := by
  refine ⟨?_,fun harmed => hp _ rfl (h.armed harmed)⟩
  rcases h.waits with hturn | hretry | ⟨q,hq,hpending⟩
  · exact .inl hturn
  · exact .inr (.inl hretry)
  · exact .inr (.inr ⟨q,hq,hp q hq.target hpending⟩)

/-- The entry a change leaves is owed what is still in flight or what the change asks for. -/
def Delivers (pending : Request → Prop) (x : Entry × List Request) : Prop :=
  x.1.Owed fun q => pending q ∨ q ∈ x.2

section Delivers
variable {p : Request → Prop} {cur : Entry}

lemma delivers_of_asks {x : Entry × List Request} (harmed : x.1.armed = true → p (.armRetry x.1.ref))
    {q : Request} (hq : q ∈ x.2) (hwaits : x.1.Awaits q) : Delivers p x :=
  ⟨.inr (.inr ⟨q,hwaits,.inr hq⟩),fun h => .inl (harmed h)⟩

lemma delivers_of_turn {x : Entry × List Request} (harmed : x.1.armed = true → p (.armRetry x.1.ref))
    (h : x.1.TakesTurn) : Delivers p x :=
  ⟨.inl h,fun h => .inl (harmed h)⟩

lemma delivers_self (h : cur.Owed p) (reqs : List Request) : Delivers p (cur,reqs) := h.mono fun _ _ => .inl

lemma armed_awaitRetry (harmed : cur.armed = true → p (.armRetry cur.ref)) :
    p (.armRetry cur.ref) ∨ .armRetry cur.ref ∈ cur.awaitRetry.2 := by
  by_cases h : cur.armed = true
  · exact .inl (harmed h)
  · exact .inr (by simp [awaitRetry,h])

lemma delivers_awaitRetry (harmed : cur.armed = true → p (.armRetry cur.ref))
    (hphase : cur.phase = .discarding ∨ cur.phase = .unrecorded ∨ cur.phase = .inDoubt ∨ cur.phase = .left) :
    Delivers p cur.awaitRetry :=
  ⟨.inr (.inl ⟨hphase,rfl,rfl⟩),fun _ => armed_awaitRetry harmed⟩

lemma Owed.awaitRetry (h : cur.Owed p) : Delivers p cur.awaitRetry := by
  refine ⟨?_,fun _ => armed_awaitRetry h.armed⟩
  rcases h.waits with hturn | hretry | ⟨q,hq,hpending⟩
  · exact .inl hturn
  · exact .inr (.inl ⟨hretry.1,rfl,rfl⟩)
  · exact .inr (.inr ⟨q,by cases q <;> exact hq,.inl hpending⟩)

variable (harmed : cur.armed = true → p (.armRetry cur.ref))
include harmed

lemma delivers_settle (st : Settlement) : Delivers p (cur.settle st) :=
  delivers_of_asks harmed List.mem_cons_self (by simp [settle,Awaits])

lemma delivers_cancelQueuedJob (at_ : Time) : Delivers p (cur.cancelQueuedJob at_) :=
  delivers_of_asks harmed List.mem_cons_self (by simp [cancelQueuedJob,Awaits])

lemma delivers_settleCut (st : Settlement) : Delivers p (cur.settleCut st) := by
  unfold settleCut
  split_ifs
  · exact delivers_of_asks harmed List.mem_cons_self (by simp [Awaits])
  · exact delivers_settle harmed st

lemma delivers_cutOff (proof : DeathProof) (start : Option Start) (at_ : Time) :
    Delivers p (cur.cutOff proof start at_) := by
  unfold cutOff
  split_ifs
  · exact delivers_settle harmed _
  · exact delivers_settleCut harmed _

lemma delivers_lookAgain (trouble : Failure) : Delivers p (cur.lookAgain trouble) :=
  delivers_of_asks harmed List.mem_cons_self (by simp [lookAgain,Awaits])

lemma delivers_follow (hphase : cur.phase = .running) (resources : List Resource) :
    Delivers p (cur.follow resources) :=
  delivers_of_asks harmed List.mem_cons_self (by simp [follow,adoptRequest,Awaits,hphase])

lemma delivers_unlessCancelled (hphase : cur.phase = .queued) (at_ : Time) : Delivers p (cur.unlessCancelled at_) := by
  unfold unlessCancelled
  split_ifs
  · exact delivers_cancelQueuedJob harmed at_
  · exact delivers_of_turn harmed (.inl hphase)

end Delivers

lemma Owed.congr {p : Request → Prop} {cur cur' : Entry} (h : cur.Owed p)
    (heq : (cur'.ref,cur'.phase,cur'.settlement,cur'.release,cur'.armed,cur'.waiting,cur'.parked) =
      (cur.ref,cur.phase,cur.settlement,cur.release,cur.armed,cur.waiting,cur.parked)) : cur'.Owed p := by
  simp only [Prod.mk.injEq] at heq
  obtain ⟨href,hphase,hsettlement,hrelease,harmed,hwaiting,hparked⟩ := heq
  have hawaits : ∀ q, cur.Awaits q → cur'.Awaits q := by
    intro q hq
    cases q <;> grind [Awaits]
  refine ⟨?_,by rw [harmed,href]; exact h.armed⟩
  rcases h.waits with hturn | hretry | ⟨q,hq,hpending⟩
  · exact .inl (by rw [TakesTurn,hphase,hparked]; exact hturn)
  · exact .inr (.inl (by rw [Retries,hphase,harmed,hwaiting]; exact hretry))
  · exact .inr (.inr ⟨q,hawaits q hq,hpending⟩)

lemma Owed.noteCancel {p : Request → Prop} {cur : Entry} (h : cur.Owed p) (reason : String) :
    (cur.noteCancel reason).Owed p := by
  unfold Entry.noteCancel
  split_ifs
  · exact h
  · exact h.congr rfl

lemma Owed.signalOnce {p : Request → Prop} {cur : Entry} (h : cur.Owed p) : Delivers p cur.signalOnce := by
  unfold Entry.signalOnce
  split_ifs
  · exact delivers_self h _
  · refine delivers_self ?_ _
    exact h.congr rfl

lemma Owed.signalAlive {p : Request → Prop} {cur : Entry} (h : cur.Owed p) (presence : Presence) :
    Delivers p (cur.signalAlive presence) := by
  unfold Entry.signalAlive
  split_ifs
  · exact h.signalOnce
  · exact delivers_self h _

def answered : Event → List Phase
  | .launched _ | .launchFailed _ | .leaseRefused _ => [.launching]
  | .finished _ | .supervisorLost _ => [.running,.stopping]
  | .followFailed _ => [.running]
  | .stopFailed _ _ => [.stopping]
  | .moveFailed _ _ | .requeued _ => [.settling,.cancelling,.unrecorded]
  | .discarded _ _ | .discardFailed _ _ => [.discarding]
  | .recovered _ => [.inDoubt,.left]
  | .closed _ => [.launching,.settling,.cancelling,.unrecorded,.discarding]
  | _ => []

lemma Awaits.answered {cur : Entry} {q : Request} {e : Event} (hq : cur.Awaits q) (h : Answers q e) :
    cur.phase ∈ answered e := by
  cases q with
  | launch => cases e <;> first | exact h.elim | simp [Entry.answered,hq.1]
  | adopt => cases e <;> first | exact h.elim | simp [Entry.answered,hq.1]
  | stop => cases e <;> first | exact h.elim | simp [Entry.answered,hq.1]
  | move => cases e <;> first | exact h.elim | (rcases hq.1 with hp | ⟨hp,_⟩ | hp <;> simp [Entry.answered,hp])
  | discard => cases e <;> first | exact h.elim | simp [Entry.answered,hq.1]
  | reexamine => cases e <;> first | exact h.elim | (rcases hq.1 with hp | hp <;> simp [Entry.answered,hp])
  | armRetry => exact hq.elim
  | signalCancel => exact hq.elim

section Handlers
variable {p p' : Request → Prop} {cur : Entry} {e : Event} (hp : ∀ q, p q → p' q ∨ Answers q e)
  (h : cur.Owed p)
include hp h

lemma armed_keep (hretry : ∀ r, e ≠ .retryDue r) (ha : cur.armed = true) : p' (.armRetry cur.ref) := by
  refine (hp _ (h.armed ha)).resolve_right fun hans => ?_
  cases e with
  | retryDue r => exact hretry r rfl
  | _ => exact hans

lemma owed_keep (hphase : cur.phase ∉ answered e) (hretry : ∀ r, e ≠ .retryDue r) : cur.Owed p' := by
  refine ⟨?_,armed_keep hp h hretry⟩
  rcases h.waits with hturn | hretry | ⟨q,hq,hpending⟩
  · exact .inl hturn
  · exact .inr (.inl hretry)
  · exact .inr (.inr ⟨q,hq,(hp q hpending).resolve_right fun ha => hphase (hq.answered ha)⟩)

end Handlers

section Changes
variable {p p' : Request → Prop} {cur : Entry}

lemma delivers_cancel (h : cur.Owed p) (e : CancelAsked) : Delivers p (cur.cancel e) := by
  unfold cancel
  split
  · refine delivers_cancelQueuedJob ?_ e.at_
    exact h.armed
  · exact delivers_self (h.noteCancel _) _
  · exact delivers_self (h.noteCancel _) _
  · exact delivers_self (h.noteCancel _) _
  · exact (h.noteCancel _).signalOnce
  · split_ifs
    · exact delivers_self (h.noteCancel _) _
    · exact delivers_self h _
  · split_ifs
    · exact delivers_self (h.noteCancel _) _
    · exact delivers_self h _
  all_goals exact delivers_self h _

lemma delivers_discarded {ref : Ref} {at_ : Time} (hp : ∀ q, p q → p' q ∨ Answers q (.discarded ref at_))
    (h : cur.Owed p) : Delivers p' (cur.discarded at_) := by
  have harmed := armed_keep hp h (by simp)
  unfold discarded
  split_ifs with hphase
  · refine delivers_unlessCancelled ?_ rfl at_
    exact harmed
  · exact delivers_self (owed_keep hp h (by simpa [answered] using hphase) (by simp)) _

lemma delivers_launched {ref : Ref} (hp : ∀ q, p q → p' q ∨ Answers q (.launched ref)) (h : cur.Owed p)
    (resources : List Resource) : Delivers p' (cur.launched resources) := by
  have harmed := armed_keep hp h (by simp)
  unfold launched
  split_ifs with hphase
  · refine delivers_follow ?_ rfl resources
    exact harmed
  · exact delivers_self (owed_keep hp h (by simpa [answered] using hphase) (by simp)) _

lemma delivers_launchFailed {e : LaunchFailed} (hp : ∀ q, p q → p' q ∨ Answers q (.launchFailed e))
    (h : cur.Owed p) (href : e.ref = cur.ref) : Delivers p' (cur.launchFailed e) := by
  have harmed := armed_keep hp h (by simp)
  unfold launchFailed
  split_ifs with hphase
  · exact delivers_self (owed_keep hp h (by simpa [answered] using hphase) (by simp)) _
  · exact delivers_settle harmed _
  · split
    · refine delivers_awaitRetry ?_ (.inr (.inr (.inl rfl)))
      exact harmed
    · unfold spawnFailed
      split_ifs
      · exact delivers_of_asks harmed List.mem_cons_self ⟨rfl,href⟩
      · refine delivers_settle ?_ _
        exact harmed
    · exact delivers_settle harmed _
    · exact delivers_settle harmed _

lemma delivers_leaseRefused {e : LeaseRefused} (hp : ∀ q, p q → p' q ∨ Answers q (.leaseRefused e))
    (h : cur.Owed p) : Delivers p' (cur.leaseRefused e) := by
  have harmed := armed_keep hp h (by simp)
  unfold leaseRefused
  split_ifs with hphase
  · exact delivers_self (owed_keep hp h (by simpa [answered] using hphase) (by simp)) _
  · exact delivers_settle harmed _
  · refine Owed.awaitRetry ⟨.inl (.inl rfl),?_⟩
    exact harmed

lemma delivers_finished {e : Finished} (hp : ∀ q, p q → p' q ∨ Answers q (.finished e)) (h : cur.Owed p) :
    Delivers p' (cur.finished e) := by
  have harmed := armed_keep hp h (by simp)
  unfold finished
  split
  · exact delivers_settle harmed _
  · exact delivers_settle harmed _
  case h_3 hrunning hstopping =>
    exact delivers_self (owed_keep hp h (by simpa [answered] using ⟨hrunning,hstopping⟩) (by simp)) _

lemma delivers_lost {e : SupervisorLost} (hp : ∀ q, p q → p' q ∨ Answers q (.supervisorLost e)) (h : cur.Owed p) :
    Delivers p' (cur.lost e) := by
  have harmed := armed_keep hp h (by simp)
  unfold lost
  split_ifs with hphase
  · exact delivers_self (owed_keep hp h (by simpa [answered] using hphase) (by simp)) _
  · exact delivers_lookAgain harmed _
  · exact delivers_settle harmed _
  · exact delivers_cutOff harmed _ _ _

lemma delivers_followFailed {e : FollowFailed} (hp : ∀ q, p q → p' q ∨ Answers q (.followFailed e))
    (h : cur.Owed p) (href : e.ref = cur.ref) : Delivers p' (cur.followFailed e) := by
  have harmed := armed_keep hp h (by simp)
  unfold followFailed
  split_ifs with hphase
  · exact delivers_self (owed_keep hp h (by simpa [answered] using hphase) (by simp)) _
  · exact delivers_lookAgain harmed _
  · exact delivers_of_asks harmed List.mem_cons_self ⟨rfl,href⟩

lemma delivers_stopFailed {ref : Ref} {f : Failure} (hp : ∀ q, p q → p' q ∨ Answers q (.stopFailed ref f))
    (h : cur.Owed p) : Delivers p' (cur.stopFailed f) := by
  have harmed := armed_keep hp h (by simp)
  unfold stopFailed
  split_ifs with hphase
  · refine delivers_awaitRetry ?_ (.inr (.inr (.inl rfl)))
    exact harmed
  · exact delivers_self (owed_keep hp h (by simpa [answered] using hphase) (by simp)) _

lemma delivers_cancelFailed {ref : Ref} (hp : ∀ q, p q → p' q ∨ Answers q (.cancelFailed ref)) (h : cur.Owed p) :
    Delivers p' cur.cancelFailed := by
  have hkeep := owed_keep hp h (by simp [answered]) (by simp)
  unfold cancelFailed
  split_ifs with hphase
  · refine Owed.awaitRetry ?_
    exact hkeep.congr rfl
  · exact delivers_self hkeep _

lemma delivers_moveFailed {ref : Ref} {f : Failure} (hp : ∀ q, p q → p' q ∨ Answers q (.moveFailed ref f))
    (h : cur.Owed p) : Delivers p' (cur.moveFailed f) := by
  have harmed := armed_keep hp h (by simp)
  unfold moveFailed
  split
  case h_4 h₁ h₂ h₃ => exact delivers_self (owed_keep hp h (by simpa [answered] using ⟨h₁,h₂,h₃⟩) (by simp)) _
  all_goals
    refine delivers_awaitRetry ?_ (.inr (.inl rfl))
    exact harmed

lemma delivers_discardFailed {ref : Ref} {f : Failure} (hp : ∀ q, p q → p' q ∨ Answers q (.discardFailed ref f))
    (h : cur.Owed p) : Delivers p' (cur.discardFailed f) := by
  have harmed := armed_keep hp h (by simp)
  unfold discardFailed
  split_ifs with hphase
  · refine delivers_awaitRetry ?_ (.inl hphase)
    exact harmed
  · exact delivers_self (owed_keep hp h (by simpa [answered] using hphase) (by simp)) _

lemma delivers_requeued {ref : Ref} (hp : ∀ q, p q → p' q ∨ Answers q (.requeued ref)) (h : cur.Owed p) :
    Delivers p' cur.requeued := by
  have harmed := armed_keep hp h (by simp)
  unfold requeued
  split_ifs with hphase
  · exact delivers_of_asks harmed List.mem_cons_self ⟨rfl,rfl⟩
  · refine delivers_self ⟨?_,harmed⟩ _
    rcases h.waits with hturn | hretry | ⟨q,hq,hpending⟩
    · exact .inl hturn
    · exact .inr (.inl hretry)
    · refine .inr (.inr ⟨q,hq,(hp q hpending).resolve_right fun hans => hphase ?_⟩)
      cases q with
      | move ref' settlement release =>
        obtain ⟨hphases,_,rfl,_⟩ := hq
        refine ⟨hans.2,?_⟩
        rcases hphases with hs | ⟨_,hno⟩ | hu
        · exact .inl hs
        · simp [hans.2] at hno
        · exact .inr hu
      | _ => exact hans.elim

lemma owed_rested {ref : Ref} (hp : ∀ q, p q → p' q ∨ Answers q (.retryDue ref)) (h : cur.Owed p)
    (hretry : ¬cur.Retries) : cur.rested.Owed p' := by
  refine ⟨?_,fun ha => by cases ha⟩
  rcases h.waits with hturn | hretries | ⟨q,hq,hpending⟩
  · exact .inl hturn
  · exact absurd hretries hretry
  · refine .inr (.inr ⟨q,by cases q <;> exact hq,(hp q hpending).resolve_right fun hans => ?_⟩)
    have := hq.answered hans
    simp [answered] at this

lemma delivers_retryDue {ref : Ref} (hp : ∀ q, p q → p' q ∨ Answers q (.retryDue ref)) (h : cur.Owed p) :
    Delivers p' cur.retryDue := by
  have hask : ∀ q, cur.rested.Awaits q → Delivers p' (cur.rested,[q]) := fun q hq =>
    delivers_of_asks (fun ha => by cases ha) List.mem_cons_self hq
  unfold retryDue
  split
  case isTrue hwaiting =>
    refine delivers_self (owed_rested hp h ?_) _
    rintro ⟨_,_,hw⟩
    simp [hw] at hwaiting
  · split
    case h_1 hphase => exact hask _ (by simp [Awaits,rested,hphase])
    case h_2 hphase => exact hask _ (by simp [Awaits,rested,hphase])
    case h_3 hphase => exact hask _ (by simp [Awaits,rested,hphase])
    case h_4 hphase => exact hask _ (by simp [Awaits,rested,hphase])
    case h_5 hphase =>
      have hrested := owed_rested hp h (by simp [Retries,hphase])
      split
      · exact hrested.signalOnce
      · exact delivers_self hrested _
    case h_6 hphase => exact delivers_of_turn (fun ha => by cases ha) (.inl hphase)
    all_goals
      rename_i hphase
      exact delivers_self (owed_rested hp h (by simp [Retries,hphase])) _

lemma Look.delivers {resources : List Resource} {fresh : ℕ} {e : Recovered} {kept c : Entry}
    {x : Option Entry × List Request} (hx : Look resources fresh e kept x) (hc : x.1 = some c)
    (href : kept.seq ≠ 0 → kept.ref = e.ref) (harmed : kept.seq ≠ 0 → kept.armed = true → p (.armRetry e.ref)) :
    Delivers p (c,x.2) := by
  have hplaceref : ∀ phase, (kept.place e fresh phase).ref = e.ref := place_ref href
  have hplace : ∀ phase, (kept.place e fresh phase).armed = true → p (.armRetry (kept.place e fresh phase).ref) := by
    intro phase ha
    rw [hplaceref]
    by_cases hseq : kept.seq = 0
    · simp [place,known,hseq,told] at ha
    · exact harmed hseq (by simpa [place,known,hseq,told] using ha)
  cases hx with
  | unseen => cases hc
  | ended => cases hc
  | queued => cases hc; exact delivers_unlessCancelled (hplace _) rfl _
  | discarding => cases hc; exact delivers_of_asks (hplace _) List.mem_cons_self ⟨rfl,(hplaceref _).symm⟩
  | parked => cases hc; exact delivers_of_turn (hplace .inDoubt) (.inr ⟨rfl,rfl⟩)
  | running => cases hc; exact delivers_follow (hplace _) rfl _
  | cut => cases hc; exact delivers_cutOff (hplace _) _ _ _
  | givenUp => cases hc; exact delivers_settle (hplace _) _
  | inDoubt =>
    cases hc
    have hwaits : Delivers p (kept.doubted e fresh).awaitRetry := by
      refine delivers_awaitRetry ?_ (.inr (.inr (.inl rfl)))
      exact hplace .inDoubt
    refine (Owed.signalAlive hwaits e.supervisor).mono fun q _ hq => ?_
    rcases hq with (hq | hq) | hq
    · exact .inl hq
    · exact .inr (List.mem_append_left _ hq)
    · exact .inr (List.mem_append_right _ hq)

lemma LookedAt.delivers {resources : List Resource} {fresh : ℕ} {e : Recovered} {cur : Option Entry} {c : Entry}
    {x : Option Entry × List Request} (hx : LookedAt resources fresh e cur x) (hc : x.1 = some c)
    (hp : ∀ q, p q → p' q ∨ Answers q (.recovered e))
    (h : ∀ cur', cur = some cur' → cur'.ref = e.ref ∧ cur'.Owed p) : Delivers p' (c,x.2) := by
  cases hx with
  | afresh hx => exact hx.delivers hc (by simp) (by simp)
  | again hphase hx =>
    obtain ⟨href,howed⟩ := h _ rfl
    exact hx.delivers hc (fun _ => href) fun _ => href ▸ armed_keep hp howed (by simp)
  | @left cur hphase =>
    obtain ⟨href,howed⟩ := h _ rfl
    have harmed := armed_keep hp howed (by simp)
    unfold recoverLeft at hc ⊢
    split_ifs at hc ⊢ with hholds
    cases hc
    refine delivers_awaitRetry ?_ (.inr (.inr (.inr hphase)))
    exact harmed
  | ignored hphase =>
    cases hc
    exact delivers_self (owed_keep hp (h _ rfl).2 (by simpa [answered] using hphase) (by simp)) _

lemma delivers_onHeld {f : Entry → Entry × List Request} {r : Ref} {cur : Option Entry} {c : Entry}
    (h : ∀ cur', cur = some cur' → cur'.ref = r ∧ cur'.Owed p) (hc : (onHeld cur f).1 = some c)
    (hf : ∀ cur', cur'.ref = r → cur'.Owed p → Delivers p' (f cur')) : Delivers p' (c,(onHeld cur f).2) := by
  cases cur with
  | none => cases hc
  | some cur =>
    cases hc
    exact hf cur (h cur rfl).1 (h cur rfl).2

lemma owed_admitted (e : Admitted) (seq : ℕ) : (admitted e seq).Owed p := ⟨.inl (.inl rfl),fun ha => by cases ha⟩

/-- What an event makes of a job is owed an answer, when the job was, and when every request of the
job that is no longer in flight is answered by the event. -/
theorem delivers_handle {resources : List Resource} {fresh : ℕ} {e : Event} {r : Ref} {cur : Option Entry} {c : Entry}
    (he : e.job = some r) (hp : ∀ q, p q → p' q ∨ Answers q e)
    (h : ∀ cur', cur = some cur' → cur'.ref = r ∧ cur'.Owed p) (hc : (handle resources fresh cur e).1 = some c) :
    Delivers p' (c,(handle resources fresh cur e).2) := by
  have hsame : ∀ {a b : Ref}, a = r → some b = some r → b = a := fun ha hb => (Option.some.inj hb).trans ha.symm
  cases e with
  | recovered e =>
    obtain rfl : e.ref = r := by simpa [Event.job] using he
    exact (lookedAt_cases resources fresh e cur).delivers hc hp h
  | admitted e =>
    cases hc
    cases cur with
    | none => exact delivers_self (owed_admitted e fresh) _
    | some cur => exact delivers_self (owed_keep hp (h cur rfl).2 (by simp [answered]) (by simp)) _
  | cancelAsked e =>
    simp only [handle] at hc ⊢
    split_ifs at hc ⊢ with hnone
    cases hc
    cases cur with
    | none => exact delivers_cancel (owed_admitted _ fresh) e
    | some cur => exact delivers_cancel (owed_keep hp (h cur rfl).2 (by simp [answered]) (by simp)) e
  | closed ref => cases hc
  | recoveryDone => cases he
  | storeUnread => cases he
  | storeRead => cases he
  | storeForgotten => cases he
  | discarded => exact delivers_onHeld h hc fun _ _ => delivers_discarded hp
  | launched => exact delivers_onHeld h hc fun _ _ howed => delivers_launched hp howed _
  | launchFailed => exact delivers_onHeld h hc fun _ hr howed => delivers_launchFailed hp howed (hsame hr he)
  | leaseRefused => exact delivers_onHeld h hc fun _ _ => delivers_leaseRefused hp
  | finished => exact delivers_onHeld h hc fun _ _ => delivers_finished hp
  | supervisorLost => exact delivers_onHeld h hc fun _ _ => delivers_lost hp
  | followFailed => exact delivers_onHeld h hc fun _ hr howed => delivers_followFailed hp howed (hsame hr he)
  | stopFailed => exact delivers_onHeld h hc fun _ _ => delivers_stopFailed hp
  | cancelFailed => exact delivers_onHeld h hc fun _ _ => delivers_cancelFailed hp
  | moveFailed => exact delivers_onHeld h hc fun _ _ => delivers_moveFailed hp
  | discardFailed => exact delivers_onHeld h hc fun _ _ => delivers_discardFailed hp
  | retryDue => exact delivers_onHeld h hc fun _ _ => delivers_retryDue hp
  | requeued => exact delivers_onHeld h hc fun _ _ => delivers_requeued hp

end Changes
end Entry

lemma State.Scheduled.delivers {s : State} {p : Request → Prop} {cur cur' : Entry} {reqs : List Request}
    (hx : s.Scheduled cur cur' reqs) (h : cur.Owed p) : Entry.Delivers p (cur',reqs) := by
  cases hx with
  | waits wait refused hcancel =>
    refine Entry.delivers_self ?_ _
    exact h.congr rfl
  | cancelled hcancel =>
    refine Entry.delivers_of_asks ?_ List.mem_cons_self ⟨rfl,rfl⟩
    exact h.armed
  | adopted option hparked hcancel hphase hrec =>
    refine Entry.delivers_of_asks ?_ List.mem_cons_self ⟨rfl,rfl⟩
    exact h.armed
  | launched option hparked hphase hstore hrec =>
    refine Entry.delivers_of_asks ?_ List.mem_cons_self ⟨rfl,rfl⟩
    exact h.armed

namespace Shell

/-- Every job the machine holds is owed an answer. -/
structure Sound (w : Shell) : Prop where
  numbered : w.machine.Numbered
  owed : ∀ r cur, w.machine.find r = some cur → cur.Owed (· ∈ w.pending)

/-- Telling the machine of an event keeps every job owed an answer, when every request that is no
longer in flight is answered by the event. -/
theorem Sound.tell {w : Shell} (hw : w.Sound) {pending : Multiset Request} {e : Event}
    (hp : ∀ q ∈ w.pending, q ∈ pending ∨ Answers q e) : (w.tell pending e).Sound := by
  refine ⟨hw.numbered.next e,fun r cur hcur => ?_⟩
  have hsteps := State.step_steps hw.numbered e r
  rw [show (Step w.machine e).1.find r = some cur from hcur] at hsteps
  have hreqs : ∀ q ∈ requestsFor r (Step w.machine e).2, q ∈ (w.tell pending e).pending := by
    intro q hq
    exact Multiset.mem_add.mpr (.inr (List.mem_filter.mp hq).1)
  generalize requestsFor r (Step w.machine e).2 = reqs at hsteps hreqs
  cases hsteps with
  | @held mid _ reqs started hmid hstart =>
    have hmidowed : mid.Owed fun q => q ∈ pending ∨ q ∈ reqs := by
      generalize hx : ((some mid,reqs) : Option Entry × List Request) = x at hmid
      cases hmid with
      | about he =>
        have hdelivers := Entry.delivers_handle he hp
          (fun cur' hcur' => ⟨State.ref_of_find hcur',hw.owed r cur' hcur'⟩) (by rw [← hx])
        rwa [← hx] at hdelivers
      | other he =>
        obtain ⟨hfind,hnone⟩ := Prod.ext_iff.mp hx
        refine (hw.owed r mid hfind.symm).mono fun q hq hpending => .inl ((hp q hpending).resolve_right ?_)
        intro hans
        rw [hans.job,hq,State.ref_of_find hfind.symm] at he
        exact he rfl
      | forgotten => cases hx
      | left f he hstore hl =>
        cases hx
        refine ⟨.inr (.inl ⟨.inr (.inr (.inr hl.phase)),hl.armed,hl.waiting⟩),fun _ => .inr ?_⟩
        rw [hl.ref]
        exact List.mem_cons_self
    refine (hstart.delivers hmidowed).mono fun q _ hq => ?_
    rcases hq with (hq | hq) | hq
    · exact Multiset.mem_add.mpr (.inl hq)
    · exact hreqs q (List.mem_append_left _ hq)
    · exact hreqs q (List.mem_append_right _ hq)

theorem Sound.move {w w' : Shell} (hw : w.Sound) (h : Move w w') : w'.Sound := by
  cases h with
  | answer q e hq hans =>
    refine hw.tell fun q' hq' => ?_
    by_cases heq : q' = q
    · exact .inr (heq ▸ hans)
    · exact .inl ((Multiset.mem_erase_of_ne heq).mpr hq')
  | delivered ref reason hq =>
    refine ⟨hw.numbered,fun r cur hcur => ?_⟩
    have howed := hw.owed r cur hcur
    have hkeep : ∀ q', q' ∈ w.pending → (∀ ref reason, q' ≠ .signalCancel ref reason) →
        q' ∈ w.pending.erase (.signalCancel ref reason) :=
      fun q' hq' hne => (Multiset.mem_erase_of_ne (hne ref reason)).mpr hq'
    refine ⟨?_,fun ha => hkeep _ (howed.armed ha) (by simp)⟩
    rcases howed.waits with hturn | hretry | ⟨q',hawaits,hpending⟩
    · exact .inl hturn
    · exact .inr (.inl hretry)
    · refine .inr (.inr ⟨q',hawaits,hkeep q' hpending ?_⟩)
      rintro ref reason rfl
      exact hawaits
  | event e hevent => exact hw.tell fun q hq => .inl hq

theorem sound_start (sc : Scheduling) : (start sc).Sound :=
  ⟨numbered_recovering sc,fun r cur hcur => by simp [start] at hcur⟩

theorem sound_of_reachable {sc : Scheduling} {w : Shell} (h : Reachable sc w) : w.Sound := by
  induction h with
  | refl => exact sound_start sc
  | tail _ hmove ih => exact ih.move hmove

end Shell

/-- What each phase is owed: the answer to a request in flight, or a retry that is armed and waited
for and on its way. -/
def Entry.OwedAnswer (pending : Multiset Request) (cur : Entry) : Prop :=
  let retry := cur.armed = true ∧ cur.waiting = true ∧ .armRetry cur.ref ∈ pending
  match cur.phase with
  | .queued => True
  | .discarding => (∃ queued, .discard cur.ref queued ∈ pending) ∨ retry
  | .launching => ∃ placement leases, .launch cur.ref placement leases ∈ pending
  | .running => ∃ cancelFirst reason leases, .adopt cur.ref cancelFirst reason leases ∈ pending
  | .stopping => ∃ reason, .stop cur.ref reason ∈ pending
  | .settling | .cancelling => .move cur.ref cur.settlement cur.release ∈ pending
  | .unrecorded => .move cur.ref cur.settlement cur.release ∈ pending ∨ retry
  | .inDoubt => .reexamine cur.ref ∈ pending ∨ retry ∨ cur.parked = true
  | .left => .reexamine cur.ref ∈ pending ∨ retry

lemma Entry.Owed.owedAnswer {pending : Multiset Request} {cur : Entry} (h : cur.Owed (· ∈ pending)) :
    cur.OwedAnswer pending := by
  unfold OwedAnswer
  rcases h.waits with hturn | ⟨hphase,harmed,hwaiting⟩ | ⟨q,hq,hpending⟩
  · rcases hturn with hphase | ⟨hphase,hparked⟩
    · simp [hphase]
    · simp [hphase,hparked]
  · have hretry := h.armed harmed
    rcases hphase with hphase | hphase | hphase | hphase <;> simp [hphase,harmed,hwaiting,hretry]
  · cases q with
    | launch => obtain ⟨hphase,rfl⟩ := hq; simp only [hphase]; exact ⟨_,_,hpending⟩
    | adopt => obtain ⟨hphase,rfl⟩ := hq; simp only [hphase]; exact ⟨_,_,_,hpending⟩
    | stop => obtain ⟨hphase,rfl⟩ := hq; simp only [hphase]; exact ⟨_,hpending⟩
    | move =>
      obtain ⟨hphase,rfl,rfl,rfl⟩ := hq
      rcases hphase with hphase | ⟨hphase,_⟩ | hphase <;> simp only [hphase]
      · exact hpending
      · exact hpending
      · exact .inl hpending
    | discard => obtain ⟨hphase,rfl⟩ := hq; simp only [hphase]; exact .inl ⟨_,hpending⟩
    | reexamine =>
      obtain ⟨hphase,rfl⟩ := hq
      rcases hphase with hphase | hphase <;> simp only [hphase]
      · exact .inl hpending
      · exact .inl hpending
    | armRetry => exact hq.elim
    | signalCancel => exact hq.elim

/-- In every state the machine and its shell reach, every job the machine holds is owed an answer. -/
theorem held_owed_answer (sc : Scheduling) (w : Shell) (h : Shell.Reachable sc w) (r : Ref) (cur : Entry)
    (hcur : w.machine.find r = some cur) : cur.OwedAnswer w.pending :=
  ((Shell.sound_of_reachable h).owed r cur hcur).owedAnswer

/-- The shell of a daemon that started and was told of a job. -/
def launchingShell : Shell :=
  let w := (Shell.start OneAtATime).tell 0 .recoveryDone
  w.tell w.pending (.admitted { ref := jobNamed "j1", submittedAt := 1 })

lemma launchingShell_reachable : Shell.Reachable OneAtATime launchingShell :=
  .tail (.single (.event (Shell.start OneAtATime) .recoveryDone trivial)) (.event _ _ trivial)

theorem held_owed_answer_launching : ∃ cur, launchingShell.machine.find (jobNamed "j1") = some cur ∧
    cur.phase = .launching ∧ cur.OwedAnswer launchingShell.pending := by
  have hphase : (launchingShell.machine.find (jobNamed "j1")).map Entry.phase = some .launching := by
    decide +kernel
  obtain ⟨cur,hcur,hphase⟩ := Option.map_eq_some_iff.mp hphase
  exact ⟨cur,hcur,hphase,held_owed_answer OneAtATime launchingShell launchingShell_reachable _ cur hcur⟩

end Vibesys.Lifecycle
