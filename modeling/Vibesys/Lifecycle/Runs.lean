import Vibesys.Library.Run
import Vibesys.Lifecycle.Scheduled

/-!
# Runs of the machine

What holds of an entry through a run is shown of its own event, of a job left when its store is
given up and of the scheduler; `step_entry` puts the three together.
-/
namespace Vibesys.Lifecycle
open Vibesys.Core Vibesys.Schedule Vibesys.Library

def next (s : State) (e : Event) : State := (Step s e).1

namespace State
open Entry

theorem step_ensures {P : Entry → Prop} {Q : Request → Prop} {s : State} (hs : s.Numbered) {e : Event} {r : Ref}
    (hcur : e.job ≠ some r → ∀ cur, s.find r = some cur → P cur)
    (hhandle : e.job = some r → Ensures P Q (Entry.handle s.resources (s.seq+1) (s.find r) e))
    (hleft : ∀ cur, Left r cur → P cur) (hretry : Q (.armRetry r))
    (hsched : ∀ s' cur cur' reqs, P cur → Scheduled s' cur cur' reqs → Ensures P Q (some cur',reqs)) :
    Ensures P Q ((next s e).find r,requestsFor r (Step s e).2) := by
  have hmid : ∀ x, Handled s e r x → Ensures P Q x := by
    intro x hx
    cases hx with
    | about he => exact hhandle he
    | other he => exact ⟨hcur he,by simp⟩
    | forgotten => simp [Ensures]
    | left f he hstore hl => exact ⟨fun c hc => by cases hc; exact hleft _ hl,by simpa using hretry⟩
  have hsteps := step_steps hs e r
  rw [next]
  generalize (Step s e).1.find r = cur, requestsFor r (Step s e).2 = reqs at hsteps ⊢
  cases hsteps with
  | gone h => exact hmid _ h
  | held h hstart =>
    obtain ⟨hP,hQ⟩ := hmid _ h
    obtain ⟨hP',hQ'⟩ := hsched _ _ _ _ (hP _ rfl) hstart
    exact ⟨hP',fun q hq => (List.mem_append.mp hq).elim (hQ q) (hQ' q)⟩

theorem step_entry {P : Entry → Prop} {s : State} (hs : s.Numbered) {e : Event} {r : Ref}
    (hcur : ∀ cur, s.find r = some cur → P cur)
    (hhandle : e.job = some r →
      ∀ cur, (Entry.handle s.resources (s.seq+1) (s.find r) e).1 = some cur → P cur)
    (hleft : ∀ cur, Left r cur → P cur)
    (hsched : ∀ s' cur cur' reqs, P cur → Scheduled s' cur cur' reqs → P cur') :
    ∀ cur, (next s e).find r = some cur → P cur := by
  refine (step_ensures (Q := fun _ => True) hs (fun _ => hcur) (fun he => ⟨hhandle he,fun _ _ => trivial⟩) hleft trivial ?_).1
  intro s' cur cur' reqs hcur hstart
  exact ⟨fun c hc => by cases hc; exact hsched _ _ _ _ hcur hstart,fun _ _ => trivial⟩

end State

lemma Entry.handle_seq {resources : List Resource} {fresh : ℕ} {cur : Option Entry} {e : Event} {c : Entry}
    (hcur : ∀ c, cur = some c → c.seq ≠ 0) (h : (handle resources (fresh+1) cur e).1 = some c) : c.seq ≠ 0 := by
  cases e with
  | recovered e =>
    have hx := lookedAt_cases resources (fresh+1) e cur
    rw [handle] at h
    generalize lookedAt resources (fresh+1) e cur = x at hx h
    have hlook : ∀ kept x, Look resources (fresh+1) e kept x → x.1 = some c → c.seq ≠ 0 := by
      intro kept x hx hc
      cases hx <;> grind
    cases hx with
    | afresh hx => exact hlook _ _ hx h
    | again hphase hx => exact hlook _ _ hx h
    | left hphase => grind
    | ignored => exact hcur _ h
  | _ => cases cur <;> grind [handle]

theorem State.Numbered.next {s : State} (hs : s.Numbered) (e : Event) : (next s e).Numbered := by
  intro r
  refine step_entry hs (hs r) (fun _ cur h => ?_) (fun cur hl => hl.seq) ?_
  · exact Entry.handle_seq (hs r) h
  · intro s' cur cur' reqs hcur h
    cases h <;> exact hcur

@[simp] lemma recovering_find (sc : Scheduling) (r : Ref) : (RecoveringWith sc).find r = none := rfl

lemma numbered_recovering (sc : Scheduling) : (RecoveringWith sc).Numbered := by
  intro r cur h
  simp at h

/-- Only a job in doubt has a parked supervisor. -/
def State.ParksDoubt (s : State) : Prop := ∀ r cur, s.find r = some cur → cur.parked = true → cur.phase = .inDoubt

lemma Entry.Look.parksDoubt {resources : List Resource} {fresh : ℕ} {e : Recovered} {kept c : Entry}
    {x : Option Entry × List Request} (hx : Look resources fresh e kept x) (hc : x.1 = some c)
    (hparked : c.parked = true) : c.phase = .inDoubt := by
  cases hx <;> grind

lemma Entry.handle_parksDoubt {resources : List Resource} {fresh : ℕ} {cur : Option Entry} {e : Event} {c : Entry}
    (hcur : ∀ c, cur = some c → c.parked = true → c.phase = .inDoubt)
    (h : (handle resources fresh cur e).1 = some c) (hparked : c.parked = true) : c.phase = .inDoubt := by
  cases e with
  | recovered e =>
    have hx := lookedAt_cases resources fresh e cur
    rw [handle] at h
    generalize lookedAt resources fresh e cur = x at hx h
    cases hx with
    | afresh hx => exact hx.parksDoubt h hparked
    | again _ hx => exact hx.parksDoubt h hparked
    | left => grind
    | ignored => exact hcur _ h hparked
  | _ => cases cur <;> grind [handle]

theorem State.ParksDoubt.next {s : State} (hs : s.Numbered) (h : s.ParksDoubt) (e : Event) :
    (next s e).ParksDoubt := by
  intro r
  refine step_entry hs (h r) (fun _ cur hc => ?_) (fun cur hl hparked => ?_) ?_
  · exact Entry.handle_parksDoubt (h r) hc
  · simp [hl.parked] at hparked
  · intro s' cur cur' reqs hcur hsched
    cases hsched <;> grind

/-- What holds of every state of a run, whatever its events. -/
structure State.Sound (s : State) : Prop where
  numbered : s.Numbered
  parks : s.ParksDoubt

theorem State.Sound.next {s : State} (hs : s.Sound) (e : Event) : (next s e).Sound :=
  ⟨hs.numbered.next e,hs.parks.next hs.numbered e⟩

theorem sound_run (sc : Scheduling) (es : List Event) : (run next (RecoveringWith sc) es).Sound :=
  run_invariant (fun _ e h => h.next e) ⟨numbered_recovering sc,fun _ _ h => by simp at h⟩ es

def Asks (Q : Request → Prop) (r : Ref) (s : State) (e : Event) : Prop :=
  ∀ q ∈ (Step s e).2, q.Target = r → Q q

theorem step_asks {P : Entry → Prop} {Q : Request → Prop} {r : Ref} {s : State} {e : Event} (hs : s.Sound)
    (hcur : e.job ≠ some r → ∀ cur, s.find r = some cur → P cur)
    (hhandle : e.job = some r → Entry.Ensures P Q (Entry.handle s.resources (s.seq+1) (s.find r) e))
    (hleft : ∀ cur, State.Left r cur → P cur) (hretry : Q (.armRetry r))
    (hsched : ∀ s' cur cur' reqs, P cur → State.Scheduled s' cur cur' reqs → Entry.Ensures P Q (some cur',reqs)) :
    (∀ cur, (next s e).find r = some cur → P cur) ∧ Asks Q r s e := by
  have hstep := State.step_ensures hs.numbered hcur hhandle hleft hretry hsched
  refine ⟨hstep.1,fun q hq hr => hstep.2 q ?_⟩
  exact List.mem_filter.mpr ⟨hq,decide_eq_true hr⟩

/-- The rule for one job: a property of its entry that every event meeting the condition and the
scheduler keep, holds as long as the machine holds the job, and so does what it ensures of the
requests. -/
theorem along_asks {P : Entry → Prop} {Q : Request → Prop} {C : State → Event → Prop} {r : Ref}
    (hhandle : ∀ s e cur, s.Sound → s.find r = some cur → P cur → C s e → e.job = some r →
      Entry.Ensures P Q (Entry.handle s.resources (s.seq+1) (some cur) e))
    (hleft : ∀ cur, State.Left r cur → P cur) (hretry : Q (.armRetry r))
    (hsched : ∀ s' cur cur' reqs, P cur → State.Scheduled s' cur cur' reqs → Entry.Ensures P Q (some cur',reqs))
    {s : State} (hs : s.Sound) (hP : ∀ cur, s.find r = some cur → P cur) {es : List Event}
    (hheld : Along next (fun s e => (s.find r).isSome = true ∧ C s e) s es) : Along next (Asks Q r) s es := by
  refine Along.ensures (I := fun s => s.Sound ∧ ∀ cur, s.find r = some cur → P cur) ?_ ⟨hs,hP⟩ hheld
  rintro s e ⟨hs,hP⟩ ⟨hsome,hC⟩
  obtain ⟨cur,hcur⟩ := Option.isSome_iff_exists.mp hsome
  obtain ⟨hnext,hasks⟩ := step_asks hs (fun _ => hP)
    (fun he => hcur ▸ hhandle s e cur hs hcur (hP cur hcur) hC he) hleft hretry hsched
  exact ⟨⟨hs.next e,hnext⟩,hasks⟩

/-! The jobs of the runs below. -/

def storeOne : StoreID := ⟨"ab12",by decide⟩

def jobNamed (job : JobID) : Ref := ⟨storeOne,job⟩

/-- A daemon starts and launches its only job, which its store then has running. -/
def oneRunning (policy : RerunPolicy) : List Event :=
  [.recoveryDone,.admitted { ref := jobNamed "j1", submittedAt := 1, policy := some policy },
    .launched (jobNamed "j1")]

def unfollowed : Event := .followFailed ⟨jobNamed "j1",.supervisorSilent,⟨.unavailable,"no answer"⟩,6⟩

def unstopped : Event := .stopFailed (jobNamed "j1") ⟨.unavailable,"no answer"⟩

/-!
## Refused leases

A job refused a lease waits in the queue for a retry, which clears the refusal. The retry that comes
due after the job started elsewhere is spent on nothing, and the refusal outlives it.
-/

/-- The entry is owed the retry that clears its refused lease. -/
def Entry.LeaseOwed (cur : Entry) : Prop := cur.leased.isSome = true → cur.armed = true ∧ cur.waiting = true

/-- A retry comes due for a job that carries a refused lease and is not in the queue. -/
def SpendsRetry (s : State) : Event → Prop
  | .retryDue ref => ∃ cur, s.find ref = some cur ∧ cur.leased.isSome = true ∧ cur.phase ≠ .queued
  | _ => False

namespace Entry

lemma Look.leaseOwed {resources : List Resource} {fresh : ℕ} {e : Recovered} {kept c : Entry}
    {x : Option Entry × List Request} (hx : Look resources fresh e kept x) (hc : x.1 = some c) : c.LeaseOwed := by
  have hplace : ∀ phase, (kept.place e fresh phase).leased = none := fun _ => rfl
  have hdoubted : (kept.doubted e fresh).leased = none := rfl
  cases hx <;> grind [LeaseOwed]

lemma retryDue_leaseOwed {cur : Entry} (hcur : cur.LeaseOwed) (hspent : cur.leased.isSome = true → cur.phase = .queued) :
    cur.retryDue.1.LeaseOwed := by
  cases hl : cur.leased with
  | none => grind [LeaseOwed]
  | some l =>
    have hphase : cur.phase = .queued := hspent (by simp [hl])
    have hwaiting : cur.waiting = true := (hcur (by simp [hl])).2
    simp [LeaseOwed,retryDue,hwaiting,hphase]

lemma handle_leaseOwed {s : State} {cur : Option Entry} {fresh : ℕ} {e : Event} {r : Ref} {c : Entry}
    (he : e.job = some r) (hcur : ∀ c, cur = some c → c.LeaseOwed) (hfind : s.find r = cur)
    (hspent : ¬SpendsRetry s e) (hc : (handle s.resources fresh cur e).1 = some c) : c.LeaseOwed := by
  cases e with
  | recovered e =>
    have hx := lookedAt_cases s.resources fresh e cur
    rw [handle] at hc
    generalize lookedAt s.resources fresh e cur = x at hx hc
    cases hx with
    | afresh h => exact h.leaseOwed hc
    | again _ h => exact h.leaseOwed hc
    | left => grind [LeaseOwed]
    | ignored => exact hcur _ hc
  | retryDue ref =>
    obtain rfl : ref = r := by simpa [Event.job] using he
    cases cur with
    | none => cases hc
    | some cur =>
      obtain rfl : cur.retryDue.1 = c := by simpa [handle,onHeld] using hc
      refine retryDue_leaseOwed (hcur cur rfl) fun hl => ?_
      by_contra hphase
      exact hspent ⟨cur,hfind,hl,hphase⟩
  | _ => cases cur <;> grind [LeaseOwed,handle]

end Entry

/-- What every step without a spent retry keeps. -/
def LeasesOwed (s : State) : Prop := s.Numbered ∧ ∀ r cur, s.find r = some cur → cur.LeaseOwed

theorem LeasesOwed.next {s : State} {e : Event} (h : LeasesOwed s) (hspent : ¬SpendsRetry s e) :
    LeasesOwed (next s e) := by
  refine ⟨h.1.next e,fun r => ?_⟩
  refine State.step_entry h.1 (h.2 r) (fun he cur hc => ?_) (fun cur hl => ?_) ?_
  · exact Entry.handle_leaseOwed he (h.2 r) rfl hspent hc
  · intro hsome
    simp [hl.leased] at hsome
  · intro s' cur cur' reqs hcur hsched
    cases hsched <;> exact hcur

/-- In every run in which no retry is spent, a queued job that carries a refused lease is owed the
retry that clears it. -/
theorem leased_owed_retry (sc : Scheduling) (es : List Event)
    (hspent : Along next (fun s e => ¬SpendsRetry s e) (RecoveringWith sc) es) (r : Ref) (cur : Entry)
    (h : (run next (RecoveringWith sc) es).find r = some cur) (_ : cur.phase = .queued)
    (hleased : cur.leased.isSome = true) : cur.armed = true ∧ cur.waiting = true := by
  have hinit : LeasesOwed (RecoveringWith sc) := ⟨numbered_recovering sc,fun _ _ h => by simp at h⟩
  have hrun : LeasesOwed (run next (RecoveringWith sc) es) :=
    Along.invariant (fun _ _ hs hC => hs.next hC) hinit hspent
  exact hrun.2 r cur h hleased

def twoPlaces : Scheduling := { resources := [⟨"a",1⟩,⟨"b",1⟩] }

/-- A job that may run at the places, alone on each. -/
def workAt (places : List String) : Work :=
  { options := places.map fun p => ⟨p,[⟨p,1,true⟩]⟩, kind := some .check }

/-- A job comes in that may run at `a`, and another daemon holds the lease of `a`. -/
def leaseHeld : List Event :=
  [.recoveryDone,.admitted { ref := jobNamed "j1", submittedAt := 1, work := workAt ["a"] },
    .leaseRefused ⟨jobNamed "j1","a",{ user := "other" },"",5⟩]

theorem leased_owed_retry_leaseHeld :
    ∃ cur, (run next (RecoveringWith twoPlaces) leaseHeld).find (jobNamed "j1") = some cur ∧
      cur.leased.isSome = true ∧ cur.armed = true ∧ cur.waiting = true := by
  have hqueued : ((run next (RecoveringWith twoPlaces) leaseHeld).find (jobNamed "j1")).map
      (fun cur => (cur.phase,cur.leased.isSome)) = some (.queued,true) := by decide +kernel
  obtain ⟨cur,hcur,hboth⟩ := Option.map_eq_some_iff.mp hqueued
  obtain ⟨hphase,hleased⟩ := Prod.ext_iff.mp hboth
  exact ⟨cur,hcur,hleased,leased_owed_retry twoPlaces leaseHeld (by simp [leaseHeld,Along,SpendsRetry])
    (jobNamed "j1") cur hcur hphase hleased⟩

/-- The job may also run at `b`, starts there, has its retry come due, and comes back to the queue by
a launch that failed, while another job took `b`. -/
def retrySpent : List Event :=
  [.recoveryDone,.admitted { ref := jobNamed "j1", submittedAt := 1, work := workAt ["a","b"] },
    .leaseRefused ⟨jobNamed "j1","a",{ user := "other" },"",5⟩,.retryDue (jobNamed "j1"),
    .launchFailed ⟨jobNamed "j1",.supervisorSilent,⟨.unavailable,"no answer"⟩,6⟩,
    .admitted { ref := jobNamed "j2", submittedAt := 7, work := workAt ["b"] },
    .discarded (jobNamed "j1") 8]

/-- The job stays queued with its refused lease, and no retry is owed to it. -/
theorem retrySpent_not_owed :
    ((run next (RecoveringWith twoPlaces) retrySpent).find (jobNamed "j1")).map
      (fun cur => (cur.phase,cur.leased.map LeasedOut.resource,cur.armed,cur.waiting)) =
        some (.queued,some "a",false,false) := by
  decide +kernel

/-!
## Cancels

A cancel the machine took stays with the job for as long as the machine holds it: the job is never
launched again, and its supervisor is told to cancel before it may start. A cancel that comes while
the job is being stopped is not taken, because its end is decided already; a stop that then fails
undoes that decision.
-/

/-- No command of the job starts on this request: it is no launch, and a supervisor that is taken up
is told to cancel first. -/
def Request.Cancels : Request → Prop
  | .launch _ _ _ => False
  | .adopt _ cancelFirst _ _ => cancelFirst = true
  | _ => True

namespace Entry

/-- The cancel of the job is remembered, or its store was given up. -/
def Sticky (cur : Entry) : Prop :=
  (cur.cancelAsked = true ∧ cur.phase ≠ .queued) ∨ (cur.phase = .left ∧ cur.parked = false)

/-- A change that keeps the cancel and asks for nothing that starts the command. -/
abbrev KeepsCancel : Option Entry × List Request → Prop := Ensures Sticky Request.Cancels

attribute [grind =] Request.Cancels Sticky

lemma Look.keepsCancel {resources : List Resource} {fresh : ℕ} {e : Recovered} {kept : Entry}
    {x : Option Entry × List Request} (hx : Look resources fresh e kept x) (hseq : kept.seq ≠ 0)
    (hcancel : kept.cancelAsked = true) : KeepsCancel x := by
  have hplace : ∀ phase, (kept.place e fresh phase).cancelAsked = true := by grind
  have hdoubted : (kept.doubted e fresh).cancelAsked = true := hplace .inDoubt
  cases hx with
  | unseen => simp [Ensures]
  | ended => grind
  | queued => grind
  | discarding => grind
  | parked => grind
  | running => grind
  | cut => grind
  | givenUp => grind
  | inDoubt => grind

/-- Every event keeps the cancel of a job that is held. -/
theorem handle_keepsCancel {resources : List Resource} {fresh : ℕ} {cur : Entry} (e : Event)
    (hseq : cur.seq ≠ 0) (h : cur.Sticky) : KeepsCancel (handle resources fresh (some cur) e) := by
  cases e with
  | recovered e =>
    have hx := lookedAt_cases resources fresh e (some cur)
    rw [handle]
    generalize lookedAt resources fresh e (some cur) = x at hx ⊢
    cases hx with
    | again hphase hx =>
      refine hx.keepsCancel hseq ?_
      rcases h with h | h
      · exact h.1
      · simp [h.1] at hphase
    | left hphase => grind
    | ignored => exact ⟨fun c hc => by cases hc; exact h,by simp⟩
  | _ => grind [handle]

end Entry

lemma State.Scheduled.keepsCancel {s : State} {cur cur' : Entry} {reqs : List Request}
    (hx : s.Scheduled cur cur' reqs) (h : cur.Sticky) : Entry.KeepsCancel (some cur',reqs) := by
  cases hx <;> grind [State.takesUpCancelled]

/-- The phases in which a cancel can still matter: the end of the job is not recorded as decided. -/
def Entry.CancelMatters (cur : Entry) : Prop :=
  match cur.phase with
  | .queued | .discarding | .launching | .running | .inDoubt | .stopping => True
  | .settling | .unrecorded => cur.settlement.Requeues = true
  | .cancelling | .left => False

/-- The cancel comes while the job is being stopped, and none came before. -/
def Entry.DropsCancel (cur : Entry) : Prop := cur.phase = .stopping ∧ cur.cancelAsked = false

lemma Entry.cancel_keepsCancel {cur : Entry} {e : CancelAsked} (hmatters : cur.CancelMatters)
    (hdrop : ¬cur.DropsCancel) : KeepsCancel ((cur.cancel e).map some id) := by
  unfold CancelMatters at hmatters
  unfold DropsCancel at hdrop
  grind

lemma State.Left.sticky {r : Ref} {cur : Entry} (h : State.Left r cur) : cur.Sticky := .inr ⟨h.phase,h.parked⟩

/-- In every run, a cancel that is not dropped stays with its job: from its step on, while the
machine holds the job, nothing launches it or takes up its supervisor without telling it to cancel
first. -/
theorem cancel_stays (sc : Scheduling) (before after : List Event) (e : CancelAsked) (cur : Entry)
    (hheld : (run next (RecoveringWith sc) before).find e.ref = some cur) (hmatters : cur.CancelMatters)
    (hdrop : ¬cur.DropsCancel)
    (hafter : Along next (fun s _ => (s.find e.ref).isSome = true)
      (next (run next (RecoveringWith sc) before) (.cancelAsked e)) after) :
    Along next (Asks Request.Cancels e.ref) (run next (RecoveringWith sc) before) (.cancelAsked e :: after) := by
  have hs := sound_run sc before
  generalize run next (RecoveringWith sc) before = s at hheld hafter hs ⊢
  have hhandle : Entry.KeepsCancel (Entry.handle s.resources (s.seq+1) (s.find e.ref) (.cancelAsked e)) := by
    rw [hheld]
    exact Entry.cancel_keepsCancel hmatters hdrop
  obtain ⟨htaken,hasks⟩ := step_asks hs (fun hne => absurd rfl hne) (fun _ => hhandle) (fun _ hl => hl.sticky)
    trivial fun _ _ _ _ hcur hstart => hstart.keepsCancel hcur
  refine ⟨hasks,along_asks (C := fun _ _ => True) ?_ (fun _ hl => hl.sticky) trivial
    (fun _ _ _ _ hcur hstart => hstart.keepsCancel hcur) (hs.next _) htaken (hafter.imp fun _ _ h => ⟨h,trivial⟩)⟩
  intro s e cur hs hcur hsticky _ _
  exact Entry.handle_keepsCancel e (hs.numbered _ cur hcur) hsticky

def cancelIt : CancelAsked := ⟨jobNamed "j1","stop it",.running,1,5⟩

/-- A look finds the command of the job running. -/
def stillRuns : Event := .recovered
  ⟨jobNamed "j1",.jobIn ⟨.running,1,false,0,some .beforeStartOnly,{}⟩,.alive .running 3600,8⟩

/-- The cancel comes while the job runs; the daemon then fails to stop the job and takes it up with
the cancel. -/
theorem cancel_stays_oneRunning :
    Along next (Asks Request.Cancels (jobNamed "j1")) (run next Recovering (oneRunning .beforeStartOnly))
      [.cancelAsked cancelIt,unfollowed,unstopped,stillRuns] := by
  have hphase : ((run next Recovering (oneRunning .beforeStartOnly)).find (jobNamed "j1")).map Entry.phase =
      some .running := by decide +kernel
  obtain ⟨cur,hcur,hphase⟩ := Option.map_eq_some_iff.mp hphase
  exact cancel_stays OneAtATime (oneRunning .beforeStartOnly) _ cancelIt cur hcur
    (by simp [Entry.CancelMatters,hphase]) (by simp [Entry.DropsCancel,hphase]) (by decide +kernel)

/-- The daemon stops following the job and is stopping it. -/
def beingStopped : List Event := oneRunning .beforeStartOnly ++ [unfollowed]

/-- The cancel comes while the job is being stopped. The job is held ever since; the stop fails, a
look finds the command running, and the job is taken up without its cancel. -/
theorem cancel_forgotten :
    ((run next Recovering beingStopped).find (jobNamed "j1")).map Entry.phase = some .stopping ∧
    Along next (fun s _ => (s.find (jobNamed "j1")).isSome = true) (run next Recovering beingStopped)
      [.cancelAsked cancelIt,unstopped,stillRuns] ∧
    (Step (run next Recovering (beingStopped ++ [.cancelAsked cancelIt,unstopped])) stillRuns).2 =
      [.adopt (jobNamed "j1") false "" ["placement:default"]] :=
  ⟨by decide +kernel,by decide +kernel,by decide +kernel⟩

end Vibesys.Lifecycle
