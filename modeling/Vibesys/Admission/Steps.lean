import Vibesys.Admission.Schedule
import Vibesys.Library.Run

/-!
# What an event does to queue and slots

What the filling loop does to slots and queue, and from it what every event does.
-/
namespace Vibesys.Admission

open Library

/-- What a slot holds of the run: an episode of an attempt, and pools. -/
def Slot.hold (slot : Slot) : AttemptRef × DecisionId × List PoolId := (slot.attempt,slot.admissionId,slot.pools)

/-- Two slots are of different attempts, share no pool, and do not both own the root. -/
def Slot.Apart (mode : AttemptRef → WorkspaceMode) (a b : Slot) : Prop :=
  a.attempt.attemptId ≠ b.attempt.attemptId ∧ (∀ pool ∈ a.pools, pool ∉ b.pools) ∧
    ¬(mode a.attempt = .exclusiveRoot ∧ mode b.attempt = .exclusiveRoot)

/-- Every workspace mode the context gives for an attempt that was asked for is the attempt's. -/
def SchedulingContext.Keeps (asked : AttemptRef → DecisionId → Prop) (mode : AttemptRef → WorkspaceMode)
    (context : SchedulingContext) : Prop :=
  ∀ target id m, asked target id → context.mode target id = .ok m → m = mode target

/-- All slots and rows are of episodes that were asked for. -/
def AllAsked (asked : AttemptRef → DecisionId → Prop) (slots : List Slot) (queue : List AdmissionRequest) : Prop :=
  (∀ slot ∈ slots, asked slot.attempt slot.admissionId) ∧ ∀ request ∈ queue, asked request.target request.decisionId

def AreaChange.admits (change : AreaChange) : List AdmissionRequest :=
  change.signals.filterMap fun
    | .admitAttempt request => some request
    | _ => none

theorem pairwise_of_holds {mode : AttemptRef → WorkspaceMode} {slots slots' : List Slot}
    (h : slots.Pairwise (Slot.Apart mode)) (hsub : (slots'.map Slot.hold).Sublist (slots.map Slot.hold)) :
    slots'.Pairwise (Slot.Apart mode) := by
  have hlift : ∀ l : List Slot, l.Pairwise (Slot.Apart mode) ↔ (l.map Slot.hold).Pairwise fun a b =>
      a.1.attemptId ≠ b.1.attemptId ∧ (∀ pool ∈ a.2.2, pool ∉ b.2.2) ∧
        ¬(mode a.1 = .exclusiveRoot ∧ mode b.1 = .exclusiveRoot) :=
    fun l => by rw [List.pairwise_map]; rfl
  exact (hlift slots').mpr (((hlift slots).mp h).sublist hsub)

theorem asked_of_holds {asked : AttemptRef → DecisionId → Prop} {slots slots' : List Slot}
    (h : ∀ slot ∈ slots, asked slot.attempt slot.admissionId)
    (hsub : (slots'.map Slot.hold).Sublist (slots.map Slot.hold)) : ∀ slot ∈ slots', asked slot.attempt slot.admissionId := by
  intro slot hslot
  obtain ⟨old,hold,heq⟩ := List.mem_map.mp (hsub.subset (List.mem_map_of_mem hslot))
  have hattempt := congrArg Prod.fst heq
  have hid := congrArg (fun h => h.2.1) heq
  dsimp only [Slot.hold] at hattempt hid
  rw [← hattempt,← hid]
  exact h old hold

namespace SchedulingContext

variable {context : SchedulingContext} {slots slots' : List Slot} {request : AdmissionRequest}

variable {asked : AttemptRef → DecisionId → Prop} {mode : AttemptRef → WorkspaceMode}

theorem of_anyExclusive (hkeeps : context.Keeps asked mode) (hasked : ∀ slot ∈ slots, asked slot.attempt slot.admissionId)
    (h : context.anyExclusive slots = .ok false) : ∀ slot ∈ slots, mode slot.attempt ≠ .exclusiveRoot := by
  induction slots with
  | nil => simp
  | cons slot rest ih =>
    obtain ⟨m,hm,h⟩ := bind_ok h
    split_ifs at h with hroot
    · cases h
    · intro s hs
      rcases List.mem_cons.mp hs with rfl | hs
      · rwa [← hkeeps _ _ m (hasked s List.mem_cons_self) hm]
      · exact ih (fun s' hs' => hasked s' (List.mem_cons_of_mem _ hs')) h s hs

theorem of_fits (h : context.fits slots request = .ok true) : slots.length < parallelLimit context.run ∧
    ∀ asked mode, context.Keeps asked mode → (∀ slot ∈ slots, asked slot.attempt slot.admissionId) →
      asked request.target request.decisionId → ∀ slot ∈ slots, slot.Apart mode (context.slotOf request) := by
  unfold fits at h
  split at h
  · cases h
  rename_i hattempt
  split at h
  · cases h
  rename_i hlimit
  split at h
  · cases h
  rename_i hpools
  obtain ⟨m,hm,h⟩ := bind_ok h
  refine ⟨not_le.mp hlimit,fun asked mode hkeeps hslots hrequest slot hslot => ⟨?_,?_,?_⟩⟩
  · intro heq
    exact hattempt (List.any_eq_true.mpr ⟨slot,hslot,decide_eq_true heq⟩)
  · intro pool hpool hin
    refine hpools (List.any_eq_true.mpr ⟨slot,hslot,List.any_eq_true.mpr ⟨pool,hin,?_⟩⟩)
    exact List.contains_iff_mem.mpr hpool
  · rintro ⟨hroot,htarget⟩
    have hmode : m = .exclusiveRoot := (hkeeps _ _ m hrequest hm).trans htarget
    rw [if_neg (not_not.mpr hmode)] at h
    split_ifs at h
    · cases h
    obtain ⟨taken,htaken,h⟩ := bind_ok h
    cases taken with
    | true => cases h
    | false => exact of_anyExclusive hkeeps hslots htaken slot hslot hroot

/-- What the loop does: it takes requests from the front of the queue, each while there is room for it. -/
theorem of_fillLoop {registering : Option AttemptRequest} {queue queue' admitted : List AdmissionRequest}
    (h : context.fillLoop registering slots queue = .ok (slots',queue',admitted)) :
    queue = admitted ++ queue' ∧ slots' = slots ++ admitted.map context.slotOf ∧
      (admitted ≠ [] → context.accepting = true) ∧
      (∀ i, i < admitted.length → slots.length+i < parallelLimit context.run) ∧
      ∀ asked mode, context.Keeps asked mode → AllAsked asked slots queue → slots.Pairwise (Slot.Apart mode) →
        slots'.Pairwise (Slot.Apart mode) := by
  induction queue generalizing slots slots' queue' admitted with
  | nil =>
    cases h
    simp
  | cons head rest ih =>
    have hstays : (.ok (slots,head :: rest,[]) : Outcome _) = .ok (slots',queue',admitted) →
        head :: rest = admitted ++ queue' ∧ slots' = slots ++ admitted.map context.slotOf ∧
          (admitted ≠ [] → context.accepting = true) ∧
          (∀ i, i < admitted.length → slots.length+i < parallelLimit context.run) ∧
          ∀ asked mode, context.Keeps asked mode → AllAsked asked slots (head :: rest) →
            slots.Pairwise (Slot.Apart mode) → slots'.Pairwise (Slot.Apart mode) := by
      intro heq
      cases heq
      simp
    unfold fillLoop at h
    by_cases haccepting : context.accepting = true
    swap
    · rw [if_pos haccepting] at h
      exact hstays h
    rw [if_neg (not_not.mpr haccepting)] at h
    by_cases hproved : context.admissionProved head registering = true
    swap
    · rw [if_pos hproved] at h
      exact hstays h
    rw [if_neg (not_not.mpr hproved)] at h
    obtain ⟨fit,hfit,h⟩ := bind_ok h
    cases fit with
    | false => exact hstays h
    | true =>
      obtain ⟨⟨slots₁,queue₁,admitted₁⟩,hrest,h⟩ := bind_ok h
      cases h
      obtain ⟨hqueue,hslots,_,hroom,hpairwise⟩ := ih hrest
      refine ⟨by rw [hqueue,List.cons_append],by simp [hslots],fun _ => haccepting,?_,?_⟩
      · intro i hi
        cases i with
        | zero => exact (of_fits hfit).1
        | succ i =>
          have := hroom i (by simpa using hi)
          rw [List.length_append,List.length_singleton] at this
          omega
      · intro asked mode hkeeps hasked hapart
        have hhead := hasked.2 head List.mem_cons_self
        refine hpairwise asked mode hkeeps ⟨fun slot hslot => ?_,fun r hr => hasked.2 r (List.mem_cons_of_mem _ hr)⟩
          (List.pairwise_append.mpr ⟨hapart,List.pairwise_singleton _ _,fun slot hslot new hnew => ?_⟩)
        · rcases List.mem_append.mp hslot with hslot | hslot
          · exact hasked.1 slot hslot
          · rw [List.mem_singleton.mp hslot]
            exact hhead
        · rw [List.mem_singleton.mp hnew]
          exact (of_fits hfit).2 asked mode hkeeps hasked.1 hhead slot hslot

end SchedulingContext

/-- What an event does to the state: slots that were held are kept or given up, and requests from the front of
the queue, with the rows that were retired taken out and a new one added, get new slots while there is room. -/
structure Steps (context : SchedulingContext) (slots : List Slot) (queue : List AdmissionRequest) (change : AreaChange) :
    Prop where
  front : queue = change.admits ++ change.state.queue
  held : ∃ kept, (kept.map Slot.hold).Sublist (slots.map Slot.hold) ∧
    change.state.slots = kept ++ change.admits.map context.slotOf ∧
    (∀ i, i < change.admits.length → kept.length+i < parallelLimit context.run) ∧
    ∀ asked mode, context.Keeps asked mode → AllAsked asked slots queue → slots.Pairwise (Slot.Apart mode) →
      change.state.slots.Pairwise (Slot.Apart mode)
  accepting : change.admits ≠ [] → context.accepting = true

namespace Steps

variable {context : SchedulingContext} {slots slots' : List Slot} {queue : List AdmissionRequest} {change : AreaChange}

theorem still (hadmits : change.admits = []) (hqueue : change.state.queue = queue)
    (hslots : (change.state.slots.map Slot.hold).Sublist (slots.map Slot.hold)) : Steps context slots queue change where
  front := by rw [hadmits,hqueue,List.nil_append]
  held := ⟨change.state.slots,hslots,by simp [hadmits],by simp [hadmits],fun _ _ _ _ h => pairwise_of_holds h hslots⟩
  accepting h := absurd hadmits h

theorem signals (h : Steps context slots queue change) {change' : AreaChange} (hstate : change'.state = change.state)
    (hadmits : change'.admits = change.admits) : Steps context slots queue change' := by
  obtain ⟨hqueue,hslots,haccepting⟩ := h
  refine ⟨?_,?_,?_⟩ <;> rw [hadmits]
  · rwa [hstate]
  · rwa [hstate]
  · exact haccepting

theorem of_sublist (h : Steps context slots' queue change)
    (hsub : (slots'.map Slot.hold).Sublist (slots.map Slot.hold)) : Steps context slots queue change := by
  obtain ⟨kept,hkept,heq,hroom,hpairwise⟩ := h.held
  refine ⟨h.front,⟨kept,hkept.trans hsub,heq,hroom,fun asked mode hkeeps hasked hapart => ?_⟩,h.accepting⟩
  exact hpairwise asked mode hkeeps ⟨asked_of_holds hasked.1 hsub,hasked.2⟩ (pairwise_of_holds hapart hsub)

end Steps

theorem admits_append {state : SchedulingState} {events : List StrategyEvent} (a b : List Signal) :
    AreaChange.admits ⟨state,a ++ b,events⟩ = AreaChange.admits ⟨state,a,events⟩ ++ AreaChange.admits ⟨state,b,events⟩ :=
  List.filterMap_append

theorem admits_map_admitAttempt {state : SchedulingState} {events : List StrategyEvent} (requests : List AdmissionRequest) :
    AreaChange.admits ⟨state,requests.map .admitAttempt,events⟩ = requests := by
  simp [AreaChange.admits,List.filterMap_map]

namespace SchedulingState

variable {state : SchedulingState} {context : SchedulingContext} {change : AreaChange}

theorem steps_fill {registering : Option AttemptRequest} {retireExpired : Bool}
    (h : state.fill context registering retireExpired = .ok change) : Steps context state.slots state.queue change := by
  obtain ⟨⟨slots,queue,admitted⟩,hloop,h⟩ := bind_ok h
  cases h
  obtain ⟨hqueue,hslots,haccepting,hroom,hpairwise⟩ := SchedulingContext.of_fillLoop hloop
  have hretire : ∀ (s : SchedulingState) (events : List StrategyEvent), AreaChange.admits ⟨s,
      if retireExpired then context.deadlineRetirements state.queue else [],events⟩ = [] := by
    intro s events
    split_ifs
    · unfold SchedulingContext.deadlineRetirements AreaChange.admits
      dsimp only
      split_ifs
      · rfl
      · simp [List.filterMap_map]
    · rfl
  have hadmits : ∀ (s : SchedulingState) (events : List StrategyEvent) (drained : Prop) [Decidable drained],
      AreaChange.admits ⟨s,(if retireExpired then context.deadlineRetirements state.queue else []) ++
        admitted.map .admitAttempt ++ (if drained then [.runDrained] else []),events⟩ = admitted := by
    intro s events drained _
    rw [admits_append,admits_append,hretire,admits_map_admitAttempt]
    split_ifs <;> simp [AreaChange.admits]
  refine ⟨?_,⟨state.slots,List.Sublist.refl _,?_,?_,hpairwise⟩,?_⟩ <;> rw [hadmits]
  · exact hqueue
  · exact hslots
  · exact hroom
  · exact haccepting

/-- The row an event adds to the queue, if it is not refused. -/
def enters (state : SchedulingState) (context : SchedulingContext) : SchedulingEvent → Option AdmissionRequest
  | .attemptRequested request =>
    match state.refusal context (.start request) with
    | .ok none => some (.start request)
    | _ => none
  | .attemptReopenRequested request =>
    match state.refusal context (.reopen request) with
    | .ok none => some (.reopen request)
    | _ => none
  | _ => none

def retires : SchedulingEvent → AdmissionRequest → Bool
  | .queueEntryRetired attempt admissionId => retiredEntry attempt admissionId
  | _ => fun _ => false

/-- The queue as an event finds it, after what the event itself takes out and adds. -/
def rows (state : SchedulingState) (context : SchedulingContext) (event : SchedulingEvent) : List AdmissionRequest :=
  (state.queue.filter fun request => !retires event request) ++ (state.enters context event).toList

theorem refused_still {request : AdmissionRequest} (h : state.refusal context request = .ok (some change)) :
    change.state = state ∧ change.admits = [] := by
  have hreject : ∀ code detail, (state.reject request code detail).state = state ∧
      (state.reject request code detail).admits = [] := fun _ _ => ⟨rfl,rfl⟩
  have hduplicate : ∀ c, state.duplicate context request = some c → c.state = state ∧ c.admits = [] := by
    intro c hc
    rcases Option.or_eq_some_iff.mp hc with hc | ⟨_,hc⟩
    · obtain ⟨queued,_,hc⟩ := List.exists_of_findSome?_eq_some hc
      split_ifs at hc <;> cases hc
      · exact ⟨rfl,rfl⟩
      · exact hreject _ _
      · exact hreject _ _
    rcases Option.or_eq_some_iff.mp hc with hc | ⟨_,hc⟩
    · obtain ⟨slot,_,rfl⟩ := Option.map_eq_some_iff.mp hc
      split_ifs
      · exact ⟨rfl,rfl⟩
      · exact hreject _ _
    · cases request with
      | reopen r =>
        simp only [existingDuplicate] at hc
        split_ifs at hc
        cases hc
        exact ⟨rfl,rfl⟩
      | start r =>
        simp only [existingDuplicate] at hc
        split at hc
        · split_ifs at hc
          cases hc
          exact hreject _ _
        · cases hc
  unfold refusal at h
  dsimp only at h
  split at h
  case h_1 c hc =>
    cases h
    rcases Option.or_eq_some_iff.mp hc with hc | ⟨_,hc⟩
    · cases request with
      | reopen r => cases hc
      | start r =>
        obtain ⟨why,_,rfl⟩ := Option.map_eq_some_iff.mp hc
        exact hreject _ _
    · exact hduplicate _ hc
  case h_2 =>
    split at h
    · cases h
      exact hreject _ _
    split at h
    case h_1 c hc =>
      cases h
      cases request with
      | reopen r =>
        dsimp only at hc
        split_ifs at hc
        cases hc
        exact hreject _ _
      | start r =>
        dsimp only at hc
        split_ifs at hc
        cases hc
        exact hreject _ _
    case h_2 => split at h <;> cases h

theorem steps_enqueue {request : AdmissionRequest} (h : state.enqueue context request = .ok change) :
    Steps context state.slots
      (state.queue ++ (match state.refusal context request with | .ok none => some request | _ => none).toList) change := by
  obtain ⟨refused,hrefused,h⟩ := bind_ok h
  rw [hrefused]
  cases refused with
  | some c =>
    cases h
    obtain ⟨hstate,hadmits⟩ := refused_still hrefused
    rw [Option.toList_none,List.append_nil]
    exact .still hadmits (by rw [hstate]) (by rw [hstate])
  | none =>
    obtain ⟨filled,hfill,h⟩ := bind_ok h
    cases h
    refine (steps_fill hfill).signals rfl ?_
    unfold AreaChange.admits
    rw [List.filterMap_append]
    cases registers context request <;> simp

theorem hold_endedSlots {attempt : AttemptRef} {admissionId : DecisionId} {endedAt : Seconds} {slots slots' : List Slot}
    (h : endedSlots attempt admissionId endedAt slots = .ok slots') : slots'.map Slot.hold = slots.map Slot.hold := by
  induction slots generalizing slots' with
  | nil =>
    cases h
    rfl
  | cons slot rest ih =>
    unfold endedSlots at h
    split at h
    · obtain ⟨rest',hrest,h⟩ := bind_ok h
      cases h
      rw [List.map_cons,List.map_cons,ih hrest]
    split at h
    · cases h
    · obtain ⟨rest',hrest,h⟩ := bind_ok h
      cases h
      rw [List.map_cons,List.map_cons,ih hrest]
      rfl

theorem steps_release {attempt : AttemptRef} {admissionId : DecisionId}
    (h : state.release context attempt admissionId = .ok change) : Steps context state.slots state.queue change := by
  unfold release at h
  split at h
  · cases h
    exact .still rfl rfl (List.Sublist.refl _)
  · exact (steps_fill h).of_sublist (List.filter_sublist.map _)

theorem steps_control {action : ControlKind} (h : state.control context action = .ok change) :
    Steps context state.slots state.queue change := by
  unfold control at h
  split at h
  · cases h
  split at h
  · split at h
    · cases h
      exact .still rfl rfl (List.Sublist.refl _)
    · have hsteps := steps_fill h
      exact hsteps
  split at h
  case h_1 refusal hrefusal =>
    cases h
    unfold stopReplay at hrefusal
    dsimp only at hrefusal
    split at hrefusal
    · cases hrefusal
    · obtain ⟨stop,_,rfl⟩ := Option.map_eq_some_iff.mp hrefusal
      exact .still rfl rfl (List.Sublist.refl _)
  case h_2 =>
    split at h
    · cases h
      exact .still rfl rfl (List.Sublist.refl _)
    rename_i cancellations hcancellations
    dsimp only at h
    split at h
    · cases h
      exact .still rfl rfl (List.Sublist.refl _)
    obtain ⟨drained,hdrained,h⟩ := bind_ok h
    cases h
    refine (steps_fill hdrained).signals rfl ?_
    have hnone : cancellations.filterMap (fun | Signal.admitAttempt request => some request | _ => none) = [] := by
      split at hcancellations
      · unfold cancel at hcancellations
        split at hcancellations
        · cases hcancellations
        split at hcancellations
        · cases hcancellations
        split at hcancellations
        · cases hcancellations
        cases hcancellations
        simp only [List.filterMap_cons,List.filterMap_filterMap]
        refine List.filterMap_eq_nil_iff.mpr fun episode _ => ?_
        split
        · split_ifs <;> rfl
        · rfl
      · cases hcancellations
        rfl
    have hsessions : (runSessionsDrain context).filterMap
        (fun | Signal.admitAttempt request => some request | _ => none) = [] := by
      unfold runSessionsDrain
      split <;> rfl
    unfold AreaChange.admits
    rw [List.filterMap_append,List.filterMap_append,hnone,hsessions,List.nil_append,List.nil_append]

/-- What every event does. -/
theorem steps_schedule {event : SchedulingEvent} (h : state.schedule context event = .ok change) :
    Steps context state.slots (state.rows context event) change := by
  have hrows : (∀ request, retires event request = false) → state.enters context event = none →
      state.rows context event = state.queue := by
    intro hretires henters
    unfold rows
    rw [henters,Option.toList_none,List.append_nil]
    exact List.filter_eq_self.mpr fun request _ => by simp [hretires]
  have hfilter : (state.queue.filter fun request => !(fun _ : AdmissionRequest => false) request) = state.queue :=
    List.filter_eq_self.mpr fun _ _ => rfl
  cases event with
  | attemptRequested request =>
    unfold rows enters
    dsimp only [retires]
    rw [hfilter]
    exact steps_enqueue h
  | attemptReopenRequested request =>
    unfold rows enters
    dsimp only [retires]
    rw [hfilter]
    exact steps_enqueue h
  | slotChargeEnded attempt admissionId endedAt =>
    rw [hrows (fun _ => rfl) rfl]
    obtain ⟨slots,hslots,h⟩ := bind_ok h
    cases h
    exact .still rfl rfl (by rw [hold_endedSlots hslots])
  | slotReleased attempt admissionId =>
    rw [hrows (fun _ => rfl) rfl]
    exact steps_release h
  | attemptReady attempt admissionId =>
    rw [hrows (fun _ => rfl) rfl]
    cases h
    exact .still rfl rfl (List.Sublist.refl _)
  | queueEntryRetired attempt admissionId =>
    unfold rows enters
    dsimp only [retires]
    rw [Option.toList_none,List.append_nil]
    exact steps_fill h
  | clockAdvanced nowAt =>
    rw [hrows (fun _ => rfl) rfl]
    simp only [schedule] at h
    split at h
    · cases h
    obtain ⟨filled,hfilled,h⟩ := bind_ok h
    cases h
    refine (steps_fill hfilled).signals rfl ?_
    unfold AreaChange.admits dueRetries
    simp [List.filterMap_append,List.filterMap_map]
  | admissionControl action =>
    rw [hrows (fun _ => rfl) rfl]
    exact steps_control h
  | adoptionFenceLifted =>
    rw [hrows (fun _ => rfl) rfl]
    exact steps_fill h
  | parallelLimitChanged =>
    rw [hrows (fun _ => rfl) rfl]
    exact steps_fill h

end SchedulingState
end Vibesys.Admission
