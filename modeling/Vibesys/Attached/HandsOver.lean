import Vibesys.Attached.Marks

/-!
# A supervisor runs its command once and hands over all of it

The results over every run. What an `Attach` was answered by the spool, by `emit` and by its context is read off
the list of acts.
-/
namespace Vibesys.Attached

open Library Lifecycle
open Vibesys.Core (failf)

variable {B : Type*} {l : Launch} {w : World B}

/-- What was answered to the `Attach` that made it end as it did. The other endings say themselves what the
supervisor was like. -/
def Ending.Answered (acts : List (Act B)) (i : ℕ) : Ending → Prop
  | .context => .turn i .ctxEnds ∈ acts
  | .unread f => ∃ err, .turn i (.failRead err) ∈ acts ∧ f = failf .internal s!"reading the job's output: {err}"
  | .unpassed err => .turn i (.pass (some err)) ∈ acts
  | _ => True

theorem Ending.Answered.mono {acts acts' : List (Act B)} {i : ℕ} {e : Ending} (h : e.Answered acts i)
    (hsub : ∀ act ∈ acts, act ∈ acts') : e.Answered acts' i := by
  cases e with
  | context => exact hsub _ h
  | unread f =>
    obtain ⟨err,hmem,hf⟩ := h
    exact ⟨err,hsub _ hmem,hf⟩
  | unpassed err => exact hsub _ h
  | _ => trivial

/-- What an `Attach` has been told stands in the acts. -/
structure Attach.Told (acts : List (Act B)) (i : ℕ) (a : Attach B) : Prop where
  ending : ∀ e, a.place = .returned e → e.Answered acts i
  context : a.ctxDone = true → .turn i .ctxEnds ∈ acts

theorem Attach.Told.mono {acts acts' : List (Act B)} {i : ℕ} {a : Attach B} (h : a.Told acts i)
    (hsub : ∀ act ∈ acts, act ∈ acts') : a.Told acts' i :=
  ⟨fun e he => (h.ending e he).mono hsub,fun hc => hsub _ (h.context hc)⟩

theorem Attach.Told.start (acts : List (Act B)) (i : ℕ) (l : Launch) (offset : ℕ) :
    (Attach.start l offset : Attach B).Told acts i := by
  unfold Attach.start
  split
  · exact ⟨fun e he => by cases he; trivial,fun hc => by cases hc⟩
  · exact ⟨fun e he => (by cases he),fun hc => by cases hc⟩

theorem Attach.Told.at {acts : List (Act B)} {i : ℕ} {a : Attach B} (h : a.Told acts i) {p : Place B}
    (hp : ∀ e, p = .returned e → e.Answered acts i) : Attach.Told acts i { a with place := p } :=
  ⟨hp,h.context⟩

theorem Attach.Told.turn {acts : List (Act B)} {i : ℕ} {a : Attach B} (h : a.Told acts i) (s : Supervisor B) {t : Turn}
    (ht : .turn i t ∈ acts) : (a.turn l s t).Told acts i := by
  unfold Attach.turn
  cases t with
  | take =>
    dsimp only
    split
    · exact h.at fun e he => by cases he
    · exact h
  | look =>
    dsimp only
    split
    · refine h.at fun e he => ?_
      split at he
      · cases he
        trivial
      · cases he
    · exact h
  | drain n =>
    dsimp only
    split
    · split
      · unfold Attach.drained
        refine h.at fun e he => ?_
        split at he
        · cases he
          trivial
        · cases he
      · exact h.at fun e he => by cases he
    · exact h
  | failRead err =>
    dsimp only
    split
    · refine h.at fun e he => ?_
      cases he
      exact ⟨err,ht,rfl⟩
    · exact h
  | pass err =>
    dsimp only
    split
    · cases err with
      | some e' =>
        refine ⟨fun e he => ?_,h.context⟩
        cases he
        exact ht
      | none => exact ⟨fun e he => (by cases he),h.context⟩
    · exact h
  | wake =>
    dsimp only
    split
    · split
      · exact h.at fun e he => by cases he
      · exact h
    · exact h
  | ctxEnds => exact ⟨h.ending,fun _ => ht⟩
  | leave =>
    dsimp only
    split
    · split
      · next hdone =>
        refine h.at fun e he => ?_
        cases he
        exact h.context hdone
      · exact h
    · exact h

theorem told_run (l : Launch) (acts : List (Act B)) {i : ℕ} {a : Attach B}
    (hget : (run (World.step l) {} acts).attaches[i]? = some a) : a.Told acts i := by
  induction acts using List.reverseRecOn generalizing i a with
  | nil => cases hget
  | append_singleton acts act ih =>
    have hsub : ∀ b ∈ acts, b ∈ acts ++ [act] := fun b hb => List.mem_append_left _ hb
    rw [run_append,run_cons,run_nil] at hget
    generalize run (World.step l) {} acts = w at ih hget
    cases act with
    | call c => exact (ih hget).mono hsub
    | attach offset =>
      rcases List.mem_append.mp (List.mem_of_getElem? hget) with hold | hnew
      · by_cases hlt : i < w.attaches.length
        · rw [World.step,List.getElem?_append_left hlt] at hget
          exact (ih hget).mono hsub
        · rw [World.step,List.getElem?_append_right (Nat.le_of_not_lt hlt)] at hget
          rw [List.mem_singleton.mp (List.mem_of_getElem? hget)]
          exact .start _ _ l offset
      · rw [List.mem_singleton.mp hnew]
        exact .start _ _ l offset
    | turn j t =>
      cases hj : w.attaches[j]? with
      | none =>
        have hstep : w.step l (.turn j t) = w := by simp only [World.step,hj]
        rw [hstep] at hget
        exact (ih hget).mono hsub
      | some b =>
        have hstep : (w.step l (.turn j t)).attaches = w.attaches.set j (b.turn l w.sup t) := by
          simp only [World.step,hj]
        rw [hstep,List.getElem?_set] at hget
        split at hget
        · next hij =>
          subst hij
          split at hget
          · cases hget
            exact ((ih hj).mono hsub).turn w.sup (List.mem_append_right _ List.mem_cons_self)
          · cases hget
        · exact (ih hget).mono hsub

/-- What a supervisor promises of a run. -/
structure Kept (l : Launch) (acts : List (Act B)) : Prop where
  /-- The phase goes from parked to running to finished to released, or from parked to released. -/
  phases : Along (World.step l) (fun w act => Goes w.sup.phase (w.step l act).sup.phase) {} acts
  once : (run (World.step l) {} acts).sup.started ≤ 1
  /-- The command is never started after a `Cancel` or a `Release` that came while parked. -/
  barred : ∀ before act after, acts = before ++ act :: after → act.Stops →
    (run (World.step l) {} before).sup.phase = .parked → (run (World.step l) {} acts).sup.started = 0
  settled : ∀ before after, acts = before ++ after → (run (World.step l) {} before).sup.Set →
    (run (World.step l) {} acts).sup.outcome = (run (World.step l) {} before).sup.outcome
  /-- A set outcome was set by one act, and carries the first cancel's reason if and only if a `Cancel` came before it. -/
  reason : (run (World.step l) {} acts).sup.Set →
    ∃ before after, acts = before ++ .call .record :: after ∧ ¬(run (World.step l) {} before).sup.Set ∧
      (run (World.step l) {} (before ++ [.call .record])).sup.Set ∧
      (run (World.step l) {} acts).sup.outcome.cancelAsked = (firstCancel before).isSome ∧
      (run (World.step l) {} acts).sup.outcome.cancelReason = (firstCancel before).getD ""

/-- What an `Attach` has done when the supervisor is `s`, after the acts. -/
structure Attach.Served (l : Launch) (s : Supervisor B) (acts : List (Act B)) (i : ℕ) (a : Attach B) : Prop where
  /-- The pieces handed to `emit` follow each other from the offset on, and are what the output has there. -/
  follow : Follow a.offset a.emitted
  handed : a.handed <+: s.spool.drop (a.offset - l.OutputBase)
  refused : a.offset < l.OutputBase → a.emitted = [] ∧ a.place = .returned (.refused (failf .invalidInput
    s!"the job's output from offset {a.offset} was asked for, and this attempt's starts at {l.OutputBase}"))
  /-- Only such an `Attach` is refused. -/
  admitted : ∀ f, a.place = .returned (.refused f) → a.offset < l.OutputBase
  /-- The outcome is returned when it is set and every byte written was handed over. -/
  outcome : ∀ o, a.place = .returned (.outcome o) → s.Set ∧ o = s.outcome ∧ a.handed = s.spool.drop (a.offset - l.OutputBase)
  released : a.place = .returned .errReleased → s.phase = .released
  answered : ∀ e, a.place = .returned e → e.Answered acts i
  /-- In its select it has handed over all that was announced and the command has not ended, or it is about to be
  woken. -/
  sleeps : ∀ wake, a.place = .sleeps wake → wake < s.changed.closed ∨ s.Pending ∨ (¬s.Over ∧ s.announced ≤ a.pos)

theorem Attach.Ok.served {s : Supervisor B} {a : Attach B} {acts : List (Act B)} {i : ℕ} (h : a.Ok l s)
    (htold : a.Told acts i) : a.Served l s acts i where
  follow := h.follow
  handed := h.handed
  refused := by
    intro hlt
    rcases h.inside with ⟨f,hf⟩ | hge
    · have hp := h.place
      rw [hf] at hp
      obtain ⟨-,hnil,hmessage⟩ := hp
      exact ⟨hnil,by rw [hf,hmessage]⟩
    · omega
  admitted := by
    intro f hf
    have hp := h.place
    rw [hf] at hp
    exact hp.1
  outcome := by
    intro o ho
    have hp := h.place
    rw [ho] at hp
    exact hp
  released := by
    intro hr
    have hp := h.place
    rw [hr] at hp
    exact hp
  answered := htold.ending
  sleeps := by
    intro wake hw
    have hp := h.place
    rw [hw] at hp
    by_cases hlt : wake < s.changed.closed
    · exact Or.inl hlt
    · exact Or.inr (hp.2 hlt)

/-- In every run, the command is started at most once, the outcome is set once and carries the first cancel, and
every `Attach` hands over the output from its offset on. -/
theorem a_supervisor_hands_over_all (l : Launch) (acts : List (Act B)) :
    Kept l acts ∧ ∀ (i : ℕ) (a : Attach B), (run (World.step l) {} acts).attaches[i]? = some a →
      a.Served l (run (World.step l) {} acts).sup acts i := by
  have hok := World.Ok.run l acts
  refine ⟨⟨?_,?_,?_,?_,set_run l acts⟩,?_⟩
  · exact Along.ensures (C := fun _ _ => True) (I := World.Ok l) (fun w act h _ => ⟨h.step act,(h.moves act).phase⟩) .init
      (along_of_forall (fun _ _ => trivial) _ _)
  · refine hok.sup.started.trans ?_
    cases (run (World.step l) {} acts).sup.runner with
    | idle => exact Nat.zero_le 1
    | begun => exact Nat.zero_le 1
    | _ => exact Nat.le_refl 1
  · rintro before act after rfl hstops hparked
    have hbefore := World.Ok.run l before
    obtain ⟨hzero,hwhy⟩ := hbefore.stops hstops hparked
    rw [run_append,run_cons]
    exact (hbefore.step act).run_barred hzero hwhy after
  · rintro before after rfl hset
    rw [run_append]
    exact (World.Ok.run l before).run_final hset after
  · intro i a hget
    exact (hok.attaches a (List.mem_of_getElem? hget)).served (told_run l acts hget)

namespace Sample

def acts : List (Act ℕ) :=
  [.attach 5,.turn 0 .take,.call .Start,.turn 0 .look,.call .execute,.call (.write [1,2] true),.turn 0 (.drain 0),
   .turn 0 (.pass none),.call (.Cancel "enough"),.call (.Cancel "again"),.call (.write [3] false),
   .call (.commandEnds (.commandEnded (some (.ended ⟨.cancelled,0⟩)))),.turn 0 (.drain 7),.turn 0 (.pass none),
   .turn 0 (.drain 7),.call .record,.call .notifyEnd,.turn 0 .wake,.attach 6,.turn 1 .take,.turn 1 .look,.call .Release,
   .turn 0 .take,.turn 0 .look,.turn 1 (.drain 7),.turn 1 (.pass none),.turn 1 (.drain 7)]

theorem a_supervisor_hands_over_all_cancelled :
    Kept ⟨5,false⟩ acts ∧ (∀ (i : ℕ) (a : Attach ℕ), (run (World.step ⟨5,false⟩) {} acts).attaches[i]? = some a →
      a.Served ⟨5,false⟩ (run (World.step ⟨5,false⟩) {} acts).sup acts i) ∧
      (run (World.step ⟨5,false⟩) {} acts).attaches.map (fun a => (a.emitted,a.place)) =
        [([(5,[1]),(6,[2,3])],.returned .errReleased),
         ([(6,[2,3])],.returned (.outcome ⟨some (.commandEnded (some (.ended ⟨.cancelled,0⟩))),true,"enough"⟩))] :=
  ⟨(a_supervisor_hands_over_all ⟨5,false⟩ acts).1,(a_supervisor_hands_over_all ⟨5,false⟩ acts).2,by decide +kernel⟩

/-- An `Attach` before this attempt's output ends while the supervisor waits to be started, with no fault of
the spool, of `emit` or of its context. -/
theorem attach_before_the_output :
    ¬∀ (l : Launch) (acts : List (Act ℕ)) (i : ℕ) (a : Attach ℕ) (e : Ending),
      (run (World.step l) {} acts).attaches[i]? = some a → a.place = .returned e →
        (∃ o, e = .outcome o) ∨ (e = .errReleased ∧ (run (World.step l) {} acts).sup.phase = .released) ∨
          .turn i .ctxEnds ∈ acts ∨ (∃ err, .turn i (.failRead err) ∈ acts) ∨ ∃ err, .turn i (.pass (some err)) ∈ acts := by
  intro h
  have hrefused := h ⟨5,false⟩ [.attach 3] 0 _ _ rfl rfl
  simp at hrefused

end Sample

end Vibesys.Attached
