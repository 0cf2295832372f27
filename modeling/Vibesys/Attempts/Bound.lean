import Mathlib.Data.List.Nodup
import Mathlib.Data.List.Range
import Vibesys.Attempts.Rows

/-!
# The retry bound of a step over crashes

A history keeps, for one step, the attempts that began, how each of them ended, and those a record called lost. While
the step is open, its row counts that history: one attempt runs at a time, and an attempt is charged once, if it raised
or was lost. A start is only due within the retry bound.
-/
namespace Vibesys.Attempts

open Library

/-- How an attempt ended without a result. A host that died leaves it open whether its work is lost. -/
inductive Ending
  | paused | shutdown | raised | parked | died | earlierVersion
  deriving DecidableEq

structure History where
  begun : List ℕ := []
  endings : List (ℕ × Ending) := []
  lost : List ℕ := []
  deriving DecidableEq

def History.raised (h : History) : List (ℕ × Ending) := h.endings.filter (fun e => e.2 = .raised)

def History.charges (h : History) : ℕ := h.raised.length + h.lost.length

def History.began (h : History) (attempt : ℕ) : History := {h with begun := h.begun ++ [attempt]}

def History.ends (h : History) (attempt : ℕ) (how : Ending) : History :=
  {h with endings := h.endings ++ [(attempt,how)]}

def History.loses (h : History) (attempt : ℕ) : History := {h with lost := h.lost ++ [attempt]}

variable {ρ κ ε : Type}

/-- What the epoch of a record tells of the step: `o` is the state it opens. -/
def History.tellEpoch (h : History) (tag : String) (s o : State ρ κ) (epoch : ℕ) : History :=
  match s.of tag with
  | some row =>
    if s.epoch < epoch ∧ !row.ended then
      h.ends row.started (if s.core.status = .parked then .parked else .died)
    else h
  | none => if (o.of tag).isSome then (h.began 1).ends 1 .earlierVersion else h

def History.tellBody (h : History) (tag : String) : Body ρ ε → History
  | .stepStarted t attempt _ _ => if t = tag then h.began attempt else h
  | .attemptInterrupted t attempt why =>
    if t = tag then
      match why with
      | .pause => h.ends attempt .paused
      | .shutdown => h.ends attempt .shutdown
      | .raised => h.ends attempt .raised
      | .lost => h.loses attempt
    else h
  | _ => h

def Body.finishes : Body ρ ε → Option String
  | .stepFinished tag _ _ => some tag
  | _ => none

/-! ## What the row counts -/

/-- The row counts the history, within the bound. An attempt still to be settled is one a dead host left, and not yet
lost. -/
structure Tally.Counts (limit : ℕ) (t : Tally) (h : History) : Prop where
  pos : 1 ≤ t.started
  begun : h.begun = List.range' 1 t.started
  endings : h.endings.map Prod.fst = List.range' 1 (t.started - if t.ended then 0 else 1)
  charged : (t.started : ℤ) - t.uncharged = h.charges + if t.ended then 0 else 1
  lost : ∀ a ∈ h.lost, (a,Ending.died) ∈ h.endings
  once : h.lost.Nodup
  unsettled : t.unsettled → t.ended ∧ (t.started,Ending.died) ∈ h.endings ∧ t.started ∉ h.lost
  bound : h.charges + (if t.ended && !t.unsettled then 0 else 1) ≤ limit + 1

def Counted (limit : ℕ) : Option Tally → History → Prop
  | none,h => h = {}
  | some t,h => t.Counts limit h

namespace Tally.Counts

variable {limit : ℕ} {t : Tally} {h : History}

theorem lt_of_running (c : t.Counts limit h) (hrun : t.ended = false) {a : ℕ} (ha : a ∈ h.lost) : a < t.started := by
  have hmem : a ∈ h.endings.map Prod.fst := List.mem_map_of_mem (f := Prod.fst) (c.lost a ha)
  rw [c.endings] at hmem
  simp only [hrun,Bool.false_eq_true,if_false,List.mem_range'_1] at hmem
  have := c.pos
  omega

theorem began (c : t.Counts limit h) (hended : t.ended) (hwithin : (t.started : ℤ) - t.uncharged ≤ limit) :
    Tally.Counts limit ⟨t.started + 1,false,t.uncharged,false⟩ (h.began (t.started + 1)) := by
  have hcharged := c.charged
  have hendings := c.endings
  simp only [hended,if_true] at hcharged hendings
  refine ⟨by simp,?_,hendings,?_,c.lost,c.once,by simp,?_⟩
  · show h.begun ++ [t.started + 1] = _
    rw [c.begun,List.range'_1_concat,Nat.add_comm]
  · show ((t.started + 1 : ℕ) : ℤ) - t.uncharged = (h.charges : ℤ) + 1
    push_cast
    omega
  · show h.charges + 1 ≤ limit + 1
    omega

theorem first (limit : ℕ) : Tally.Counts limit ⟨1,false,0,false⟩ (History.began {} 1) :=
  ⟨by simp,rfl,rfl,rfl,by simp [History.began],by simp [History.began],by simp,
    by simp [History.charges,History.raised,History.began]⟩

theorem earlier (limit : ℕ) : Tally.Counts limit ⟨1,true,1,false⟩ ((History.began {} 1).ends 1 .earlierVersion) :=
  ⟨by simp,rfl,rfl,rfl,by simp [History.began,History.ends],by simp [History.began,History.ends],by simp,
    by simp [History.charges,History.raised,History.began,History.ends]⟩

theorem charges_ends (h : History) (a : ℕ) (how : Ending) :
    (h.ends a how).charges = h.charges + if how = .raised then 1 else 0 := by
  simp only [History.charges,History.raised,History.ends,List.filter_append,List.length_append]
  by_cases hr : how = .raised
  · simp [hr]
    omega
  · simp [hr]

theorem ends (c : t.Counts limit h) (hrun : t.ended = false) (how : Ending) :
    Tally.Counts limit ⟨t.started,true,t.uncharged + (if how = .raised then 0 else 1),how = .died⟩
      (h.ends t.started how) := by
  have hcharged := c.charged
  have hendings := c.endings
  have hbound := c.bound
  have hpos := c.pos
  simp only [hrun,Bool.false_eq_true,if_false,Bool.false_and] at hcharged hendings hbound
  refine ⟨hpos,c.begun,?_,?_,?_,c.once,?_,?_⟩
  · show (h.endings ++ [(t.started,how)]).map Prod.fst = List.range' 1 (t.started - 0)
    obtain ⟨n,hn⟩ : ∃ n, t.started = n + 1 := ⟨t.started - 1,by omega⟩
    rw [List.map_append,hendings,hn]
    simp [List.range'_1_concat,Nat.add_comm]
  · rw [charges_ends]
    by_cases hr : how = .raised <;> simp [hr] <;> omega
  · intro a ha
    exact List.mem_append_left _ (c.lost a ha)
  · intro hd
    have hd : how = .died := by simpa using hd
    subst hd
    exact ⟨rfl,List.mem_append_right _ List.mem_cons_self,fun ha => (c.lt_of_running hrun ha).ne rfl⟩
  · rw [charges_ends]
    by_cases hd : how = .died
    · subst hd
      simpa using hbound
    · by_cases hr : how = .raised <;> simp [hd,hr] <;> omega

theorem loses (c : t.Counts limit h) (hleft : t.unsettled) :
    Tally.Counts limit ⟨t.started,t.ended,t.uncharged - 1,false⟩ (h.loses t.started) := by
  obtain ⟨hended,hdied,hnew⟩ := c.unsettled hleft
  have hcharged := c.charged
  have hbound := c.bound
  simp only [hended,hleft,if_true,Bool.not_true,Bool.and_false,Bool.false_eq_true,if_false] at hcharged hbound
  have hcharges : (h.loses t.started).charges = h.charges + 1 := by
    simp [History.charges,History.raised,History.loses]
    omega
  refine ⟨c.pos,c.begun,c.endings,?_,?_,?_,by simp,?_⟩
  · rw [hcharges,hended]
    push_cast
    simp only [if_true]
    omega
  · intro a ha
    rcases List.mem_append.mp ha with ha | ha
    · exact c.lost a ha
    · rw [List.mem_singleton.mp ha]
      exact hdied
  · refine List.nodup_append.mpr ⟨c.once,List.nodup_singleton _,fun a ha b hb => ?_⟩
    rintro rfl
    rw [List.mem_singleton.mp hb] at ha
    exact hnew ha
  · rw [hcharges,hended]
    simpa using hbound

end Tally.Counts

/-! ## Runs of the fold -/

namespace Kernel

variable (k : Kernel ρ κ ε)

theorem counted_observed {limit : ℕ} {s o : State ρ κ} {epoch : ℕ} {clock : Option ℚ} {tag : String} {q : ρ} {h : History}
    (hc : Counted limit (s.tally tag) h) (ho : k.observed s epoch clock = .ok o) (hopen : k.openRequest s tag = some q) :
    Counted limit (o.tally tag) (h.tellEpoch tag s o epoch) := by
  have hobserved := k.observed_ok ho hopen
  unfold History.tellEpoch
  cases hof : s.of tag with
  | none =>
    have hnone : s.tally tag = none := by
      unfold State.tally
      rw [hof]
      rfl
    rw [hnone] at hc hobserved
    have hnew : o.tally tag = none ∨ o.tally tag = some ⟨1,true,1,false⟩ := by
      rcases hobserved with ⟨hsame,-⟩ | ⟨-,hsame | ⟨-,hfirst⟩⟩
      · exact Or.inl hsame
      · exact Or.inl hsame
      · exact Or.inr hfirst
    have hsome : (o.of tag).isSome = (o.tally tag).isSome := by
      unfold State.tally
      rw [Option.isSome_map]
    dsimp only
    rw [hsome]
    rcases hnew with hnew | hnew
    · rw [hnew]
      exact hc
    · have hc : h = {} := hc
      rw [hnew,hc]
      exact Tally.Counts.earlier limit
  | some row =>
    have hrow : s.tally tag = some row.tally := by
      unfold State.tally
      rw [hof]
      rfl
    rw [hrow] at hc hobserved
    have c : row.tally.Counts limit h := hc
    dsimp only
    rcases hobserved with ⟨hsame,hle⟩ | ⟨hlater,hsame | ⟨hnone,-⟩⟩
    · rw [if_neg (by omega),hsame]
      exact c
    · rw [hsame]
      cases hended : row.ended with
      | true =>
        have hkept : openedTally (s.core.status == .parked) row.tally = row.tally := by
          simp [openedTally,StepAttempts.tally,hended]
        rw [if_neg (by simp)]
        show (openedTally _ row.tally).Counts limit h
        rw [hkept]
        exact c
      | false =>
        have hsettled : row.unsettled = false := by
          by_contra hleft
          have := (c.unsettled (by simpa [StepAttempts.tally] using hleft)).1
          simp [StepAttempts.tally,hended] at this
        rw [if_pos ⟨hlater,by simp⟩]
        by_cases hparked : s.core.status = .parked
        · have hrun := c.ends hended .parked
          rw [if_pos hparked]
          simpa [Counted,openedTally,StepAttempts.tally,hended,hsettled,hparked] using hrun
        · have hrun := c.ends hended .died
          have hstatus : (s.core.status == .parked) = false := by simpa using hparked
          rw [if_neg hparked,hstatus]
          simpa [Counted,openedTally,StepAttempts.tally,hended,hsettled] using hrun
    · cases hnone

theorem counted_body [DecidableEq ρ] {o s' : State ρ κ} {body : Body ρ ε} {tag : String} {q : ρ} {h : History}
    (hc : Counted (k.retryLimit q) (o.tally tag) h) (hbody : k.applyBody o body = .ok s')
    (hopen : k.openRequest o tag = some q) (hfinish : body.finishes ≠ some tag) :
    Counted (k.retryLimit q) (s'.tally tag) (h.tellBody tag body) := by
  cases body with
  | stepStarted t attempt request deadline =>
    have hstart := k.start_ok hbody hopen
    unfold History.tellBody
    dsimp only
    by_cases heq : t = tag
    · rw [if_pos heq] at hstart ⊢
      cases ht : o.tally tag with
      | none =>
        rw [ht] at hstart hc
        obtain ⟨hattempt,hnew⟩ := hstart
        have hc : h = {} := hc
        rw [hnew,hattempt,hc]
        exact Tally.Counts.first _
      | some t =>
        rw [ht] at hstart hc
        obtain ⟨hattempt,hended,hwithin,hnew⟩ := hstart
        rw [hnew,hattempt]
        exact Tally.Counts.began hc hended hwithin
    · rw [if_neg heq] at hstart ⊢
      rw [hstart]
      exact hc
  | attemptInterrupted t attempt why =>
    obtain ⟨s₁,hs₁,hbody⟩ := bind_ok hbody
    cases hbody
    have hinterrupted := k.interrupted_ok hs₁ hopen
    show Counted _ (s₁.tally tag) _
    unfold History.tellBody
    dsimp only
    by_cases heq : t = tag
    · rw [if_pos heq] at hinterrupted ⊢
      obtain ⟨row,hrow,hattempt,hnew⟩ := hinterrupted
      rw [hrow] at hc
      have c : row.Counts (k.retryLimit q) h := hc
      subst hattempt
      have hsettled : row.ended = false → row.unsettled = false := fun hrun => by
        by_contra hleft
        have := (c.unsettled (by simpa using hleft)).1
        rw [hrun] at this
        cases this
      cases why with
      | lost =>
        obtain ⟨hleft,hnew⟩ := hnew
        rw [hnew]
        exact c.loses hleft
      | pause =>
        obtain ⟨hrun,hnew⟩ := hnew
        rw [hnew,hsettled hrun]
        exact c.ends hrun .paused
      | shutdown =>
        obtain ⟨hrun,hnew⟩ := hnew
        rw [hnew,hsettled hrun]
        exact c.ends hrun .shutdown
      | raised =>
        obtain ⟨hrun,hnew⟩ := hnew
        rw [hnew,hsettled hrun]
        exact c.ends hrun .raised
    · rw [if_neg heq] at hinterrupted ⊢
      rw [hinterrupted]
      exact hc
  | stepFinished t attempt result =>
    rw [k.finish_ok hbody (fun heq => hfinish (congrArg some heq))]
    exact hc
  | coreInput event =>
    cases hbody
    have hclock : ((k.clockOf event).elim o (k.advanceRunTime o)).tally tag = o.tally tag := by
      cases k.clockOf event with
      | none => rfl
      | some now => exact k.tally_advanceRunTime o now tag
    show Counted _ (((k.clockOf event).elim o (k.advanceRunTime o)).tally tag) h
    rw [hclock]
    exact hc
  | other =>
    cases hbody
    exact hc

variable [DecidableEq ρ]

/-- The step is open, with the request `q`, when the record is read, and the record is not its result. -/
def StaysOpen (tag : String) (q : ρ) (s : State ρ κ) (r : Record ρ ε) : Prop :=
  k.openRequest s tag = some q ∧
    (∀ o ∈ (k.observed s r.epoch r.clock).toOption, k.openRequest o tag = some q) ∧ r.body.finishes ≠ some tag

instance (tag : String) (q : ρ) (s : State ρ κ) (r : Record ρ ε) : Decidable (k.StaysOpen tag q s r) :=
  inferInstanceAs (Decidable (_ ∧ _ ∧ _))

def opened (tag : String) (p : State ρ κ × History) (r : Record ρ ε) : History :=
  match k.observed p.1 r.epoch r.clock with
  | .ok o => p.2.tellEpoch tag p.1 o r.epoch
  | .error _ => p.2

/-- The fold of one record, and what it tells of the step. A record the fold refuses is not in the log. -/
def heard (tag : String) (p : State ρ κ × History) (r : Record ρ ε) : State ρ κ × History :=
  match k.applyRecord p.1 r with
  | .ok s => (s,(k.opened tag p r).tellBody tag r.body)
  | .error _ => p

theorem applyRecord_ok {s s' : State ρ κ} {r : Record ρ ε} (h : k.applyRecord s r = .ok s') :
    ∃ o s₁, k.observed s r.epoch r.clock = .ok o ∧ k.applyBody o r.body = .ok s₁ ∧
      ∀ tag, s'.tally tag = s₁.tally tag := by
  obtain ⟨o,ho,h⟩ := bind_ok h
  obtain ⟨s₁,hs₁,h⟩ := bind_ok h
  cases h
  exact ⟨o,s₁,ho,hs₁,fun _ => rfl⟩

theorem counted_heard {tag : String} {q : ρ} (p : State ρ κ × History) (r : Record ρ ε)
    (hc : Counted (k.retryLimit q) (p.1.tally tag) p.2) (hopen : k.StaysOpen tag q p.1 r) :
    Counted (k.retryLimit q) ((k.heard tag p r).1.tally tag) (k.heard tag p r).2 := by
  unfold heard
  split
  · next s' hs' =>
    obtain ⟨o,s₁,ho,hs₁,htally⟩ := k.applyRecord_ok hs'
    have hopened : k.opened tag p r = p.2.tellEpoch tag p.1 o r.epoch := by
      unfold opened
      rw [ho]
    rw [hopened,htally]
    exact k.counted_body (k.counted_observed hc ho hopen.1) hs₁
      (hopen.2.1 o (by rw [ho]; rfl)) hopen.2.2
  · exact hc

/-- What holds of an accepted record about the step. A start comes when every attempt before has ended, with the next
number and within the bound. An attempt is lost before the next begins, once, if its host died. -/
def Due (tag : String) (q : ρ) (p : State ρ κ × History) (r : Record ρ ε) : Prop :=
  (k.applyRecord p.1 r).isOk →
    let h := k.opened tag p r
    (∀ attempt request deadline, r.body = .stepStarted tag attempt request deadline →
      attempt = h.begun.length + 1 ∧ h.endings.length = h.begun.length ∧ h.charges ≤ k.retryLimit q) ∧
    ∀ attempt, r.body = .attemptInterrupted tag attempt .lost →
      attempt = h.begun.length ∧ (attempt,Ending.died) ∈ h.endings ∧ attempt ∉ h.lost

theorem due {tag : String} {q : ρ} (p : State ρ κ × History) (r : Record ρ ε)
    (hc : Counted (k.retryLimit q) (p.1.tally tag) p.2) (hopen : k.StaysOpen tag q p.1 r) : k.Due tag q p r := by
  intro hok
  cases hs' : k.applyRecord p.1 r with
  | error e =>
    rw [hs'] at hok
    cases hok
  | ok s' =>
    obtain ⟨o,s₁,ho,hs₁,-⟩ := k.applyRecord_ok hs'
    have hopened : k.opened tag p r = p.2.tellEpoch tag p.1 o r.epoch := by
      unfold opened
      rw [ho]
    have hc' := k.counted_observed hc ho hopen.1
    have hopen' := hopen.2.1 o (by rw [ho]; rfl)
    dsimp only
    rw [hopened]
    generalize p.2.tellEpoch tag p.1 o r.epoch = h at hc'
    refine ⟨?_,?_⟩
    · intro attempt request deadline hbody
      rw [hbody] at hs₁
      have hstart := k.start_ok hs₁ hopen'
      rw [if_pos rfl] at hstart
      cases ht : o.tally tag with
      | none =>
        rw [ht] at hstart hc'
        have hc' : h = {} := hc'
        subst hc'
        exact ⟨hstart.1,rfl,Nat.zero_le _⟩
      | some t =>
        rw [ht] at hstart hc'
        obtain ⟨hattempt,hended,hwithin,-⟩ := hstart
        have c : t.Counts (k.retryLimit q) h := hc'
        have hcharged := c.charged
        have hendings := congrArg List.length c.endings
        simp only [hended,if_true,List.length_map,List.length_range'] at hcharged hendings
        rw [c.begun,List.length_range']
        exact ⟨hattempt,by simpa using hendings,by omega⟩
    · intro attempt hbody
      rw [hbody] at hs₁
      obtain ⟨s₂,hs₂,-⟩ := bind_ok hs₁
      have hlost := k.interrupted_ok hs₂ hopen'
      rw [if_pos rfl] at hlost
      obtain ⟨row,hrow,hattempt,hleft,-⟩ := hlost
      rw [hrow] at hc'
      have c : row.Counts (k.retryLimit q) h := hc'
      obtain ⟨-,hdied,hnew⟩ := c.unsettled hleft
      subst hattempt
      rw [c.begun,List.length_range']
      exact ⟨rfl,hdied,hnew⟩

/-- The attempts of a step, as its row counts them: numbered from one, all but a running one ended, charged if they
raised or were lost. Only what a dead host left is lost, and at most `limit + 1` attempts are charged. -/
def Account (limit : ℕ) (row : Option StepAttempts) (h : History) : Prop :=
  (row.elim (h = {}) fun row =>
    h.begun = List.range' 1 row.started ∧
    h.endings.map Prod.fst = List.range' 1 (row.started - if row.ended then 0 else 1) ∧
    row.charged = h.raised.length + h.lost.length + if row.ended then 0 else 1) ∧
  h.lost.Nodup ∧ (∀ a ∈ h.lost, (a,Ending.died) ∈ h.endings) ∧
  (∀ a how, (a,how) ∈ h.endings → how ≠ .raised → how ≠ .died → a ∉ h.lost ∧ (a,Ending.raised) ∉ h.endings) ∧
  h.raised.length + h.lost.length ≤ limit + 1

omit [DecidableEq ρ] in
theorem account_of_counted {limit : ℕ} {s : State ρ κ} {tag : String} {h : History}
    (hc : Counted limit (s.tally tag) h) : Account limit (s.of tag) h := by
  unfold State.tally at hc
  cases hof : s.of tag with
  | none =>
    rw [hof] at hc
    have hc : h = {} := hc
    subst hc
    exact ⟨rfl,List.nodup_nil,by simp,by simp,Nat.zero_le _⟩
  | some row =>
    rw [hof] at hc
    have c : row.tally.Counts limit h := hc
    have hnodup : (h.endings.map Prod.fst).Nodup := by
      rw [c.endings]
      exact List.nodup_range'
    have hone : ∀ a how how', (a,how) ∈ h.endings → (a,how') ∈ h.endings → how = how' := by
      intro a how how' ha ha'
      exact congrArg Prod.snd (List.inj_on_of_nodup_map hnodup ha ha' rfl)
    refine ⟨⟨c.begun,c.endings,?_⟩,c.once,c.lost,?_,?_⟩
    · have hcharged := c.charged
      unfold History.charges at hcharged
      push_cast at hcharged
      exact hcharged
    · intro a how ha hraised hdied
      refine ⟨fun hlost => hdied (hone a _ _ ha (c.lost a hlost)),fun hr => hraised (hone a _ _ ha hr)⟩
    · have hbound := c.bound
      unfold History.charges at hbound
      omega

/-- The retry bound of an open step holds over crashes. -/
theorem the_retry_bound_holds (tag : String) (q : ρ) (s : State ρ κ) (hseed : s.of tag = none)
    (log : List (Record ρ ε)) (hopen : Along (k.heard tag) (fun p r => k.StaysOpen tag q p.1 r) (s,{}) log) :
    Account (k.retryLimit q) ((run (k.heard tag) (s,{}) log).1.of tag) (run (k.heard tag) (s,{}) log).2 ∧
      Along (k.heard tag) (k.Due tag q) (s,{}) log := by
  have hstart : Counted (k.retryLimit q) (s.tally tag) {} := by
    unfold State.tally
    rw [hseed]
    rfl
  refine ⟨account_of_counted ?_,?_⟩
  · exact hopen.invariant (I := fun p => Counted (k.retryLimit q) (p.1.tally tag) p.2)
      (fun p r hc ho => k.counted_heard p r hc ho) hstart
  · exact hopen.ensures (I := fun p => Counted (k.retryLimit q) (p.1.tally tag) p.2)
      (fun p r hc ho => ⟨k.counted_heard p r hc ho,k.due p r hc ho⟩) hstart

end Kernel

namespace Sample

def kernel : Kernel Unit Unit Unit where
  command _ := false
  ownedJob _ := false
  endPolicyCancels _ := true
  cancelsInterrupted _ := false
  retryLimit _ := 1
  delay _ := 1
  reconciliationBound := 0
  immediatePark _ := none
  pauseCancels _ _ := false
  runIsEnding _ := false
  withdrawnByClose _ _ := false
  firedWatch _ _ := false
  dependencyStatus _ _ := .succeeded
  limitOf _ record := record.untilAt
  starts _ _ _ := true
  startedUntil _ record := record.untilAt
  creditedRecords s _ := s.core.records
  creditedDeadline _ _ row := row.deadlineAt
  hostEpoch _ _ rest := rest
  settlePark s := s.core
  settleEnd s := s.core
  clockOf _ := none
  stepped s _ := s.core
  concluded s _ _ := s.core
  finished s _ _ := s.core

/-- The step opens while another one has a row. -/
def seed : State Unit Unit :=
  {nowAt := 0,core := ⟨["a","b"].map fun tag => {requestId := tag,request := (),untilAt := 100},.running,()⟩,
    attempts := [{tag := "b",started := 1,ended := true}]}

/-- The host of the first attempt dies and its work is lost, a pause ends the second, the third raises, and the fold
refuses a fourth. -/
def log : List (Record Unit Unit) :=
  [{epoch := 1,body := .other},
    {epoch := 1,clock := some 1,body := .stepStarted "a" 1 () 100},
    {epoch := 2,clock := some 2,body := .attemptInterrupted "a" 1 .lost},
    {epoch := 2,clock := some 3,body := .stepStarted "a" 2 () 100},
    {epoch := 2,clock := some 4,body := .attemptInterrupted "a" 2 .pause},
    {epoch := 2,clock := some 5,body := .stepStarted "a" 3 () 100},
    {epoch := 2,clock := some 6,body := .attemptInterrupted "a" 3 .raised},
    {epoch := 2,clock := some 9,body := .stepStarted "a" 4 () 100}]

theorem the_retry_bound_holds_spent :
    (run (kernel.heard "a") (seed,{}) log).2 =
        {begun := [1,2,3],endings := [(1,.died),(2,.paused),(3,.raised)],lost := [1]} ∧
      Kernel.Account 1 ((run (kernel.heard "a") (seed,{}) log).1.of "a") (run (kernel.heard "a") (seed,{}) log).2 ∧
      Along (kernel.heard "a") (kernel.Due "a" ()) (seed,{}) log :=
  ⟨by decide +kernel,kernel.the_retry_bound_holds "a" () seed rfl log (by decide +kernel)⟩

end Sample

end Vibesys.Attempts
