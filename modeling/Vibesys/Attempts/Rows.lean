import Vibesys.Attempts.Fold
import Vibesys.Library.Run

/-!
# What a record does to the row of an open step

The row of a step counts its attempts. Each function of the fold is read here by what it does to that count while the
step is open.
-/
namespace Vibesys.Attempts

open Library

variable {ρ κ ε : Type}

/-- The part of a row that counts: the rest is clocks. -/
structure Tally where
  started : ℕ
  ended : Bool
  uncharged : ℤ
  unsettled : Bool

def StepAttempts.tally (row : StepAttempts) : Tally := ⟨row.started,row.ended,row.uncharged,row.unsettled⟩

def State.tally (s : State ρ κ) (tag : String) : Option Tally := (s.of tag).map StepAttempts.tally

namespace Kernel

variable (k : Kernel ρ κ ε)

def openRequest (s : State ρ κ) (tag : String) : Option ρ := (k.openRecord s tag).toOption.map (·.request)

theorem openRecord_ok {s : State ρ κ} {tag : String} {record : RequestRecord ρ} :
    k.openRecord s tag = .ok record ↔ s.find tag = [record] ∧ k.isOpen record := by
  unfold openRecord
  split
  · rename_i r hr
    by_cases ho : k.isOpen r
    · simp only [ho,if_true,Except.ok.injEq,hr,List.cons.injEq,and_true]
      exact ⟨fun h => ⟨h,h ▸ ho⟩,fun h => h.1⟩
    · simp only [ho,Bool.false_eq_true,if_false,reduceCtorEq,false_iff,hr,List.cons.injEq,and_true]
      rintro ⟨rfl,h⟩
      exact ho h
  · rename_i hn
    simp only [reduceCtorEq,false_iff]
    rintro ⟨h,-⟩
    exact hn record h

theorem openRequest_eq {s : State ρ κ} {tag : String} {q : ρ} :
    k.openRequest s tag = some q ↔ ∃ record, s.find tag = [record] ∧ k.isOpen record ∧ record.request = q := by
  unfold openRequest
  cases h : k.openRecord s tag with
  | error e =>
    simp only [Except.toOption,Option.map_none,reduceCtorEq,false_iff]
    rintro ⟨record,hfind,ho,-⟩
    rw [(k.openRecord_ok).mpr ⟨hfind,ho⟩] at h
    cases h
  | ok record =>
    obtain ⟨hfind,ho⟩ := (k.openRecord_ok).mp h
    simp only [Except.toOption,Option.map_some,Option.some.injEq]
    refine ⟨fun hq => ⟨record,hfind,ho,hq⟩,?_⟩
    rintro ⟨r,hr,-,rfl⟩
    rw [hfind] at hr
    cases hr
    rfl

theorem find_replaced (s : State ρ κ) (record : RequestRecord ρ) (tag : String) :
    (s.replaced record).find tag =
      (s.find tag).map (fun other => if other.requestId = record.requestId then record else other) := by
  show List.filter _ (List.map _ _) = _
  rw [List.filter_map]
  congr 1
  apply List.filter_congr
  intro other _
  by_cases hid : other.requestId = record.requestId <;> simp [hid]

theorem openRequest_replaced {s : State ρ κ} {tag : String} {q : ρ} {record : RequestRecord ρ}
    (h : k.openRequest s tag = some q) (hrecord : record.requestId = tag → k.isOpen record ∧ record.request = q) :
    k.openRequest (s.replaced record) tag = some q := by
  obtain ⟨old,hfind,ho,hq⟩ := (k.openRequest_eq).mp h
  have hid : old.requestId = tag := by
    have hmem : old ∈ s.find tag := hfind ▸ List.mem_cons_self
    simpa using (List.mem_filter.mp hmem).2
  refine (k.openRequest_eq).mpr ⟨if old.requestId = record.requestId then record else old,?_,?_⟩
  · rw [find_replaced,hfind]
    rfl
  · split
    · next heq => exact hrecord (heq ▸ hid)
    · exact ⟨ho,hq⟩

theorem returned_ok {s s' : State ρ κ} {t : String} (h : k.returned s t = .ok s') :
    s'.attempts = s.attempts ∧ s'.epoch = s.epoch ∧
      ∀ {tag q}, k.openRequest s tag = some q → k.openRequest s' tag = some q := by
  obtain ⟨record,hrecord,h⟩ := bind_ok h
  obtain ⟨hfind,ho⟩ := (k.openRecord_ok).mp hrecord
  split at h
  · cases h
    exact ⟨rfl,rfl,fun h => h⟩
  · cases h
    refine ⟨rfl,rfl,fun {tag q} hopen => k.openRequest_replaced hopen ?_⟩
    have hmem : record ∈ s.find t := hfind ▸ List.mem_cons_self
    have hid : record.requestId = t := by simpa using (List.mem_filter.mp hmem).2
    have hagain : (k.unstarted s record).requestId = record.requestId ∧
        (k.unstarted s record).request = record.request ∧ (k.unstarted s record).phase = .prepared := by
      unfold unstarted
      dsimp only
      split <;> exact ⟨rfl,rfl,rfl⟩
    intro htag
    obtain ⟨r,hr,-,hq⟩ := (k.openRequest_eq).mp hopen
    rw [← htag,hagain.1,hid,hfind] at hr
    cases hr
    refine ⟨?_,hagain.2.1.trans hq⟩
    have hcanonical : k.command record.request = false := by
      have := ho
      unfold isOpen at this
      simp only [Bool.and_eq_true,Bool.not_eq_true'] at this
      exact this.1
    unfold isOpen
    rw [hagain.2.1,hagain.2.2,hcanonical]
    rfl

theorem endedByCore_of_open {s : State ρ κ} {tag : String} {q : ρ} (h : k.openRequest s tag = some q) :
    k.endedByCore s tag = .ok false := by
  obtain ⟨record,hfind,ho,-⟩ := (k.openRequest_eq).mp h
  unfold endedByCore
  rw [hfind]
  simp [ho]

theorem endRows_ok {parked : Bool} {tag : String} {q : ρ} {rows rows' : List StepAttempts} {s s' : State ρ κ}
    (h : k.endRows parked s rows = .ok (rows',s')) (hopen : k.openRequest s tag = some q) :
    k.openRequest s' tag = some q ∧ rows'.find? (fun row => row.tag == tag) =
      (rows.find? (fun row => row.tag == tag)).map (endedRow parked) := by
  induction rows generalizing s rows' s' with
  | nil =>
    cases h
    exact ⟨hopen,rfl⟩
  | cons row rows ih =>
    obtain ⟨byCore,hby,h⟩ := bind_ok h
    cases byCore with
    | true =>
      have hother : (row.tag == tag) = false := by
        rw [beq_eq_false_iff_ne]
        intro heq
        rw [heq,k.endedByCore_of_open hopen] at hby
        cases hby
      rw [List.find?_cons_of_neg (by simp [hother])]
      exact ih h hopen
    | false =>
      obtain ⟨s₁,hreturned,h⟩ := bind_ok h
      obtain ⟨⟨rest,s₂⟩,hrest,h⟩ := bind_ok h
      cases h
      obtain ⟨hopen',hfind⟩ := ih hrest ((k.returned_ok hreturned).2.2 hopen)
      refine ⟨hopen',?_⟩
      by_cases heq : row.tag = tag
      · simp [heq,endedRow]
      · rw [List.find?_cons_of_neg (by simpa [endedRow] using heq),List.find?_cons_of_neg (by simpa using heq)]
        exact hfind

theorem commandsLapsed_ok {s : State ρ κ} {tag : String} {q : ρ} (hopen : k.openRequest s tag = some q) :
    (k.commandsLapsed s).attempts = s.attempts ∧ k.openRequest (k.commandsLapsed s) tag = some q := by
  have hcanonical : ∀ record ∈ s.core.records, record.requestId = tag → k.commandOpen record = false := by
    intro record hmem hid
    obtain ⟨r,hfind,ho,-⟩ := (k.openRequest_eq).mp hopen
    have hr : record ∈ s.find tag := List.mem_filter.mpr ⟨hmem,by simpa using hid⟩
    rw [hfind,List.mem_singleton] at hr
    subst hr
    unfold isOpen at ho
    unfold commandOpen
    cases hc : k.command record.request
    · rfl
    · simp [hc] at ho
  have hloop : ∀ (records : List (RequestRecord ρ)) (s' : State ρ κ), s'.attempts = s.attempts →
      k.openRequest s' tag = some q →
      (∀ record ∈ records, record.requestId = tag → k.commandOpen record = false) →
      (records.foldl (fun s record =>
        if k.commandOpen record then s.replaced {record with phase := .blocked} else s) s').attempts = s.attempts ∧
      k.openRequest (records.foldl (fun s record =>
        if k.commandOpen record then s.replaced {record with phase := .blocked} else s) s') tag = some q := by
    intro records
    induction records with
    | nil => exact fun s' ha ho _ => ⟨ha,ho⟩
    | cons record records ih =>
      intro s' ha ho hrecords
      rw [List.foldl_cons]
      have hrest := fun r hr => hrecords r (List.mem_cons_of_mem _ hr)
      by_cases hc : k.commandOpen record
      · rw [if_pos hc]
        refine ih _ ha (k.openRequest_replaced ho fun hid => ?_) hrest
        rw [hrecords record List.mem_cons_self hid] at hc
        cases hc
      · rw [if_neg hc]
        exact ih _ ha ho hrest
  exact hloop _ _ rfl hopen hcanonical

end Kernel

theorem of_forgotten (s : State ρ κ) {t tag : String} (h : t ≠ tag) : (s.forgotten t).of tag = s.of tag := by
  show List.find? _ (List.filter _ _) = _
  rw [List.find?_filter]
  congr 1
  funext other
  by_cases ho : other.tag = tag
  · simp [ho,h.symm]
  · simp [ho]

theorem of_withRow (s : State ρ κ) {t : String} {row : StepAttempts} (hrow : row.tag = t) (tag : String) :
    (s.withRow t row).of tag = if t = tag then some row else s.of tag := by
  show List.find? _ (_ ++ _) = _
  rw [List.find?_append]
  by_cases heq : t = tag
  · subst heq
    rw [if_pos rfl,List.find?_eq_none.mpr (by simp [List.mem_filter])]
    simp [hrow]
  · rw [if_neg heq]
    show ((s.forgotten t).of tag).or _ = _
    rw [of_forgotten s heq]
    simp [hrow,heq]

theorem tally_withRow_self (s : State ρ κ) {tag : String} {row : StepAttempts} (hrow : row.tag = tag) :
    (s.withRow tag row).tally tag = some row.tally := by
  unfold State.tally
  rw [of_withRow s hrow,if_pos rfl]
  rfl

theorem tally_withRow_other (s : State ρ κ) {t tag : String} {row : StepAttempts} (hrow : row.tag = t) (h : t ≠ tag) :
    (s.withRow t row).tally tag = s.tally tag := by
  unfold State.tally
  rw [of_withRow s hrow,if_neg h]

theorem tally_forgotten (s : State ρ κ) {t tag : String} (h : t ≠ tag) : (s.forgotten t).tally tag = s.tally tag := by
  unfold State.tally
  rw [of_forgotten s h]

theorem tally_of_attempts {s s' : State ρ κ} (h : s'.attempts = s.attempts) (tag : String) :
    s'.tally tag = s.tally tag := by
  unfold State.tally State.of
  rw [h]

namespace Kernel

variable (k : Kernel ρ κ ε)

/-- What settling an earlier version's ledger does to the row of an open step: it may give it its first row. -/
def FirstRow (before after : Option Tally) : Prop := after = before ∨ before = none ∧ after = some ⟨1,true,1,false⟩

theorem settledRecord_ok {s s' : State ρ κ} {record : RequestRecord ρ} {tag : String} {q : ρ}
    (h : k.settledRecord s record = .ok s') (hopen : k.openRequest s tag = some q) :
    k.openRequest s' tag = some q ∧ FirstRow (s.tally tag) (s'.tally tag) := by
  unfold settledRecord at h
  split at h
  · next hc =>
    simp only [Bool.and_eq_true,Option.isNone_iff_eq_none] at hc
    obtain ⟨hattempts,-,hkeeps⟩ := k.returned_ok h
    refine ⟨hkeeps hopen,?_⟩
    rw [tally_of_attempts hattempts]
    by_cases hid : record.requestId = tag
    · subst hid
      exact Or.inr ⟨by unfold State.tally; rw [hc.1.2]; rfl,tally_withRow_self s rfl⟩
    · exact Or.inl (tally_withRow_other s rfl hid)
  · cases h
    exact ⟨hopen,Or.inl rfl⟩

theorem earlierVersionSettled_ok {s s' : State ρ κ} {tag : String} {q : ρ}
    (h : k.earlierVersionSettled s = .ok s') (hopen : k.openRequest s tag = some q) :
    FirstRow (s.tally tag) (s'.tally tag) := by
  have hloop : ∀ (records : List (RequestRecord ρ)) (s₁ s' : State ρ κ),
      records.foldlM k.settledRecord s₁ = .ok s' → k.openRequest s₁ tag = some q →
      FirstRow (s₁.tally tag) (s'.tally tag) := by
    intro records
    induction records with
    | nil =>
      intro s₁ s' h _
      cases h
      exact Or.inl rfl
    | cons record records ih =>
      intro s₁ s' h ho
      rw [List.foldlM_cons] at h
      obtain ⟨s₂,hrecord,h⟩ := bind_ok h
      obtain ⟨ho',hfirst⟩ := k.settledRecord_ok hrecord ho
      rcases hfirst with hsame | ⟨hnone,hsome⟩
      · rw [← hsame]
        exact ih s₂ s' h ho'
      · rcases ih s₂ s' h ho' with hsame | ⟨hnone',-⟩
        · exact Or.inr ⟨hnone,hsame.trans hsome⟩
        · rw [hsome] at hnone'
          cases hnone'
  obtain ⟨hattempts,hopen'⟩ := k.commandsLapsed_ok hopen
  rw [← tally_of_attempts hattempts tag]
  exact hloop _ _ _ h hopen'

/-- The row once an epoch opened after it. -/
def openedTally (parked : Bool) (t : Tally) : Tally :=
  ⟨t.started,true,t.uncharged + (if t.ended then 0 else 1),t.unsettled || (!t.ended && !parked)⟩

theorem epochOpened_ok {s s' : State ρ κ} {epoch : ℕ} {tag : String} {q : ρ} (h : k.epochOpened s epoch = .ok s')
    (hlater : s.epoch < epoch) (hopen : k.openRequest s tag = some q) :
    FirstRow ((s.tally tag).map (openedTally (s.core.status == .parked))) (s'.tally tag) := by
  unfold epochOpened at h
  rw [if_neg (by omega)] at h
  obtain ⟨⟨rows,s₁⟩,hrows,h⟩ := bind_ok h
  obtain ⟨s₂,hsettled,h⟩ := bind_ok h
  cases h
  obtain ⟨hopen₁,hfind⟩ := k.endRows_ok hrows hopen
  have hended : ({s₁ with attempts := rows} : State ρ κ).tally tag =
      (s.tally tag).map (openedTally (s.core.status == .parked)) := by
    show (rows.find? _).map _ = ((s.attempts.find? _).map _).map _
    rw [hfind,Option.map_map,Option.map_map]
    rfl
  show FirstRow _ (s₂.tally tag)
  rw [← hended]
  split at hsettled
  · exact k.earlierVersionSettled_ok hsettled hopen₁
  · cases hsettled
    exact Or.inl rfl

theorem tally_advanceRunTime (s : State ρ κ) (now : ℚ) (tag : String) :
    (k.advanceRunTime s now).tally tag = s.tally tag := by
  unfold advanceRunTime
  dsimp only
  split
  · rfl
  · show (List.find? _ (List.map _ _)).map _ = (List.find? _ _).map _
    rw [List.find?_map,Option.map_map]
    rfl

/-- A record's epoch and clock leave the row as it is, end its attempt, or give the step its first row. -/
theorem observed_ok {s o : State ρ κ} {epoch : ℕ} {clock : Option ℚ} {tag : String} {q : ρ}
    (h : k.observed s epoch clock = .ok o) (hopen : k.openRequest s tag = some q) :
    o.tally tag = s.tally tag ∧ epoch ≤ s.epoch ∨ s.epoch < epoch ∧
      FirstRow ((s.tally tag).map (openedTally (s.core.status == .parked))) (o.tally tag) := by
  obtain ⟨opened,hopened,h⟩ := bind_ok h
  cases h
  have hclock : ∀ s' : State ρ κ, (clock.elim s' (k.advanceRunTime s')).tally tag = s'.tally tag := by
    intro s'
    cases clock with
    | none => rfl
    | some now => exact k.tally_advanceRunTime s' now tag
  rw [hclock]
  by_cases hle : epoch ≤ s.epoch
  · rw [if_pos hle]
    unfold epochOpened at hopened
    rw [if_pos hle] at hopened
    cases hopened
    exact Or.inl ⟨rfl,hle⟩
  · rw [if_neg hle]
    have hlater : s.epoch < epoch := by omega
    have hrow := k.epochOpened_ok hopened hlater hopen
    exact Or.inr ⟨hlater,hrow⟩

/-- The rule that starts a step: no attempt runs, and its charges are within the bound. -/
theorem startDue_ok {s : State ρ κ} {tag : String} {q : ρ} {now : ℚ} {action : Action}
    (h : k.startDue s tag now = .ok action) (hopen : k.openRequest s tag = some q) {t : Tally}
    (ht : s.tally tag = some t) : (t.started : ℤ) - t.uncharged ≤ k.retryLimit q := by
  obtain ⟨record,hfind,-,rfl⟩ := (k.openRequest_eq).mp hopen
  have hid : record.requestId = tag := by
    have hmem : record ∈ s.find tag := hfind ▸ List.mem_cons_self
    simpa using (List.mem_filter.mp hmem).2
  unfold startDue at h
  rw [hfind] at h
  simp only [List.head?_cons] at h
  split at h
  case isFalse => cases h
  split at h
  case h_2 => cases h
  rename_i attempt deadlineAt clearFirst hrun
  split at hrun
  · cases hrun
  unfold ofStep at hrun
  dsimp only at hrun
  split at hrun
  · split at hrun <;> cases hrun
  split at hrun
  · split at hrun <;> cases hrun
  split at hrun
  · split at hrun <;> cases hrun
  split at hrun
  · unfold stopRunning at hrun
    repeat' split at hrun
    all_goals cases hrun
  unfold startOrSettle at hrun
  dsimp only at hrun
  split at hrun
  · cases hrun
  split at hrun
  · cases hrun
  split at hrun
  · cases hrun
  next hwithin =>
    have hadvanced := (k.tally_advanceRunTime s now tag).trans ht
    unfold State.tally at hadvanced
    obtain ⟨row,hrow,rfl⟩ := Option.map_eq_some_iff.mp hadvanced
    rw [hid,hrow] at hwithin
    rw [Option.any_some,decide_eq_true_eq,not_lt] at hwithin
    exact hwithin

theorem start_ok [DecidableEq ρ] {s s' : State ρ κ} {tag t : String} {q request : ρ} {attempt : ℕ} {deadline : ℚ}
    (h : k.start s t attempt request deadline = .ok s') (hopen : k.openRequest s tag = some q) :
    if t = tag then
      (match s.tally tag with
        | none => attempt = 1 ∧ s'.tally tag = some ⟨1,false,0,false⟩
        | some row => attempt = row.started + 1 ∧ row.ended ∧ (row.started : ℤ) - row.uncharged ≤ k.retryLimit q ∧
          s'.tally tag = some ⟨row.started + 1,false,row.uncharged,false⟩)
    else s'.tally tag = s.tally tag := by
  obtain ⟨_,-,h⟩ := bind_ok h
  obtain ⟨action,hdue,h⟩ := bind_ok h
  obtain ⟨record,-,h⟩ := bind_ok h
  dsimp only at h
  split at h
  · cases h
  next hexpected =>
  cases h
  simp only [not_or,not_not] at hexpected
  obtain ⟨hattempt,-,hended⟩ := hexpected
  by_cases heq : t = tag
  · subst heq
    rw [if_pos rfl]
    cases hof : s.of t with
    | none =>
      rw [hof] at hattempt
      subst hattempt
      unfold State.tally
      rw [hof]
      exact ⟨rfl,tally_withRow_self _ rfl⟩
    | some row =>
      rw [hof] at hattempt hended
      have hrow : row.ended = true := by simpa using hended
      have htally : s.tally t = some row.tally := by
        unfold State.tally
        rw [hof]
        rfl
      subst hattempt
      rw [htally]
      exact ⟨rfl,hrow,k.startDue_ok hdue hopen htally,tally_withRow_self _ rfl⟩
  · rw [if_neg heq]
    exact tally_withRow_other _ rfl heq

theorem interrupted_ok {s s' : State ρ κ} {tag t : String} {q : ρ} {attempt : ℕ} {why : Interruption}
    (h : k.interrupted s t attempt why = .ok s') (hopen : k.openRequest s tag = some q) :
    if t = tag then ∃ row, s.tally tag = some row ∧ attempt = row.started ∧
      (if why = .lost then row.unsettled ∧ s'.tally tag = some ⟨row.started,row.ended,row.uncharged - 1,false⟩
        else row.ended = false ∧ s'.tally tag =
          some ⟨row.started,true,row.uncharged + (if why.charged then 0 else 1),row.unsettled⟩)
    else s'.tally tag = s.tally tag := by
  obtain ⟨byCore,hby,h⟩ := bind_ok h
  have hrow : ∀ {row : StepAttempts}, s.of t = some row → row.tag = t ∧ s.tally t = some row.tally := by
    intro row hof
    refine ⟨by simpa using List.find?_some hof,?_⟩
    unfold State.tally
    rw [hof]
    rfl
  split at h
  · next hlost =>
    unfold lost at h
    split at h
    case h_2 => cases h
    next row hof =>
    split at h
    case isFalse => cases h
    next hc =>
    by_cases heq : t = tag
    · subst heq
      rw [k.endedByCore_of_open hopen] at hby
      cases hby
      cases h
      rw [if_pos rfl]
      refine ⟨row.tally,(hrow hof).2,hc.1.symm,?_⟩
      rw [if_pos hlost]
      exact ⟨hc.2,tally_withRow_self s (hrow hof).1⟩
    · rw [if_neg heq]
      split at h <;> cases h
      · exact tally_forgotten s heq
      · exact tally_withRow_other s (hrow hof).1 heq
  · next hlost =>
    split at h
    case h_2 => cases h
    next row hof =>
    split at h
    case isFalse => cases h
    next hc =>
    by_cases heq : t = tag
    · subst heq
      rw [k.endedByCore_of_open hopen] at hby
      cases hby
      obtain ⟨s₁,hs₁,h⟩ := bind_ok h
      cases h
      rw [if_pos rfl]
      refine ⟨row.tally,(hrow hof).2,hc.1.symm,?_⟩
      rw [if_neg hlost]
      exact ⟨Bool.not_eq_true' _ ▸ hc.2,tally_withRow_self s₁ (hrow hof).1⟩
    · rw [if_neg heq]
      split at h
      · cases h
        exact tally_forgotten s heq
      · obtain ⟨s₁,hs₁,h⟩ := bind_ok h
        cases h
        refine (tally_withRow_other s₁ ?_ heq).trans (tally_of_attempts (k.returned_ok hs₁).1 tag)
        exact (hrow hof).1

theorem finish_ok {s s' : State ρ κ} {tag t : String} {attempt : ℕ} {result : ε}
    (h : k.finish s t attempt result = .ok s') (hother : t ≠ tag) : s'.tally tag = s.tally tag := by
  obtain ⟨byCore,-,h⟩ := bind_ok h
  obtain ⟨_,-,h⟩ := bind_ok h
  cases byCore with
  | true =>
    cases h
    exact tally_forgotten _ hother
  | false =>
    simp only [Bool.false_eq_true,if_false] at h
    split at h
    · cases h
    · cases h
      exact tally_forgotten _ hother

end Kernel

end Vibesys.Attempts
