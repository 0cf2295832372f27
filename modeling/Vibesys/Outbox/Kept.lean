import Vibesys.Outbox.Calls

/-!
# What the outbox keeps

An effect leaves the outbox only by a completion of a claim of that effect, and until then it comes back with
each release, reclaim or reopening. This rests on ids: a completion that is made again after its row is gone may
meet a later effect under the same id. It holds in every run in which no completion or release names an id under
which a later effect has been claimed.
-/
namespace Vibesys.Outbox

open Library Orchestrator

variable {F : Type*}

/-- The places in `granted` that a call names. -/
def Call.names : Call F → List ℕ
  | .complete named _ => named
  | .release named _ => named
  | _ => []

/-- No later effect has been claimed under an id that the call names. -/
def Current (w : World F) (c : Call F) : Prop :=
  ∀ g ∈ w.picked c.names, ∀ m ∈ w.marks, m.id = g.id → m.effect.ticket ≤ g.effect.ticket

instance (w : World F) (c : Call F) : Decidable (Current w c) :=
  inferInstanceAs (Decidable (∀ g ∈ w.picked c.names, ∀ m ∈ w.marks, m.id = g.id → m.effect.ticket ≤ g.effect.ticket))

def Holds (w : World F) (q : Queued F) : Prop := ∃ r ∈ w.rows, r.effect = q

def Waits (w : World F) (q : Queued F) : Prop := ∃ r ∈ w.rows, r.effect = q ∧ r.claimed = false

def Completes (w : World F) (c : Call F) (q : Queued F) : Prop :=
  ∃ named o, c = .complete named o ∧ ∃ g ∈ w.picked named, g.effect = q

def Takes (w : World F) (c : Call F) (q : Queued F) : Prop :=
  ∃ now limit o, c = .claim now limit o ∧ w.closed = false ∧ o.written = true ∧
    ∃ g ∈ queryClaim now limit w.rows, g.effect = q

inductive Frees (w : World F) (q : Queued F) : Call F → Prop
  | release (named : List ℕ) (o : Outcome) (hopen : w.closed = false) (hwritten : o.written = true)
      (hnamed : ∃ g ∈ w.picked named, g.effect = q) : Frees w q (.release named o)
  | reclaim (o : Outcome) (hopen : w.closed = false) (hwritten : o.written = true) : Frees w q (.reclaim o)
  | reopen (o : Outcome) (hwritten : o.written = true) : Frees w q (.reopen o)

/-- What a claim at `now` gives out: what waits and is due, oldest first, and all of it unless the limit is used
up by older effects. -/
structure Offers (due : F → ℤ) (w : World F) (now limit : ℤ) (out : List (Claimed (Queued F))) : Prop where
  sorted : (out.map fun g => g.effect.ticket).Pairwise (· < ·)
  timely : ∀ g ∈ out, Waits w g.effect ∧ due g.effect.effect ≤ now
  all : ∀ q, Waits w q → due q.effect ≤ now → (∃ g ∈ out, g.effect = q) ∨
    (0 ≤ limit ∧ out.length = limit.toNat ∧ ∀ g ∈ out, g.effect.ticket < q.ticket)

structure Safe (due : F → ℤ) (w : World F) (c : Call F) : Prop where
  queued : ∀ effects o, c = .commit effects o → w.closed = false → o.written = true →
    ∀ i e, effects[i]? = some e → Waits (w.step due c) ⟨w.next+i,e⟩
  leaves : ∀ q, Holds w q → Holds (w.step due c) q ∨ Completes w c q
  returns : ∀ q, Holds (w.step due c) q → Frees w q c → Waits (w.step due c) q
  waits : ∀ q, Waits w q → Waits (w.step due c) q ∨ Takes w c q
  offers : ∀ now limit o, c = .claim now limit o → Offers due w now limit (queryClaim now limit w.rows)
  given : ∀ now limit o, c = .claim now limit o → w.closed = false → o.answered = true →
    (w.step due c).granted = w.granted ++ queryClaim now limit w.rows
  /-- Completing or releasing changes nothing about an effect that is not named. -/
  others : c.names ≠ [] → ∀ r ∈ w.rows, (∀ g ∈ w.picked c.names, g.effect ≠ r.effect) → r ∈ (w.step due c).rows

section Step

variable {due : F → ℤ} {w : World F}

theorem write_cases (w : World F) (o : Outcome) (after : World F) :
    w.write o after = w ∨ (w.closed = false ∧ o.written = true ∧ w.write o after = after) := by
  rw [World.write]
  split
  · exact Or.inl rfl
  · next h =>
    simp only [Bool.or_eq_true,Bool.not_eq_true',not_or,Bool.not_eq_true,Bool.not_eq_false] at h
    exact Or.inr ⟨h.1,h.2,rfl⟩

theorem write_of_open {o : Outcome} (hopen : w.closed = false) (hwritten : o.written = true) (after : World F) :
    w.write o after = after := by
  rw [World.write,hopen,hwritten]
  rfl

theorem mem_pushes {r : Row (Queued F)} (h : r ∈ w.rows) (effects : List F) :
    r ∈ (effects.foldl (World.push due) w).rows := by
  induction effects generalizing w with
  | nil => exact h
  | cons effect effects ih => exact ih (List.mem_append_left _ h)

theorem waits_pushes (w : World F) (effects : List F) (i : ℕ) (e : F) (hi : effects[i]? = some e) :
    Waits (effects.foldl (World.push due) w) ⟨w.next+i,e⟩ := by
  induction effects generalizing w i with
  | nil => cases hi
  | cons effect effects ih =>
    cases i with
    | zero =>
      obtain rfl : effect = e := by simpa using hi
      exact ⟨_,mem_pushes (List.mem_append_right _ (List.mem_singleton_self _)) effects,rfl,rfl⟩
    | succ i =>
      have hnext := ih (w.push due effect) i (by simpa using hi)
      have hticket : (w.push due effect).next+i = w.next+(i+1) := by
        simp only [World.push]
        omega
      rw [hticket] at hnext
      exact hnext

theorem mem_unmark {p : Row (Queued F) → Bool} {r : Row (Queued F)} (h : r ∈ w.rows) :
    ∃ r' ∈ setState p false w.rows, r'.effect = r.effect ∧ (r.claimed = false → r'.claimed = false) := by
  refine ⟨_,mem_setState.mpr ⟨r,h,rfl⟩,?_⟩
  split
  · exact ⟨rfl,fun _ => rfl⟩
  · exact ⟨rfl,id⟩

theorem waits_unmark {p : Row (Queued F) → Bool} {q : Queued F}
    (hp : ∀ r ∈ w.rows, r.effect = q → r.claimed = true → p r = true)
    (h : ∃ r ∈ setState p false w.rows, r.effect = q) : ∃ r ∈ setState p false w.rows, r.effect = q ∧ r.claimed = false := by
  obtain ⟨r,hr,heff⟩ := h
  refine ⟨r,hr,heff,?_⟩
  obtain ⟨old,hold,rfl⟩ := mem_setState.mp hr
  by_cases hpold : p old = true
  · rw [if_pos hpold]
  · rw [if_neg hpold] at heff ⊢
    by_contra hclaimed
    exact hpold (hp old hold heff (by simpa using hclaimed))

variable (h : Inv due w)
include h

theorem named_own {c : Call F} (hcurrent : Current w c) {r : Row (Queued F)} (hr : r ∈ w.rows)
    (hclaimed : r.claimed = true) (hid : r.id ∈ (w.picked c.names).map Claimed.id) :
    ∃ g ∈ w.picked c.names, g.effect = r.effect := by
  obtain ⟨g,hg,hgid⟩ := List.mem_map.mp hid
  have hentry := h.own (w.picked_subset _ g hg) (hcurrent g hg) hr hclaimed hgid.symm
  exact ⟨g,hg,(congrArg Claimed.effect hentry).symm⟩

theorem named_id {g : Claimed (Queued F)} (hg : g ∈ w.granted) {r : Row (Queued F)} (hr : r ∈ w.rows)
    (heff : g.effect = r.effect) : r.id = g.id := by
  rcases h.place g (h.given g hg) r.entry (List.mem_map_of_mem hr) with heq | hlt | hlt
  · exact congrArg Claimed.id heq
  · exact absurd (congrArg Queued.ticket heff.symm) hlt.2.ne
  · exact absurd (congrArg Queued.ticket heff) (ne_of_lt hlt)

theorem offers_queryClaim (now limit : ℤ) : Offers due w now limit (queryClaim now limit w.rows) where
  sorted := by
    rw [List.pairwise_map]
    exact (h.sorted.sublist (queryClaim_sublist now limit w.rows)).imp fun hlt => hlt.2
  timely g hg := by
    obtain ⟨r,hr,rfl,hclaimed,hafter⟩ := mem_queryClaim hg
    refine ⟨⟨r,hr,rfl,hclaimed⟩,?_⟩
    rw [h.timed r hr] at hafter
    exact hafter
  all q hq hdue := by
    obtain ⟨r,hr,rfl,hclaimed⟩ := hq
    by_cases hin : r.entry ∈ queryClaim now limit w.rows
    · exact Or.inl ⟨r.entry,hin,rfl⟩
    have hready : ready now r = true := by
      rw [ready,hclaimed,h.timed r hr]
      simpa using hdue
    have hsorted : w.rows.Pairwise fun r r' => Before r.entry r'.entry := List.pairwise_map.mp h.sorted
    obtain ⟨hlength,hlimit,hbefore⟩ := queryClaim_full hsorted hr hready hin
    refine Or.inr ⟨hlimit,hlength,?_⟩
    intro g hg
    obtain ⟨r',-,rfl,hlt⟩ := hbefore g hg
    exact hlt.2

theorem leaves_step {c : Call F} (hcurrent : Current w c) {q : Queued F} (hq : Holds w q) :
    Holds (w.step due c) q ∨ Completes w c q := by
  obtain ⟨r,hr,heff⟩ := hq
  have hsame : Holds w q := ⟨r,hr,heff⟩
  have hunmark : ∀ p : Row (Queued F) → Bool, ∃ r' ∈ setState p false w.rows, r'.effect = q := by
    intro p
    obtain ⟨r',hr',heff',-⟩ := mem_unmark (p := p) hr
    exact ⟨r',hr',heff'.trans heff⟩
  cases c with
  | commit effects o =>
    refine Or.inl ?_
    rcases write_cases w o (effects.foldl (World.push due) w) with hw | ⟨-,-,hw⟩
    · rw [World.step,hw]
      exact hsame
    · rw [World.step,hw]
      exact ⟨r,mem_pushes hr effects,heff⟩
  | claim now limit o =>
    refine Or.inl ?_
    rw [World.step]
    rcases write_cases w o _ with hw | ⟨-,-,hw⟩
    · rw [hw]
      exact hsame
    · rw [hw]
      have hentry : r.entry ∈ (Outbox.claim now limit w.rows).2.map Row.entry := by
        rw [map_entry_claim]
        exact List.mem_map_of_mem hr
      obtain ⟨r',hr',hentry'⟩ := List.mem_map.mp hentry
      exact ⟨r',hr',(congrArg Claimed.effect hentry').trans heff⟩
  | complete named o =>
    rw [World.step]
    rcases write_cases w o { w with rows := complete ((w.picked named).map Claimed.id) w.rows } with hw | ⟨-,-,hw⟩
    · rw [hw]
      exact Or.inl hsame
    · rw [hw]
      by_cases hgone : r.claimed = true ∧ r.id ∈ (w.picked named).map Claimed.id
      · obtain ⟨g,hg,hgeff⟩ := named_own h hcurrent hr hgone.1 hgone.2
        exact Or.inr ⟨named,o,rfl,g,hg,hgeff.trans heff⟩
      · exact Or.inl ⟨r,mem_complete.mpr ⟨hr,hgone⟩,heff⟩
  | release named o =>
    refine Or.inl ?_
    rw [World.step]
    rcases write_cases w o { w with rows := release ((w.picked named).map Claimed.id) w.rows } with hw | ⟨-,-,hw⟩
    · rw [hw]
      exact hsame
    · rw [hw,Holds,release_eq]
      exact hunmark _
  | reclaim o =>
    refine Or.inl ?_
    rw [World.step]
    rcases write_cases w o { w with rows := reclaim w.rows } with hw | ⟨-,-,hw⟩
    · rw [hw]
      exact hsame
    · rw [hw]
      exact hunmark _
  | reopen o =>
    refine Or.inl ?_
    rw [World.step,Holds]
    split
    · exact hunmark _
    · exact hsame

theorem returns_step {c : Call F} {q : Queued F} (hq : Holds (w.step due c) q) (hfrees : Frees w q c) :
    Waits (w.step due c) q := by
  cases hfrees with
  | release named o hopen hwritten hnamed =>
    rw [World.step,write_of_open hopen hwritten] at hq ⊢
    simp only [Holds,Waits,release_eq] at hq ⊢
    refine waits_unmark ?_ hq
    intro r hr heff hclaimed
    obtain ⟨g,hg,hgeff⟩ := hnamed
    have hid := named_id h (w.picked_subset _ g hg) hr (hgeff.trans heff.symm)
    rw [hclaimed,Bool.true_and,List.contains_iff_mem,hid]
    exact List.mem_map_of_mem hg
  | reclaim o hopen hwritten =>
    rw [World.step,write_of_open hopen hwritten] at hq ⊢
    exact waits_unmark (fun r _ _ hclaimed => hclaimed) hq
  | reopen o hwritten =>
    simp only [World.step,Holds,Waits,if_pos hwritten] at hq ⊢
    exact waits_unmark (fun r _ _ hclaimed => hclaimed) hq

theorem waits_step (c : Call F) {q : Queued F} (hq : Waits w q) : Waits (w.step due c) q ∨ Takes w c q := by
  obtain ⟨r,hr,heff,hfree⟩ := hq
  have hsame : Waits w q := ⟨r,hr,heff,hfree⟩
  have hunmark : ∀ p : Row (Queued F) → Bool, ∃ r' ∈ setState p false w.rows, r'.effect = q ∧ r'.claimed = false := by
    intro p
    obtain ⟨r',hr',heff',hfree'⟩ := mem_unmark (p := p) hr
    exact ⟨r',hr',heff'.trans heff,hfree' hfree⟩
  cases c with
  | commit effects o =>
    refine Or.inl ?_
    rcases write_cases w o (effects.foldl (World.push due) w) with hw | ⟨-,-,hw⟩
    · rw [World.step,hw]
      exact hsame
    · rw [World.step,hw]
      exact ⟨r,mem_pushes hr effects,heff,hfree⟩
  | claim now limit o =>
    rw [World.step]
    rcases write_cases w o _ with hw | ⟨hopen,hwritten,hw⟩
    · rw [hw]
      exact Or.inl hsame
    rw [hw]
    by_cases htaken : ((queryClaim now limit w.rows).map Claimed.id).contains r.id = true
    · obtain ⟨g,hg,hid⟩ := List.mem_map.mp (List.contains_iff_mem.mp htaken)
      have hentry := h.eq_of_id ((queryClaim_sublist now limit w.rows).subset hg) (List.mem_map_of_mem hr) hid
      exact Or.inr ⟨now,limit,o,rfl,hopen,hwritten,g,hg,(congrArg Claimed.effect hentry).trans heff⟩
    · refine Or.inl ⟨r,?_,heff,hfree⟩
      rw [claim_rows]
      exact mem_setState.mpr ⟨r,hr,(if_neg htaken).symm⟩
  | complete named o =>
    refine Or.inl ?_
    rw [World.step]
    rcases write_cases w o { w with rows := complete ((w.picked named).map Claimed.id) w.rows } with hw | ⟨-,-,hw⟩
    · rw [hw]
      exact hsame
    · rw [hw]
      refine ⟨r,mem_complete.mpr ⟨hr,fun hgone => ?_⟩,heff,hfree⟩
      rw [hfree] at hgone
      cases hgone.1
  | release named o =>
    refine Or.inl ?_
    rw [World.step]
    rcases write_cases w o { w with rows := release ((w.picked named).map Claimed.id) w.rows } with hw | ⟨-,-,hw⟩
    · rw [hw]
      exact hsame
    · rw [hw,Waits,release_eq]
      exact hunmark _
  | reclaim o =>
    refine Or.inl ?_
    rw [World.step]
    rcases write_cases w o { w with rows := reclaim w.rows } with hw | ⟨-,-,hw⟩
    · rw [hw]
      exact hsame
    · rw [hw]
      exact hunmark _
  | reopen o =>
    refine Or.inl ?_
    rw [World.step,Waits]
    split
    · exact hunmark _
    · exact hsame

theorem others_step {c : Call F} (hcurrent : Current w c) (hnames : c.names ≠ []) {r : Row (Queued F)} (hr : r ∈ w.rows)
    (hother : ∀ g ∈ w.picked c.names, g.effect ≠ r.effect) : r ∈ (w.step due c).rows := by
  have hnot : ¬(r.claimed = true ∧ r.id ∈ (w.picked c.names).map Claimed.id) := by
    rintro ⟨hclaimed,hid⟩
    obtain ⟨g,hg,hgeff⟩ := named_own h hcurrent hr hclaimed hid
    exact hother g hg hgeff
  cases c with
  | complete named o =>
    rw [World.step]
    rcases write_cases w o { w with rows := complete ((w.picked named).map Claimed.id) w.rows } with hw | ⟨-,-,hw⟩
    · rw [hw]
      exact hr
    · rw [hw]
      exact mem_complete.mpr ⟨hr,hnot⟩
  | release named o =>
    rw [World.step]
    rcases write_cases w o { w with rows := release ((w.picked named).map Claimed.id) w.rows } with hw | ⟨-,-,hw⟩
    · rw [hw]
      exact hr
    · rw [hw,release_eq]
      refine mem_setState.mpr ⟨r,hr,(if_neg ?_).symm⟩
      rw [Bool.and_eq_true,List.contains_iff_mem]
      exact hnot
  | commit effects o => exact absurd rfl hnames
  | claim now limit o => exact absurd rfl hnames
  | reclaim o => exact absurd rfl hnames
  | reopen o => exact absurd rfl hnames

theorem safe_step {c : Call F} (hcurrent : Current w c) : Safe due w c where
  queued effects o hc hopen hwritten i e hi := by
    subst hc
    rw [World.step,write_of_open hopen hwritten]
    exact waits_pushes w effects i e hi
  leaves q hq := leaves_step h hcurrent hq
  returns q hq hfrees := returns_step h hq hfrees
  waits q hq := waits_step h c hq
  offers now limit o _ := offers_queryClaim h now limit
  given now limit o hc hopen hanswered := by
    subst hc
    have hwritten : o.written = true := by
      cases o with
      | ok => rfl
      | undone => cases hanswered
      | lostReply => cases hanswered
    rw [World.step,write_of_open hopen hwritten]
    exact if_pos hanswered
  others hnames r hr hother := others_step h hcurrent hnames hr hother

end Step

/-- What holds of a whole run: every call is safe, an effect stays until a completion of a claim of it, and one
that waits does so until a claim offers it. -/
structure NothingLost (due : F → ℤ) (calls : List (Call F)) : Prop where
  safe : Along (World.step due) (Safe due) {} calls
  stays : ∀ before after, calls = before ++ after → ∀ q, Holds (run (World.step due) {} before) q →
    Holds (run (World.step due) {} calls) q ∨
      ∃ mid c rest, after = mid ++ c :: rest ∧ Completes (run (World.step due) {} (before ++ mid)) c q
  waits : ∀ before after, calls = before ++ after → ∀ q, Waits (run (World.step due) {} before) q →
    Waits (run (World.step due) {} calls) q ∨
      ∃ mid c rest, after = mid ++ c :: rest ∧ Takes (run (World.step due) {} (before ++ mid)) c q

/-- In every run in which no completion or release names an id under which a later effect has been claimed, no
effect is lost. -/
theorem no_effect_lost (due : F → ℤ) (calls : List (Call F)) (hcurrent : Along (World.step due) Current {} calls) :
    NothingLost due calls := by
  have hinv : Along (World.step due) (fun w c => Inv due w ∧ Current w c) {} calls :=
    hcurrent.ensures (I := Inv due) (fun w c h hc => ⟨h.step c,h,hc⟩) Inv.start
  refine ⟨hinv.imp fun w c h => safe_step h.1 h.2,?_,?_⟩
  · rintro before after rfl q hq
    simp only [run_append]
    exact Along.until (P := fun w => Holds w q) (fun w c h hw => leaves_step h.1 h.2 hw) hq hinv.right
  · rintro before after rfl q hq
    simp only [run_append]
    exact Along.until (P := fun w => Waits w q) (fun w c h hw => waits_step h.1 c hw) hq hinv.right

/-- An interrupt is claimed, released and claimed again, and completed twice. -/
def completedTwice : List (Call Effect) :=
  [.commit [.interrupt ⟨"a",1⟩ "turn-1"] .ok,.claim 5 64 .ok,.release [0] .lostReply,.claim 6 64 .ok,
    .complete [1] .lostReply,.complete [1] .ok]

theorem no_effect_lost_completedTwice :
    Along (World.step runAfter) Current {} completedTwice ∧ NothingLost runAfter completedTwice :=
  ⟨by decide +kernel,no_effect_lost runAfter completedTwice (by decide +kernel)⟩

/-- The reply to the completion of one session's interrupt is lost, another session's interrupt gets its id and is
claimed, and the completion is made again. -/
def idUsedAgain : List (Call Effect) :=
  [.commit [.interrupt ⟨"a",1⟩ "turn-1"] .ok,.claim 5 64 .ok,.complete [0] .lostReply,
    .commit [.interrupt ⟨"b",1⟩ "turn-2"] .ok,.claim 6 64 .ok]

/-- Completing the first effect twice removes the second, whose claim nobody completed. -/
theorem completion_removes_other :
    let w := run (World.step runAfter) {} idUsedAgain
    (w.picked [0]).map Claimed.effect = [⟨0,.interrupt ⟨"a",1⟩ "turn-1"⟩] ∧
      w.rows.map Row.effect = [⟨1,.interrupt ⟨"b",1⟩ "turn-2"⟩] ∧
      (w.step runAfter (.complete [0] .ok)).rows.map Row.effect = [] ∧
      ¬NothingLost runAfter (idUsedAgain ++ [.complete [0] .ok]) := by
  refine ⟨by decide +kernel,by decide +kernel,by decide +kernel,?_⟩
  intro h
  have hlost := h.stays idUsedAgain [.complete [0] .ok] rfl ⟨1,.interrupt ⟨"b",1⟩ "turn-2"⟩ ?_
  · rcases hlost with ⟨r,hr,-⟩ | ⟨mid,c,rest,hsplit,named,o,rfl,g,hg,heff⟩
    · have hrows : (run (World.step runAfter) {} (idUsedAgain ++ [.complete [0] .ok])).rows = [] := by decide +kernel
      rw [hrows] at hr
      cases hr
    · obtain ⟨rfl,hcall,rfl⟩ : mid = [] ∧ (.complete [0] .ok : Call Effect) = .complete named o ∧ rest = [] := by
        cases mid with
        | nil => simpa using hsplit
        | cons d mid => simp at hsplit
      obtain ⟨rfl,rfl⟩ := Call.complete.inj hcall
      have hpicked : (run (World.step runAfter) {} (idUsedAgain ++ [])).picked [0] =
          [⟨1,⟨0,.interrupt ⟨"a",1⟩ "turn-1"⟩⟩] := by decide +kernel
      rw [hpicked] at hg
      obtain rfl := List.mem_singleton.mp hg
      cases heff
  · have hrows : (run (World.step runAfter) {} idUsedAgain).rows =
        [⟨1,⟨1,.interrupt ⟨"b",1⟩ "turn-2"⟩,true,0⟩] := by decide +kernel
    exact ⟨_,by rw [hrows]; exact List.mem_singleton_self _,rfl⟩

end Vibesys.Outbox
