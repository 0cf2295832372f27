import Vibesys.Delivery.Invariant

/-!
# One batch of the loop

A claim made with nothing left to settle takes an effect of a session together with the earlier ones that are not
carried out yet. Within the batch the first that fails holds the rest of its session back.
-/
namespace Vibesys.Delivery

open Library Orchestrator Outbox

namespace Inv

variable {d : Daemon}

theorem claim (h : Inv d) {limit now : ℤ} {o : Outcome} (hpoint : d.point = .claiming limit)
    (hclear : Clear d (.claim now o)) : Inv (d.claim limit now o) := by
  have hd : d.point.claimed = [] := by rw [hpoint]; rfl
  have hdown : d.point ≠ .down := by rw [hpoint]; exact fun hne => by cases hne
  obtain ⟨hreply,hretry,hwaiting⟩ := hclear
  cases o with
  | lostReply => exact absurd rfl hreply
  | undone =>
    have hworld : d.world.step runAfter (.claim now limit .undone) = d.world := by
      simp [World.step,World.write,Outcome.written]
    rw [Daemon.claim,hworld]
    exact h.goto rfl hd hdown
  | ok =>
    set out := queryClaim now limit d.world.rows with hout
    have hworld : d.world.step runAfter (.claim now limit .ok) =
        { d.world with
          rows := (Outbox.claim now limit d.world.rows).2
          marks := d.world.marks ++ out
          granted := d.world.granted ++ out } := by
      simp only [World.step,World.write,h.opened hdown]
      rfl
    have hrows : ∀ r ∈ (Outbox.claim now limit d.world.rows).2, ∃ old ∈ d.world.rows, r.entry = old.entry ∧
        (r.claimed = true → old.claimed = true ∨ (old.claimed = false ∧ old.entry ∈ out)) := by
      intro r hr
      rw [claim_rows] at hr
      obtain ⟨old,hold,rfl⟩ := mem_setState.mp hr
      refine ⟨old,hold,?_⟩
      by_cases hin : ((queryClaim now limit d.world.rows).map Claimed.id).contains old.id = true
      · rw [if_pos hin]
        refine ⟨rfl,fun _ => ?_⟩
        obtain ⟨c,hc,hid⟩ := List.mem_map.mp (List.contains_iff_mem.mp hin)
        have hentry := h.outbox.eq_of_id ((queryClaim_sublist now limit _).subset hc) (List.mem_map_of_mem hold) hid
        rw [hentry] at hc
        cases hmark : old.claimed with
        | true => exact Or.inl rfl
        | false => exact Or.inr ⟨rfl,hc⟩
      · rw [if_neg hin]
        exact ⟨rfl,Or.inl⟩
    -- Nothing is left to release, so a marked row is one that was carried out.
    have hcarried : ∀ r ∈ d.world.rows, r.claimed = true → r.id ∈ d.done := by
      intro r hr hclaimed
      refine (h.unsettled hd hdown hr hclaimed).resolve_right ?_
      rw [hretry]
      exact List.not_mem_nil
    have hmarked : ∀ c ∈ out, ∃ r ∈ (Outbox.claim now limit d.world.rows).2, r.entry = c ∧ r.claimed = true := by
      intro c hc
      obtain ⟨r,hr,rfl,-,-⟩ := mem_queryClaim hc
      refine ⟨{ r with claimed := true },?_,rfl,rfl⟩
      rw [claim_rows]
      refine mem_setState.mpr ⟨r,hr,(if_pos ?_).symm⟩
      exact List.contains_iff_mem.mpr (List.mem_map_of_mem hc)
    have hsorted : d.world.rows.Pairwise fun r r' => Before r.entry r'.entry := List.pairwise_map.mp h.outbox.sorted
    rw [Daemon.claim,hworld]
    refine ⟨h.outbox.claim now limit fun g hg => List.mem_append.mp hg,fun _ => h.opened hdown,h.drawn,h.past,
      ?_,?_,?_,hmarked,?_,?_,h.order⟩
    · intro q hq
      rcases h.kept q hq with ⟨r,hr,rfl⟩ | hdone
      · have hentry : r.entry ∈ (Outbox.claim now limit d.world.rows).2.map Row.entry := by
          rw [map_entry_claim]
          exact List.mem_map_of_mem hr
        obtain ⟨r',hr',hsame⟩ := List.mem_map.mp hentry
        exact Or.inl ⟨r',hr',congrArg Claimed.effect hsame⟩
      · exact Or.inr hdone
    · intro r hr hclaimed hid
      obtain ⟨old,hold,hentry,hmark⟩ := hrows r hr
      have heff : r.effect = old.effect := congrArg Claimed.effect hentry
      have hsameid : r.id = old.id := congrArg Claimed.id hentry
      rw [heff]
      rcases hmark hclaimed with hwas | ⟨hfree,-⟩
      · exact h.completed old hold hwas (hsameid ▸ hid)
      · exact absurd (hsameid ▸ hid) (hwaiting old hold hfree)
    · intro _ r hr hclaimed
      obtain ⟨old,hold,hentry,hmark⟩ := hrows r hr
      have hsameid : r.id = old.id := congrArg Claimed.id hentry
      rcases hmark hclaimed with hwas | ⟨-,hin⟩
      · exact Or.inl (hsameid ▸ hcarried old hold hwas)
      · rw [hentry]
        exact Or.inr (Or.inr hin)
    · rw [List.pairwise_map]
      exact (h.outbox.sorted.sublist (queryClaim_sublist now limit d.world.rows)).imp fun hlt => hlt.2
    · intro c hc q hq hsame hlt
      rcases h.kept q hq with ⟨r,hr,rfl⟩ | hdone
      · cases hmark : r.claimed with
        | true => exact Or.inl (h.completed r hr hmark (hcarried r hr hmark))
        | false =>
          refine Or.inr (Or.inl ?_)
          by_contra hnone
          have hnot : r.entry ∉ out := fun hin => hnone ⟨r.entry,hin,rfl⟩
          obtain ⟨rc,hrc,rfl,-,htime⟩ := mem_queryClaim hc
          have hnow : (0 : ℤ) ≤ now := by
            have hzero : runAfter rc.effect.effect = 0 := runAfter_of_session hsame.2
            rw [h.outbox.timed rc hrc,hzero] at htime
            exact htime
          have hready : ready now r = true := by
            have hzero : runAfter r.effect.effect = 0 := runAfter_of_session (hsame.1 ▸ hsame.2)
            rw [ready,hmark,h.outbox.timed r hr,hzero]
            simpa using hnow
          obtain ⟨-,-,hbefore⟩ := queryClaim_full hsorted hr hready hnot
          obtain ⟨r',-,hentry,holder⟩ := hbefore _ hc
          have hticket : rc.effect.ticket < r.effect.ticket := by
            have hbefore' := holder.2
            rw [hentry] at hbefore'
            exact hbefore'
          exact absurd hlt (Nat.lt_asymm hticket)
      · exact Or.inl hdone

section Deliver

variable {c : Claimed (Queued Effect)} {rest : List (Claimed (Queued Effect))} {held : List Session}
  (h : Inv d) (hpoint : d.point = .delivering (c :: rest) held)
include h hpoint

theorem first_marked : ∃ r ∈ d.world.rows, r.entry = c ∧ r.claimed = true := by
  refine h.marked c ?_
  rw [hpoint]
  exact List.mem_cons_self

theorem first_before : (∀ c' ∈ rest, c.effect.ticket < c'.effect.ticket) ∧
    (rest.map fun c' => c'.effect.ticket).Pairwise (· < ·) := by
  have hsorted := h.sorted
  rw [hpoint] at hsorted
  obtain ⟨hfirst,hrest⟩ := List.pairwise_cons.mp hsorted
  exact ⟨fun c' hc' => hfirst c'.effect.ticket (List.mem_map_of_mem hc'),hrest⟩

theorem marked_rest : ∀ c' ∈ rest, ∃ r ∈ d.world.rows, r.entry = c' ∧ r.claimed = true := by
  intro c' hc'
  refine h.marked c' ?_
  rw [hpoint]
  exact List.mem_cons_of_mem c hc'

theorem listed_rest {r : Row (Queued Effect)} (hr : r ∈ d.world.rows) (hclaimed : r.claimed = true) :
    r.id ∈ d.done ∨ r.id ∈ d.retry ∨ r.id = c.id ∨ r.entry ∈ rest := by
  have hlisted := h.listed (by rw [hpoint]; exact fun hne => by cases hne) r hr hclaimed
  rw [hpoint] at hlisted
  rcases hlisted with hid | hid | hin
  · exact Or.inl hid
  · exact Or.inr (Or.inl hid)
  · rcases List.mem_cons.mp hin with heq | hin
    · exact Or.inr (Or.inr (Or.inl (congrArg Claimed.id heq)))
    · exact Or.inr (Or.inr (Or.inr hin))

theorem ahead_rest {c' : Claimed (Queued Effect)} (hc' : c' ∈ rest) {q : Queued Effect} (hq : q ∈ d.committed)
    (hsame : SameSession q c'.effect) (hlt : q.ticket < c'.effect.ticket) :
    (q,true) ∈ d.carried ∨ q = c.effect ∨ (∃ c'' ∈ rest, c''.effect = q) ∨ effectSession q.effect ∈ held := by
  have hahead := h.ahead
  rw [hpoint] at hahead
  rcases hahead c' (List.mem_cons_of_mem c hc') q hq hsame hlt with hdone | ⟨c'',hc'',heff⟩ | hheld
  · exact Or.inl hdone
  · rcases List.mem_cons.mp hc'' with rfl | hc''
    · exact Or.inr (Or.inl heff.symm)
    · exact Or.inr (Or.inr (Or.inl ⟨c'',hc'',heff⟩))
  · exact Or.inr (Or.inr (Or.inr hheld))

/-- Unless its session is held back, all that came before the first effect in its session is carried out: what is
not would be left of the batch, and the first is the oldest of it. -/
theorem carried_before (hfree : ¬(effectSession c.effect.effect ≠ ⟨"",0⟩ ∧ effectSession c.effect.effect ∈ held))
    {q : Queued Effect} (hq : q ∈ d.committed) (hsame : SameSession q c.effect) (hlt : q.ticket < c.effect.ticket) :
    (q,true) ∈ d.carried := by
  have hahead := h.ahead
  rw [hpoint] at hahead
  rcases hahead c List.mem_cons_self q hq hsame hlt with hdone | ⟨c',hc',heff⟩ | hheld
  · exact hdone
  · exfalso
    rcases List.mem_cons.mp hc' with rfl | hc'
    · rw [heff] at hlt
      exact lt_irrefl _ hlt
    · have hlater := (first_before h hpoint).1 c' hc'
      rw [heff] at hlater
      exact Nat.lt_asymm hlt hlater
  · exact absurd ⟨hsame.2,hsame.1 ▸ hheld⟩ hfree

theorem carried_first (hfree : ¬(effectSession c.effect.effect ≠ ⟨"",0⟩ ∧ effectSession c.effect.effect ∈ held))
    {ok : Bool} {done retry : List ℕ} {held' : List Session}
    (hdone : ∀ r ∈ d.world.rows, r.claimed = true → r.id ∈ done → (r.effect,true) ∈ d.carried ++ [(c.effect,ok)])
    (hlisted : ∀ id, id ∈ d.done ∨ id ∈ d.retry ∨ id = c.id → id ∈ done ∨ id ∈ retry)
    (hheld : ∀ session ∈ held, session ∈ held')
    (hfirst : effectSession c.effect.effect ≠ ⟨"",0⟩ → ok = true ∨ effectSession c.effect.effect ∈ held') :
    Inv { d with
      done := done
      retry := retry
      carried := d.carried ++ [(c.effect,ok)]
      point := .delivering rest held' } := by
  have hdown : d.point ≠ .down := by rw [hpoint]; exact fun hne => by cases hne
  obtain ⟨row,hrow,hentry,-⟩ := first_marked h hpoint
  have hmarked := marked_rest h hpoint
  refine ⟨h.outbox,fun _ => h.opened hdown,h.drawn,?_,?_,hdone,?_,hmarked,(first_before h hpoint).2,?_,?_⟩
  · intro p hp
    rcases List.mem_append.mp hp with hp | hp
    · exact h.past p hp
    · rw [List.mem_singleton.mp hp,← hentry]
      exact h.outbox.below _ (List.mem_map_of_mem hrow)
  · intro q hq
    rcases h.kept q hq with hin | hcarried
    · exact Or.inl hin
    · exact Or.inr (List.mem_append_left _ hcarried)
  · intro _ r hr hclaimed
    rcases listed_rest h hpoint hr hclaimed with hid | hid | hid | hin
    · exact or_assoc.mp (Or.inl (hlisted r.id (Or.inl hid)))
    · exact or_assoc.mp (Or.inl (hlisted r.id (Or.inr (Or.inl hid))))
    · exact or_assoc.mp (Or.inl (hlisted r.id (Or.inr (Or.inr hid))))
    · exact Or.inr (Or.inr hin)
  · intro c' hc' q hq hsame hlt
    rcases ahead_rest h hpoint hc' hq hsame hlt with hcarried | rfl | hin | hin
    · exact Or.inl (List.mem_append_left _ hcarried)
    · rcases hfirst (hsame.1 ▸ hsame.2) with rfl | hin
      · exact Or.inl (List.mem_append_right _ (List.mem_singleton_self _))
      · exact Or.inr (Or.inr hin)
    · exact Or.inr (Or.inl hin)
    · exact Or.inr (Or.inr (hheld _ hin))
  · intro past q ok' rest' hsplit e he hsame hlt
    -- The round is the last of what was carried out, or what is looked at came before it.
    rcases List.eq_nil_or_concat rest' with rfl | ⟨init,last,rfl⟩
    · obtain ⟨rfl,hlast⟩ := List.append_inj' hsplit rfl
      obtain ⟨rfl,rfl⟩ := Prod.mk.inj (List.cons.inj hlast).1
      exact carried_before h hpoint hfree he hsame hlt
    · rw [List.concat_eq_append,← List.cons_append,← List.append_assoc] at hsplit
      exact h.order past q ok' init (List.append_inj' hsplit rfl).1 e he hsame hlt

theorem deliver (ok : Bool) : Inv (d.deliver c rest held ok) := by
  have hdown : d.point ≠ .down := by rw [hpoint]; exact fun hne => by cases hne
  have hmarked := marked_rest h hpoint
  rw [Daemon.deliver]
  split
  · next hheld =>
    refine ⟨h.outbox,fun _ => h.opened hdown,h.drawn,h.past,h.kept,h.completed,?_,hmarked,
      (first_before h hpoint).2,?_,h.order⟩
    · intro _ r hr hclaimed
      rcases listed_rest h hpoint hr hclaimed with hid | hid | hid | hin
      · exact Or.inl hid
      · exact Or.inr (Or.inl (List.mem_append_left _ hid))
      · exact Or.inr (Or.inl (List.mem_append_right _ (List.mem_singleton.mpr hid)))
      · exact Or.inr (Or.inr hin)
    · intro c' hc' q hq hsame hlt
      rcases ahead_rest h hpoint hc' hq hsame hlt with hcarried | rfl | hin | hin
      · exact Or.inl hcarried
      · exact Or.inr (Or.inr hheld.2)
      · exact Or.inr (Or.inl hin)
      · exact Or.inr (Or.inr hin)
  · next hfree =>
    obtain ⟨row,hrow,hentry,-⟩ := first_marked h hpoint
    cases ok with
    | true =>
      refine carried_first h hpoint hfree ?_ ?_ (fun _ hin => hin) fun _ => Or.inl rfl
      · intro r hr hclaimed hid
        rcases List.mem_append.mp hid with hid | hid
        · exact List.mem_append_left _ (h.completed r hr hclaimed hid)
        · have hsame : r.entry = c := by
            refine h.outbox.eq_of_id (List.mem_map_of_mem hr) (hentry ▸ List.mem_map_of_mem hrow) ?_
            exact List.mem_singleton.mp hid
          refine List.mem_append_right _ (List.mem_singleton.mpr ?_)
          rw [← hsame]
          rfl
      · rintro id (hid | hid | rfl)
        · exact Or.inl (List.mem_append_left _ hid)
        · exact Or.inr hid
        · exact Or.inl (List.mem_append_right _ (List.mem_singleton_self _))
    | false =>
      refine carried_first h hpoint hfree ?_ ?_ ?_ ?_
      · exact fun r hr hclaimed hid => List.mem_append_left _ (h.completed r hr hclaimed hid)
      · rintro id (hid | hid | rfl)
        · exact Or.inl hid
        · exact Or.inr (List.mem_append_left _ hid)
        · exact Or.inr (List.mem_append_right _ (List.mem_singleton_self _))
      · intro session hin
        split
        · exact List.mem_cons_of_mem _ hin
        · exact hin
      · intro hsession
        rw [if_pos hsession]
        exact Or.inr List.mem_cons_self

end Deliver

theorem crash (h : Inv d) :
    Inv { d with world := { d.world with closed := true }, point := .down, done := [], retry := [] } where
  outbox := h.outbox.shrink (List.Sublist.refl _) (fun r hr => ⟨r,hr,rfl,rfl,id⟩) true
  opened hdown := absurd rfl hdown
  drawn := h.drawn
  past := h.past
  kept := h.kept
  completed r _ _ hid := by cases hid
  listed hdown := absurd rfl hdown
  marked c hc := by cases hc
  sorted := List.Pairwise.nil
  ahead c hc := by cases hc
  order := h.order

theorem restart (h : Inv d) (o : Outcome) :
    Inv { d with world := d.world.step runAfter (.reopen o), point := if o.answered then .idle else .down } := by
  have hclaimed : (if o.answered then Point.idle else Point.down).claimed = [] := by
    cases o with
    | ok => rfl
    | undone => rfl
    | lostReply => rfl
  have hrows : ∀ r ∈ (d.world.step runAfter (.reopen o)).rows, ∃ old ∈ d.world.rows, r.entry = old.entry ∧
      (r.claimed = true → old.claimed = true ∧ o.written = false) := by
    intro r hr
    cases hwritten : o.written with
    | false =>
      simp only [World.step,hwritten,Bool.false_eq_true,if_false] at hr
      exact ⟨r,hr,rfl,fun hmark => ⟨hmark,rfl⟩⟩
    | true =>
      simp only [World.step,hwritten,if_true] at hr
      obtain ⟨old,hold,rfl⟩ := mem_setState.mp hr
      refine ⟨old,hold,?_⟩
      by_cases hmark : old.claimed = true
      · rw [if_pos hmark]
        exact ⟨rfl,fun hno => by cases hno⟩
      · rw [if_neg hmark]
        exact ⟨rfl,fun hyes => absurd hyes hmark⟩
  have hentries : (d.world.step runAfter (.reopen o)).rows.map Row.entry = d.world.rows.map Row.entry := by
    simp only [World.step]
    split
    · exact map_entry_setState _ _ _
    · rfl
  refine ⟨h.outbox.step (.reopen o),?_,h.drawn,h.past,?_,?_,?_,?_,?_,?_,h.order⟩
  · intro hup
    cases o with
    | ok => rfl
    | undone => exact absurd rfl hup
    | lostReply => exact absurd rfl hup
  · intro q hq
    rcases h.kept q hq with ⟨r,hr,rfl⟩ | hdone
    · have hin : r.entry ∈ (d.world.step runAfter (.reopen o)).rows.map Row.entry := hentries ▸ List.mem_map_of_mem hr
      obtain ⟨r',hr',hsame⟩ := List.mem_map.mp hin
      exact Or.inl ⟨r',hr',congrArg Claimed.effect hsame⟩
    · exact Or.inr hdone
  · intro r hr hmark hid
    obtain ⟨old,hold,hentry,hwas⟩ := hrows r hr
    have heff : r.effect = old.effect := congrArg Claimed.effect hentry
    have hsame : r.id = old.id := congrArg Claimed.id hentry
    rw [heff]
    exact h.completed old hold (hwas hmark).1 (hsame ▸ hid)
  · intro hup r hr hmark
    obtain ⟨old,-,-,hwas⟩ := hrows r hr
    have hunwritten := (hwas hmark).2
    cases o with
    | ok => cases hunwritten
    | undone => exact absurd rfl hup
    | lostReply => exact absurd rfl hup
  · simp [hclaimed]
  · simp [hclaimed]
  · simp [hclaimed]

end Inv

/-!
## The order of a session's effects

An effect that failed is held back within its batch by `held`. Across batches the order rests on its row being
back in the outbox before the next claim. A release that fails leaves the row claimed, and the loop claims all the
same: then a later effect of the session overtakes it. The order holds in every run in which each claim is made
with nothing left to release, with no effect waiting under an id that is still to be completed, and without losing
its reply.
-/

theorem Inv.step {d : Daemon} (h : Inv d) (batch : ℤ) {m : Move} (hclear : Clear d m) : Inv (d.step batch m) := by
  cases m with
  | commit effects o => exact h.commit effects o
  | runEffects =>
    rw [Daemon.step]
    split
    · next hpoint => exact h.goto rfl (by rw [hpoint]; rfl) (by rw [hpoint]; exact fun hne => by cases hne)
    · exact h
  | reattach =>
    rw [Daemon.step]
    split
    · next hpoint => exact h.goto rfl (by rw [hpoint]; rfl) (by rw [hpoint]; exact fun hne => by cases hne)
    · exact h
  | settle o =>
    rw [Daemon.step]
    split
    · next hpoint => exact h.completeDone o hpoint
    · next hpoint => exact h.releaseRetry batch o hpoint
    · exact h
  | claim now o =>
    rw [Daemon.step]
    split
    · next hpoint => exact h.claim hpoint hclear
    · exact h
  | carryOut ok =>
    rw [Daemon.step]
    split
    · next hpoint => exact h.goto rfl (by rw [hpoint]; rfl) (by rw [hpoint]; exact fun hne => by cases hne)
    · next hpoint => exact h.deliver hpoint ok
    · exact h
  | crash => exact h.crash
  | start o =>
    rw [Daemon.step]
    split
    · exact h.restart o
    · exact h

/-- In every run whose claims are all made with nothing left to settle that they could meet, and answered if they are
written, the effects of each session are carried out in the order of their commits. -/
theorem session_effects_in_order (batch : ℤ) (moves : List Move) (hclear : Along (Daemon.step batch) Clear {} moves) :
    InOrder (run (Daemon.step batch) {} moves) := by
  have hinv : Inv (run (Daemon.step batch) {} moves) :=
    Along.invariant (I := Inv) (fun d m h hc => h.step batch hc) Inv.start hclear
  exact hinv.order

/-- In every such run, each committed effect was carried out without error, or it is in the outbox: not claimed or, if
the daemon is up, among what it has to release or to carry out. -/
theorem every_effect_is_kept (batch : ℤ) (moves : List Move) (hclear : Along (Daemon.step batch) Clear {} moves) :
    let d := run (Daemon.step batch) {} moves
    ∀ q ∈ d.committed, (q,true) ∈ d.carried ∨ ∃ r ∈ d.world.rows, r.effect = q ∧
      (r.claimed = true → d.point ≠ .down → r.id ∈ d.retry ∨ r.entry ∈ d.point.claimed) := by
  intro d q hq
  have hinv : Inv d := Along.invariant (fun d m h hc => h.step batch hc) Inv.start hclear
  rcases hinv.kept q hq with ⟨r,hr,rfl⟩ | hcarried
  · by_cases hdone : r.claimed = true ∧ r.id ∈ d.done
    · exact Or.inl (hinv.completed r hr hdone.1 hdone.2)
    · refine Or.inr ⟨r,hr,rfl,fun hclaimed hup => ?_⟩
      exact (hinv.listed hup r hr hclaimed).resolve_left fun hid => hdone ⟨hclaimed,hid⟩
  · exact Or.inl hcarried

/-- Two effects of a session: the first fails and is released, and both are carried out by the next step. -/
def retried : List Move :=
  [.start .ok,.commit [.interrupt ⟨"a",1⟩ "turn-1",.closeSession ⟨"a",1⟩ false] .ok,
    .runEffects,.settle .ok,.settle .ok,.claim 5 .ok,.carryOut false,.carryOut true,.carryOut true,.settle .ok,.settle .ok,
    .runEffects,.settle .ok,.settle .ok,.claim 6 .ok,.carryOut true,.carryOut true]

theorem session_effects_in_order_retried :
    Along (Daemon.step 64) Clear {} retried ∧ InOrder (run (Daemon.step 64) {} retried) :=
  ⟨by decide +kernel,session_effects_in_order 64 retried (by decide +kernel)⟩

theorem every_effect_is_kept_retried : ⟨0,.interrupt ⟨"a",1⟩ "turn-1"⟩ ∈ (run (Daemon.step 64) {} retried).committed ∧
    ((⟨0,.interrupt ⟨"a",1⟩ "turn-1"⟩,true) ∈ (run (Daemon.step 64) {} retried).carried ∨
      ∃ r ∈ (run (Daemon.step 64) {} retried).world.rows, r.effect = ⟨0,.interrupt ⟨"a",1⟩ "turn-1"⟩) := by
  have hmem : ⟨0,.interrupt ⟨"a",1⟩ "turn-1"⟩ ∈ (run (Daemon.step 64) {} retried).committed := by decide +kernel
  exact ⟨hmem,(every_effect_is_kept 64 retried (by decide +kernel) _ hmem).imp_right fun ⟨r,hr,h,_⟩ => ⟨r,hr,h⟩⟩

/-- An interrupt fails and its release fails twice, and the loop claims the close that was committed after it. -/
def releaseFails : List Move :=
  [.start .ok,.commit [.interrupt ⟨"a",1⟩ "turn-1"] .ok,
    .runEffects,.settle .ok,.settle .ok,.claim 5 .ok,.carryOut false,.carryOut true,.settle .ok,.settle .undone,
    .commit [.closeSession ⟨"a",1⟩ false] .ok,
    .runEffects,.settle .ok,.settle .undone,.claim 6 .ok,.carryOut true]

/-- The close is carried out though the interrupt before it never was without error. -/
theorem later_effect_overtakes :
    (run (Daemon.step 64) {} releaseFails).carried =
        [(⟨0,.interrupt ⟨"a",1⟩ "turn-1"⟩,false),(⟨1,.closeSession ⟨"a",1⟩ false⟩,true)] ∧
      ¬InOrder (run (Daemon.step 64) {} releaseFails) := by
  have hcarried : (run (Daemon.step 64) {} releaseFails).carried =
      [(⟨0,.interrupt ⟨"a",1⟩ "turn-1"⟩,false),(⟨1,.closeSession ⟨"a",1⟩ false⟩,true)] := by decide +kernel
  have hcommitted : (run (Daemon.step 64) {} releaseFails).committed =
      [⟨0,.interrupt ⟨"a",1⟩ "turn-1"⟩,⟨1,.closeSession ⟨"a",1⟩ false⟩] := by decide +kernel
  refine ⟨hcarried,fun h => ?_⟩
  have hin := h [(⟨0,.interrupt ⟨"a",1⟩ "turn-1"⟩,false)] ⟨1,.closeSession ⟨"a",1⟩ false⟩ true [] hcarried
    ⟨0,.interrupt ⟨"a",1⟩ "turn-1"⟩ (by rw [hcommitted]; exact List.mem_cons_self) ⟨rfl,by decide⟩ (by decide)
  simp at hin

end Vibesys.Delivery
