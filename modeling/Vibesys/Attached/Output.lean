import Vibesys.Attached.Once

/-!
# An Attach passes on what was written

What an `Attach` has handed to `emit` is a first part of the output from its offset on, whatever happens to the
supervisor between its reads. The phase it read before it drained decides whether it returns: a finished command
writes nothing more, so the drain was to the end. It took its channel before it looked, so a `Notify` that comes
after a change it has not seen closes that channel.
-/
namespace Vibesys.Attached

open Library Lifecycle
open Vibesys.Core (failf)

variable {B : Type*} {l : Launch} {s s' : Supervisor B} {a : Attach B}

/-- The pieces follow each other from the offset on. -/
def Follow : ℕ → List (ℕ × List B) → Prop
  | _,[] => True
  | n,(k,data) :: rest => k = n ∧ Follow (n + data.length) rest

theorem Follow.concat {n k : ℕ} {data : List B} {pieces : List (ℕ × List B)} (h : Follow n pieces)
    (hk : k = n + (pieces.flatMap Prod.snd).length) : Follow n (pieces ++ [(k,data)]) := by
  induction pieces generalizing n with
  | nil => exact ⟨hk,trivial⟩
  | cons p pieces ih =>
    refine ⟨h.1,ih h.2 ?_⟩
    rw [hk,List.flatMap_cons,List.length_append]
    omega

def Attach.handed (a : Attach B) : List B := a.emitted.flatMap Prod.snd

namespace Signal

variable {sig : Signal} {wake : ℕ}

/-- A channel that was taken: it is closed, or it is the one that is closed next. -/
def Held (sig : Signal) (wake : ℕ) : Prop := wake < sig.closed ∨ (wake = sig.closed ∧ sig.ch = true)

theorem Held.wait (sig : Signal) : sig.Wait.2.Held sig.Wait.1 := Or.inr ⟨rfl,rfl⟩

theorem Held.notify (h : sig.Held wake) : wake < sig.Notify.closed := by
  unfold Notify
  rcases h with hlt | ⟨rfl,hch⟩
  · split
    · exact Nat.lt_succ_of_lt hlt
    · exact hlt
  · rw [if_pos hch]
    exact Nat.lt_succ_self _

theorem Held.keep (h : sig.Held wake) {sig' : Signal} (hclosed : sig'.closed = sig.closed) (hch : sig.ch → sig'.ch) :
    sig'.Held wake := by
  rcases h with hlt | ⟨rfl,hopen⟩
  · exact Or.inl (hclosed ▸ hlt)
  · exact Or.inr ⟨hclosed.symm,hch hopen⟩

end Signal

/-- What the phase and the outcome that an `Attach` read say about the supervisor now, and that what it does not
know of yet is still to be notified. -/
structure Knows (s : Supervisor B) (wake : ℕ) (phase : RunPhase) (outcome : Outcome) : Prop where
  held : s.changed.Held wake
  finished : phase = .finished → s.Set ∧ outcome = s.outcome
  open_ : ¬wake < s.changed.closed → s.Pending ∨ ¬s.Over ∨ phase = .finished

/-- What holds of an `Attach` where it is. -/
def Place.Ok (l : Launch) (s : Supervisor B) (a : Attach B) : Place B → Prop
  | .top => True
  | .holds wake => s.changed.Held wake
  | .drains wake phase outcome => Knows s wake phase outcome
  | .passes wake phase outcome data => Knows s wake phase outcome ∧ data ≠ [] ∧ data <+: s.spool.drop a.pos
  | .sleeps wake =>
    s.changed.Held wake ∧ (¬wake < s.changed.closed → s.Pending ∨ (¬s.Over ∧ s.announced ≤ a.pos))
  | .returned (.outcome o) => s.Set ∧ o = s.outcome ∧ a.handed = s.spool.drop (a.offset - l.OutputBase)
  | .returned (.refused f) => a.offset < l.OutputBase ∧ a.emitted = [] ∧ f = failf .invalidInput
      s!"the job's output from offset {a.offset} was asked for, and this attempt's starts at {l.OutputBase}"
  | .returned .errReleased => s.phase = .released
  | .returned .context => a.ctxDone = true
  | .returned (.unread _) => True
  | .returned (.unpassed _) => True

/-- What holds of every `Attach` at any time. -/
structure Attach.Ok (l : Launch) (s : Supervisor B) (a : Attach B) : Prop where
  inside : (∃ f, a.place = .returned (.refused f)) ∨ l.OutputBase ≤ a.offset
  follow : Follow a.offset a.emitted
  handed : a.handed <+: s.spool.drop (a.offset - l.OutputBase)
  pos : (∃ e, a.place = .returned e) ∨ a.pos = a.offset - l.OutputBase + a.handed.length
  place : a.place.Ok l s a

theorem Goes.released {p : RunPhase} (h : Goes .released p) : p = .released := by
  cases h with
  | stays => rfl

theorem Goes.finished {p : RunPhase} (h : Goes .finished p) : p = .finished ∨ p = .released := by
  cases h with
  | stays => exact Or.inl rfl
  | release => exact Or.inr rfl

section Moving

variable (h : s.Moves s')

include h

theorem Supervisor.Moves.set (hset : s.Set) : s'.Set := by
  unfold Supervisor.Set
  rw [(h.final hset).2]
  exact hset

theorem Supervisor.Moves.held {wake : ℕ} (hheld : s.changed.Held wake) : s'.changed.Held wake := by
  rcases h.announces with hnotify | ⟨hclosed,hch,-⟩
  · rw [hnotify]
    exact Or.inl hheld.notify
  · exact hheld.keep hclosed hch

theorem Supervisor.Moves.open_ {wake : ℕ} (hheld : s.changed.Held wake) (hopen : ¬wake < s'.changed.closed) :
    ¬wake < s.changed.closed ∧ (s.Pending → s'.Pending) ∧
      (s'.Pending ∨ (s'.announced = s.announced ∧ (s'.Over → s.Over))) := by
  rcases h.announces with hnotify | ⟨hclosed,-,hpending,hnew⟩
  · rw [hnotify] at hopen
    exact absurd hheld.notify hopen
  · rw [hclosed] at hopen
    exact ⟨hopen,hpending,hnew⟩

theorem Knows.moves {wake : ℕ} {phase : RunPhase} {outcome : Outcome} (hk : Knows s wake phase outcome) :
    Knows s' wake phase outcome where
  held := h.held hk.held
  finished := by
    intro hphase
    obtain ⟨hset,houtcome⟩ := hk.finished hphase
    exact ⟨h.set hset,houtcome.trans (h.final hset).2.symm⟩
  open_ := by
    intro hopen
    obtain ⟨hbefore,hpending,hnew⟩ := h.open_ hk.held hopen
    rcases hk.open_ hbefore with hp | hover | hphase
    · exact Or.inl (hpending hp)
    · rcases hnew with hp | ⟨-,hover'⟩
      · exact Or.inl hp
      · exact Or.inr (Or.inl fun ho => hover (hover' ho))
    · exact Or.inr (Or.inr hphase)

theorem Supervisor.Moves.released (hphase : s.phase = .released) : s'.phase = .released := by
  have hgoes := h.phase
  rw [hphase] at hgoes
  exact hgoes.released

theorem Place.Ok.moves {p : Place B} (hp : p.Ok l s a) : p.Ok l s' a := by
  cases p with
  | top => trivial
  | holds wake => exact h.held hp
  | drains wake phase outcome => exact Knows.moves h hp
  | passes wake phase outcome data => exact ⟨hp.1.moves h,hp.2.1,hp.2.2.trans (h.spool.drop _)⟩
  | sleeps wake =>
    refine ⟨h.held hp.1,fun hopen => ?_⟩
    obtain ⟨hbefore,hpending,hnew⟩ := h.open_ hp.1 hopen
    rcases hp.2 hbefore with hpend | ⟨hover,hannounced⟩
    · exact Or.inl (hpending hpend)
    · rcases hnew with hpend | ⟨heq,hover'⟩
      · exact Or.inl hpend
      · exact Or.inr ⟨fun ho => hover (hover' ho),heq ▸ hannounced⟩
  | returned e =>
    cases e with
    | outcome o =>
      obtain ⟨hset,ho,hhanded⟩ := hp
      obtain ⟨hspool,houtcome⟩ := h.final hset
      refine ⟨h.set hset,ho.trans houtcome.symm,?_⟩
      rw [hspool]
      exact hhanded
    | refused f => exact hp
    | errReleased => exact h.released hp
    | context => exact hp
    | unread f => trivial
    | unpassed err => trivial

/-- Whatever a call does to the supervisor keeps what is known of every `Attach`. -/
theorem Attach.Ok.moves (ha : a.Ok l s) : a.Ok l s' where
  inside := ha.inside
  follow := ha.follow
  handed := ha.handed.trans (h.spool.drop _)
  pos := ha.pos
  place := ha.place.moves h

end Moving

namespace Attach

theorem Ok.start (l : Launch) (s : Supervisor B) (offset : ℕ) : (Attach.start l offset : Attach B).Ok l s := by
  unfold Attach.start
  split
  · next hlt => exact ⟨Or.inl ⟨_,rfl⟩,trivial,List.nil_prefix,Or.inl ⟨_,rfl⟩,hlt,rfl,rfl⟩
  · next hge => exact ⟨Or.inr (Nat.le_of_not_lt hge),trivial,List.nil_prefix,Or.inr rfl,trivial⟩

theorem Ok.at (h : a.Ok l s) {p : Place B} (hlive : ∀ e, a.place ≠ .returned e) (hp : p.Ok l s { a with place := p }) :
    Ok l s { a with place := p } where
  inside := Or.inr (h.inside.resolve_left fun ⟨_,hf⟩ => hlive _ hf)
  follow := h.follow
  handed := h.handed
  pos := Or.inr (h.pos.resolve_left fun ⟨e,he⟩ => hlive e he)
  place := hp

theorem Ok.append (h : a.Ok l s) (hlive : ∀ e, a.place ≠ .returned e) {data : List B} (hdata : data <+: s.spool.drop a.pos) :
    a.handed ++ data <+: s.spool.drop (a.offset - l.OutputBase) := by
  have hpos := h.pos.resolve_left fun ⟨e,he⟩ => hlive e he
  obtain ⟨rest,hrest⟩ := h.handed
  rw [← hrest]
  refine List.prefix_append_right_inj _ |>.mpr ?_
  have hdrop : s.spool.drop a.pos = rest := by
    rw [hpos,← List.drop_drop,← hrest]
    exact List.drop_left
  rwa [hdrop] at hdata

theorem Ok.all (h : a.Ok l s) (hlive : ∀ e, a.place ≠ .returned e) (hend : s.spool.length ≤ a.pos) :
    a.handed = s.spool.drop (a.offset - l.OutputBase) := by
  have hpos := h.pos.resolve_left fun ⟨e,he⟩ => hlive e he
  refine h.handed.eq_of_length_le ?_
  rw [List.length_drop]
  omega

theorem read_nil {n : ℕ} (h : a.read s n = []) : s.spool.length ≤ a.pos := by
  unfold read at h
  rcases List.take_eq_nil_iff.mp h with hzero | hnil
  · omega
  · exact List.drop_eq_nil_iff.mp hnil

theorem Ok.drain (h : a.Ok l s) (hs : s.Ok) {wake : ℕ} {phase : RunPhase} {outcome : Outcome}
    (hplace : a.place = .drains wake phase outcome) (n : ℕ) : (a.turn l s (.drain n)).Ok l s := by
  have hlive : ∀ e, a.place ≠ .returned e := by simp [hplace]
  have hknows : Knows s wake phase outcome := by
    have hp := h.place
    rw [hplace] at hp
    exact hp
  unfold turn
  rw [hplace]
  dsimp only
  split
  · next hnil =>
    have hend := read_nil hnil
    unfold drained
    split
    · next hphase =>
      obtain ⟨hset,houtcome⟩ := hknows.finished hphase
      exact h.at hlive ⟨hset,houtcome,h.all hlive hend⟩
    · next hphase =>
      refine h.at hlive ⟨hknows.held,fun hopen => ?_⟩
      rcases hknows.open_ hopen with hp | hover | hfin
      · exact Or.inl hp
      · exact Or.inr ⟨hover,hs.announced.trans hend⟩
      · exact absurd hfin hphase
  · next hne => exact h.at hlive ⟨hknows,hne,List.take_prefix _ _⟩

theorem Ok.pass (h : a.Ok l s) {wake : ℕ} {phase : RunPhase} {outcome : Outcome} {data : List B}
    (hplace : a.place = .passes wake phase outcome data) (err : Option String) : (a.turn l s (.pass err)).Ok l s := by
  have hlive : ∀ e, a.place ≠ .returned e := by simp [hplace]
  obtain ⟨hknows,-,hdata⟩ : Knows s wake phase outcome ∧ data ≠ [] ∧ data <+: s.spool.drop a.pos := by
    have hp := h.place
    rw [hplace] at hp
    exact hp
  have hinside := h.inside.resolve_left fun ⟨f,hf⟩ => hlive _ hf
  have hpos := h.pos.resolve_left fun ⟨e,he⟩ => hlive e he
  have hhanded : (a.emitted ++ [(l.OutputBase + a.pos,data)]).flatMap Prod.snd = a.handed ++ data := by
    simp [Attach.handed]
  have hfollow : Follow a.offset (a.emitted ++ [(l.OutputBase + a.pos,data)]) := by
    refine h.follow.concat ?_
    rw [hpos]
    change _ = a.offset + a.handed.length
    omega
  have happend : (a.emitted ++ [(l.OutputBase + a.pos,data)]).flatMap Prod.snd <+:
      s.spool.drop (a.offset - l.OutputBase) := by
    rw [hhanded]
    exact h.append hlive hdata
  unfold turn
  rw [hplace]
  cases err with
  | some e => exact ⟨Or.inr hinside,hfollow,happend,Or.inl ⟨_,rfl⟩,trivial⟩
  | none =>
    refine ⟨Or.inr hinside,hfollow,happend,Or.inr ?_,hknows⟩
    change a.pos + data.length =
      a.offset - l.OutputBase + ((a.emitted ++ [(l.OutputBase + a.pos,data)]).flatMap Prod.snd).length
    rw [hhanded,List.length_append]
    omega

def after (s : Supervisor B) (a : Attach B) (t : Turn) : Supervisor B :=
  if a.takes t then { s with changed := s.changed.Wait.2 } else s

theorem moves_after (s : Supervisor B) (a : Attach B) (t : Turn) : s.Moves (after s a t) := by
  unfold after
  split
  · exact .still rfl rfl rfl rfl (fun _ => rfl) id rfl rfl id
  · exact .refl s

theorem Ok.take (h : a.Ok l s) : (a.turn l s .take).Ok l (after s a .take) := by
  cases hplace : a.place with
  | top =>
    have hmoved := h.moves (moves_after s a .take)
    have htakes : a.takes .take = true := by simp [takes,hplace]
    unfold after at hmoved ⊢
    rw [if_pos htakes] at hmoved ⊢
    unfold turn
    rw [hplace]
    exact hmoved.at (by simp [hplace]) (Signal.Held.wait s.changed)
  | _ =>
    have hturn : a.turn l s .take = a := by simp only [turn,hplace]
    rw [hturn]
    exact h.moves (moves_after s a .take)

theorem Ok.look (h : a.Ok l s) (hs : s.Ok) : (a.turn l s .look).Ok l s := by
  cases hplace : a.place with
  | holds wake =>
    have hlive : ∀ e, a.place ≠ .returned e := by simp [hplace]
    have hheld : s.changed.Held wake := by
      have hp := h.place
      rw [hplace] at hp
      exact hp
    unfold turn
    rw [hplace]
    dsimp only
    split
    · next hphase => exact h.at hlive hphase
    · next hphase =>
      refine h.at hlive ⟨hheld,fun hfin => ⟨hs.set_of_finished hfin,rfl⟩,fun _ => ?_⟩
      by_cases hfin : s.phase = .finished
      · exact Or.inr (Or.inr hfin)
      · exact Or.inr (Or.inl fun hover => hover.elim hfin hphase)
  | _ =>
    have hturn : a.turn l s .look = a := by simp only [turn,hplace]
    rw [hturn]
    exact h

theorem Ok.turn (h : a.Ok l s) (hs : s.Ok) (t : Turn) : (a.turn l s t).Ok l (after s a t) := by
  cases t with
  | take => exact h.take
  | look => exact h.look hs
  | drain n =>
    cases hplace : a.place with
    | drains wake phase outcome => exact h.drain hs hplace n
    | _ =>
      have hturn : a.turn l s (.drain n) = a := by simp only [Attach.turn,hplace]
      rw [hturn]
      exact h
  | failRead err =>
    cases hplace : a.place with
    | drains wake phase outcome =>
      unfold Attach.turn
      rw [hplace]
      exact h.at (by simp [hplace]) trivial
    | _ =>
      have hturn : a.turn l s (.failRead err) = a := by simp only [Attach.turn,hplace]
      rw [hturn]
      exact h
  | pass err =>
    cases hplace : a.place with
    | passes wake phase outcome data => exact h.pass hplace err
    | _ =>
      have hturn : a.turn l s (.pass err) = a := by simp only [Attach.turn,hplace]
      rw [hturn]
      exact h
  | wake =>
    cases hplace : a.place with
    | sleeps wake =>
      unfold Attach.turn
      rw [hplace]
      dsimp only
      split
      · exact h.at (by simp [hplace]) trivial
      · exact h
    | _ =>
      have hturn : a.turn l s .wake = a := by simp only [Attach.turn,hplace]
      rw [hturn]
      exact h
  | ctxEnds =>
    refine ⟨h.inside,h.follow,h.handed,h.pos,?_⟩
    have hp := h.place
    unfold Attach.turn
    dsimp only
    cases hplace : a.place with
    | returned e =>
      rw [hplace] at hp
      cases e with
      | context => rfl
      | _ => exact hp
    | _ =>
      rw [hplace] at hp
      exact hp
  | leave =>
    cases hplace : a.place with
    | sleeps wake =>
      unfold Attach.turn
      rw [hplace]
      dsimp only
      split
      · next hdone => exact h.at (by simp [hplace]) hdone
      · exact h
    | _ =>
      have hturn : a.turn l s .leave = a := by simp only [Attach.turn,hplace]
      rw [hturn]
      exact h

end Attach

end Vibesys.Attached
