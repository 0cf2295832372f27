import Vibesys.Promotion.Branch

/-!
# What a promotion rests on

Whatever is stopped where, and whoever else moves the branch, what is read off the head and the record is
right: a promotion that is carried out is either not recorded, and later than every one that is, or it is
the newest of the record.
-/
namespace Vibesys.Promotion
open Vibesys.Core Vibesys.Library

/-- No result was recorded after the time at which the promotion is asked for. -/
def Act.Timely : Act → Prop
  | .decide results at_ _ => ∀ r ∈ results, r.recordedAt ≤ at_
  | _ => True

instance (e : Act) : Decidable e.Timely := by
  cases e
  case decide results at_ _ => exact inferInstanceAs (Decidable (∀ r ∈ results, r.recordedAt ≤ at_))
  all_goals exact inferInstanceAs (Decidable True)

theorem NextPromotionStep_spec (p : Promotion) (head : Commit) (promotions : List Promotion) :
    match NextPromotionStep p head promotions with
    | .record _ => ¬Recorded p promotions ∧ head = p.previousHead
    | .move from_ to_ => Recorded p promotions ∧ head = p.previousHead ∧ from_ = p.previousHead ∧ to_ = p.commit
    | .done => Recorded p promotions ∧ head = p.commit
    | .diverged _ => Recorded p promotions → head ≠ p.previousHead := by
  unfold NextPromotionStep
  split_ifs with hrecord hmove hdone
  · exact hrecord
  · exact ⟨hmove.1,hmove.2,rfl,rfl⟩
  · exact hdone
  · exact fun hrecorded hhead => hmove ⟨hrecorded,hhead⟩

theorem recorded_of_mem {p : Promotion} {promotions : List Promotion} (h : p ∈ promotions) : Recorded p promotions :=
  ⟨p,h,rfl,rfl,rfl⟩

theorem not_recorded_of_lt {p : Promotion} {promotions : List Promotion} (h : ∀ q ∈ promotions, q.at_ < p.at_) :
    ¬Recorded p promotions := by
  rintro ⟨q,hq,_,_,hat⟩
  exact absurd (h q hq) (by rw [hat]; exact lt_irrefl _)

namespace Durable

/-- A promotion being carried out is not recorded yet, and later than all that are, or it is the newest; and
while nobody else moves the branch, the branch is where its moves left it. -/
structure Carried (s : Durable) (c : Carry) : Prop where
  seen : c.since ≤ c.seen ∧ c.seen ≤ s.others
  distinct : c.promotion.commit ≠ c.promotion.previousHead
  once : c.records = 0 ∧ c.moves = 0 ∧ (∀ q ∈ s.promotions, q.at_ < c.promotion.at_)
    ∨ c.records = 1 ∧ s.promotions.getLast? = some c.promotion
  quiet : s.others = c.since →
    c.moves = 0 ∧ (c.records = 1 → s.head = c.promotion.previousHead) ∨ c.moves = 1 ∧ s.head = c.promotion.commit

structure Ended (s : Durable) (answer : Answer) (c : Option Carry) : Prop where
  few : ∀ c', c = some c' → c'.since ≤ s.others ∧ c'.records ≤ 1 ∧ (s.others = c'.since → c'.moves ≤ 1)
  approved : ∀ p, answer = .decided (.approved p) → s.promotions.getLast? = some p
    ∧ ∃ c', c = some c' ∧ c'.seen ≤ s.others ∧ (s.others = c'.seen → s.head = p.commit)

/-- What holds where the call is. -/
def Sound (s : Durable) : Call → Prop
  | .completing _ from_ to_ =>
    ∃ last, s.promotions.getLast? = some last ∧ from_ = last.previousHead ∧ to_ = last.commit
  | .carrying c => s.Carried c
  | .looked c head => s.Carried c ∧ (s.others = c.seen → head = s.head)
  | .recording c => s.Carried c ∧ c.records = 0 ∧ (s.others = c.seen → s.head = c.promotion.previousHead)
  | .pushing c from_ to_ => s.Carried c ∧ c.records = 1 ∧ from_ = c.promotion.previousHead ∧ to_ = c.promotion.commit
    ∧ (s.others = c.since → c.moves = 0)
  | .returned answer c => s.Ended answer c
  | _ => True

theorem Carried.few {s : Durable} {c : Carry} (h : s.Carried c) :
    c.since ≤ s.others ∧ c.records ≤ 1 ∧ (s.others = c.since → c.moves ≤ 1) := by
  refine ⟨h.seen.1.trans h.seen.2,?_,fun hquiet => ?_⟩
  · rcases h.once with ⟨hzero,_,_⟩ | ⟨hone,_⟩ <;> omega
  · rcases h.quiet hquiet with ⟨hzero,_⟩ | ⟨hone,_⟩ <;> omega

theorem Carried.of_recorded {s : Durable} {c : Carry} (h : s.Carried c) (hrecorded : Recorded c.promotion s.promotions) :
    c.records = 1 ∧ s.promotions.getLast? = some c.promotion := by
  rcases h.once with ⟨_,_,hlate⟩ | hlast
  · exact absurd hrecorded (not_recorded_of_lt hlate)
  · exact hlast

theorem Carried.of_not_recorded {s : Durable} {c : Carry} (h : s.Carried c) (hnot : ¬Recorded c.promotion s.promotions) :
    c.records = 0 ∧ c.moves = 0 ∧ ∀ q ∈ s.promotions, q.at_ < c.promotion.at_ := by
  rcases h.once with hnew | ⟨_,hlast⟩
  · exact hnew
  · exact absurd (recorded_of_mem (List.mem_of_getLast? hlast)) hnot

theorem Carried.failed {s : Durable} {c : Carry} (h : s.Carried c) (f : Failure) : s.Ended (.failed f) (some c) where
  few c' hc' := by
    obtain rfl := Option.some.inj hc'
    exact h.few
  approved _ hp := by cases hp

theorem ended_none (s : Durable) {answer : Answer} (h : ∀ p, answer ≠ .decided (.approved p)) : s.Ended answer none where
  few _ hc := by cases hc
  approved p hp := absurd hp (h p)

theorem Carried.again {s : Durable} {c : Carry} (h : s.Carried c) (branch : String) : s.Sound (c.again branch) := by
  unfold Carry.again
  split_ifs
  · exact h.failed _
  · exact h

theorem sound_at (s : Durable) (goal : Goal) (head : Commit) : s.Sound (goal.at_ head) := by
  cases goal with
  | settle => exact s.ended_none fun _ h => by cases h
  | promote commit => exact trivial

end Durable

namespace State
open Durable

structure Kept (s : State) : Prop where
  times : s.promotions.Pairwise fun p q => p.at_ < q.at_
  sound : s.Sound s.call

theorem Kept.move {s : State} (h : s.Kept) (to_ : Commit) :
    Kept { s with head := to_, others := s.others+1 } := by
  refine ⟨h.times,?_⟩
  have hsound := h.sound
  have hcarried : ∀ c, s.Carried c → Carried { s.toDurable with head := to_, others := s.others+1 } c := by
    intro c hc
    obtain ⟨hsince,hseen⟩ := hc.seen
    refine ⟨⟨hsince,by dsimp only; omega⟩,hc.distinct,hc.once,fun hquiet => ?_⟩
    dsimp only at hquiet
    omega
  cases hcall : s.call with
  | none_ => exact trivial
  | settling goal => exact trivial
  | found goal head => exact trivial
  | completing goal from_ to_ =>
    rw [hcall] at hsound
    exact hsound
  | deciding commit head => exact trivial
  | carrying c =>
    rw [hcall] at hsound
    exact hcarried c hsound
  | looked c head =>
    rw [hcall] at hsound
    refine ⟨hcarried c hsound.1,fun hquiet => ?_⟩
    have := hsound.1.seen
    dsimp only at hquiet
    omega
  | recording c =>
    rw [hcall] at hsound
    refine ⟨hcarried c hsound.1,hsound.2.1,fun hquiet => ?_⟩
    have := hsound.1.seen
    dsimp only at hquiet
    omega
  | pushing c from_ to_ =>
    rw [hcall] at hsound
    obtain ⟨hc,hone,hfrom,hto,_⟩ := hsound
    refine ⟨hcarried c hc,hone,hfrom,hto,fun hquiet => ?_⟩
    have := hc.seen
    dsimp only at hquiet
    omega
  | returned answer c =>
    rw [hcall] at hsound
    constructor
    · intro c' hc'
      obtain ⟨hsince,hone,_⟩ := hsound.few c' hc'
      refine ⟨by dsimp only; omega,hone,fun hquiet => ?_⟩
      dsimp only at hquiet
      omega
    · intro p hp
      obtain ⟨hlast,c',hc',hseen,_⟩ := hsound.approved p hp
      refine ⟨hlast,c',hc',by dsimp only; omega,fun hquiet => ?_⟩
      dsimp only at hquiet
      omega

theorem Kept.read {s : State} (h : s.Kept) : Kept { s with call := s.read } := by
  refine ⟨h.times,?_⟩
  have hsound := h.sound
  change s.Sound s.read
  unfold State.read
  cases hcall : s.call with
  | settling goal => exact trivial
  | found goal head =>
    dsimp only
    split
    · exact sound_at s.toDurable goal head
    · rename_i last hlast
      have hspec := NextPromotionStep_spec last head s.promotions
      split
      · rename_i from_ to_ hnext
        rw [hnext] at hspec
        exact ⟨last,hlast,hspec.2.2.1,hspec.2.2.2⟩
      · exact sound_at s.toDurable goal head
  | carrying c =>
    rw [hcall] at hsound
    refine ⟨⟨⟨hsound.seen.1.trans hsound.seen.2,le_rfl⟩,hsound.distinct,hsound.once,hsound.quiet⟩,fun _ => rfl⟩
  | looked c head =>
    rw [hcall] at hsound
    obtain ⟨hc,hhead⟩ := hsound
    have hspec := NextPromotionStep_spec c.promotion head s.promotions
    dsimp only
    split
    · rename_i hnext
      rw [hnext] at hspec
      exact ⟨hc,(hc.of_not_recorded hspec.1).1,fun hquiet => (hhead hquiet).symm.trans hspec.2⟩
    · rename_i from_ to_ hnext
      rw [hnext] at hspec
      obtain ⟨hrecorded,hprevious,hfrom,hto⟩ := hspec
      refine ⟨⟨hc.seen,hc.distinct,hc.once,hc.quiet⟩,(hc.of_recorded hrecorded).1,hfrom,hto,fun hquiet => ?_⟩
      -- After a move the head would be the promoted commit.
      rcases hc.quiet hquiet with ⟨hzero,_⟩ | ⟨_,hcommit⟩
      · exact hzero
      · have hseen := hc.seen
        have hsame : head = s.head := hhead (by dsimp only at hquiet; omega)
        exact absurd (hcommit.symm.trans (hsame.symm.trans hprevious)) hc.distinct
    · rename_i hnext
      rw [hnext] at hspec
      refine ⟨(hc.failed ⟨.internal,""⟩).few,fun p hp => ?_⟩
      obtain rfl : c.promotion = p := by simpa using hp
      exact ⟨(hc.of_recorded hspec.1).2,c,rfl,hc.seen.2,fun hquiet => (hhead hquiet).symm.trans hspec.2⟩
    · exact hc.failed _
  | none_ => exact trivial
  | completing goal from_ to_ =>
    rw [hcall] at hsound
    exact hsound
  | deciding commit head => exact trivial
  | recording c =>
    rw [hcall] at hsound
    exact hsound
  | pushing c from_ to_ =>
    rw [hcall] at hsound
    exact hsound
  | returned answer c =>
    rw [hcall] at hsound
    exact hsound

theorem Kept.decide {s : State} (h : s.Kept) (commit head : Commit) {results : List Result} {at_ : Time}
    (htimely : ∀ r ∈ results, r.recordedAt ≤ at_) (ahead : Except Failure Bool) :
    Kept { s with call := s.decided commit head results at_ ahead } := by
  refine ⟨h.times,?_⟩
  change s.Sound (s.decided commit head results at_ ahead)
  unfold State.decided
  split
  · exact s.ended_none fun _ hp => by cases hp
  · exact s.ended_none fun _ hp => by cases hp
  · rename_i p hdecision
    split
    · exact s.ended_none fun _ hp => by cases hp
    · exact s.ended_none fun _ hp => by cases hp
    · obtain ⟨hcommit,hprevious,hat,hdistinct,r,hr,hlate⟩ := of_approved hdecision
      refine ⟨⟨le_rfl,le_rfl⟩,?_,.inl ⟨rfl,rfl,fun q hq => ?_⟩,fun _ => .inl ⟨rfl,nofun⟩⟩
      · rw [hcommit,hprevious]
        exact hdistinct
      · rw [hat]
        exact lt_of_lt_of_le (hlate q hq) (htimely r hr)

theorem pairwise_record {promotions : List Promotion} (h : promotions.Pairwise fun p q => p.at_ < q.at_) {p : Promotion}
    (hlate : ∀ q ∈ promotions, q.at_ < p.at_) : (promotions ++ [p]).Pairwise fun p q => p.at_ < q.at_ := by
  refine List.pairwise_append.mpr ⟨h,List.pairwise_singleton _ _,fun q hq p' hp' => ?_⟩
  rw [List.mem_singleton.mp hp']
  exact hlate q hq

theorem Kept.record {s : State} (h : s.Kept) (durable : Bool) (failure : Option Failure) :
    Kept (s.record durable failure) := by
  have hsound := h.sound
  unfold State.record
  cases hcall : s.call
  case recording c =>
    rw [hcall] at hsound
    obtain ⟨hc,hzero,hhead⟩ := hsound
    obtain ⟨hmoves,hlate⟩ : c.moves = 0 ∧ ∀ q ∈ s.promotions, q.at_ < c.promotion.at_ := by
      rcases hc.once with ⟨_,hmoves,hlate⟩ | ⟨hone,_⟩
      · exact ⟨hmoves,hlate⟩
      · omega
    dsimp only
    split
    · refine ⟨pairwise_record h.times hlate,Carried.again ?_ _⟩
      refine ⟨hc.seen,hc.distinct,.inr ?_,fun hquiet => .inl ?_⟩
      · exact ⟨by dsimp only; omega,List.getLast?_concat⟩
      · refine ⟨hmoves,fun _ => hhead ?_⟩
        have hseen := hc.seen
        dsimp only at hquiet
        omega
    · refine ⟨?_,?_,fun _ hp => by cases hp⟩
      · dsimp only
        split_ifs
        · exact pairwise_record h.times hlate
        · exact h.times
      · rintro c' ⟨⟩
        obtain ⟨hsince,_,hmost⟩ := hc.few
        exact ⟨hsince,by dsimp only; omega,hmost⟩
  all_goals exact h

theorem FastForward_spec (s : State) (from_ to_ : Commit) (moved : Bool) (failure : Option Failure) :
    ((s.FastForward from_ to_ moved failure).1 = s.head
      ∨ s.head = from_ ∧ (s.FastForward from_ to_ moved failure).1 = to_)
    ∧ ((s.FastForward from_ to_ moved failure).2 = none → (s.FastForward from_ to_ moved failure).1 = to_) := by
  unfold State.FastForward
  dsimp only
  by_cases hto : s.head = to_
  · rw [if_pos hto]
    exact ⟨.inl rfl,fun _ => hto⟩
  rw [if_neg hto]
  by_cases hfrom : s.head = from_
  · rw [if_neg (not_not.mpr hfrom)]
    cases failure with
    | none => exact ⟨.inr ⟨hfrom,rfl⟩,fun _ => rfl⟩
    | some f =>
      cases moved with
      | false => exact ⟨.inl rfl,fun hnone => by cases hnone⟩
      | true => exact ⟨.inr ⟨hfrom,rfl⟩,fun hnone => by cases hnone⟩
  · rw [if_pos hfrom]
    exact ⟨.inl rfl,fun hnone => by cases hnone⟩

theorem Kept.forward {s : State} (h : s.Kept) (moved : Bool) (failure : Option Failure) :
    Kept (s.forward moved failure) := by
  have hsound := h.sound
  unfold State.forward
  cases hcall : s.call
  case completing goal from_ to_ =>
    dsimp only
    refine ⟨h.times,?_⟩
    dsimp only
    split
    · exact sound_at _ goal to_
    · exact ended_none _ fun _ hp => by cases hp
  case pushing c from_ to_ =>
    rw [hcall] at hsound
    obtain ⟨hc,hone,rfl,rfl,hquiet⟩ := hsound
    obtain ⟨hwhere,hthere⟩ := s.FastForward_spec c.promotion.previousHead c.promotion.commit moved failure
    have hlast : s.promotions.getLast? = some c.promotion := by
      rcases hc.once with ⟨hzero,_⟩ | ⟨_,hlast⟩
      · omega
      · exact hlast
    dsimp only
    refine ⟨h.times,?_⟩
    dsimp only
    split
    · rename_i hok
      refine Carried.again ?_ _
      exact ⟨hc.seen,hc.distinct,.inr ⟨hone,hlast⟩,fun hsince => .inr ⟨by rw [hquiet hsince],hthere hok⟩⟩
    · refine ⟨?_,fun _ hp => by cases hp⟩
      rintro c' ⟨⟩
      obtain ⟨hsince,hrecords,_⟩ := hc.few
      exact ⟨hsince,hrecords,fun hsame => by rw [hquiet hsame]⟩
  all_goals exact h

theorem Kept.fail {s : State} (h : s.Kept) (f : Failure) : Kept { s with call := s.fail f } := by
  refine ⟨h.times,?_⟩
  have hsound := h.sound
  change s.Sound (s.fail f)
  unfold State.fail
  cases hcall : s.call <;> rw [hcall] at hsound
  case settling goal => exact s.ended_none fun _ hp => by cases hp
  case found goal head => exact s.ended_none fun _ hp => by cases hp
  case deciding commit head => exact s.ended_none fun _ hp => by cases hp
  case carrying c => exact hsound.failed _
  case looked c head => exact hsound.1.failed _
  all_goals exact hsound

theorem Kept.step {s : State} (h : s.Kept) {e : Act} (he : e.Timely) : Kept (s.step e) := by
  cases e with
  | move to_ => exact h.move to_
  | settle =>
    dsimp only [State.step]
    split_ifs
    · exact ⟨h.times,trivial⟩
    · exact h
  | promote commit =>
    dsimp only [State.step]
    split_ifs
    · exact ⟨h.times,trivial⟩
    · exact ⟨h.times,s.ended_none fun _ hp => by cases hp⟩
    · exact h
  | read => exact h.read
  | decide results at_ ahead =>
    dsimp only [State.step]
    split
    · exact h.decide _ _ he ahead
    · exact h
  | record durable failure => exact h.record durable failure
  | forward moved failure => exact h.forward moved failure
  | fail f => exact h.fail f
  | crash => exact ⟨h.times,trivial⟩

end State
end Vibesys.Promotion
