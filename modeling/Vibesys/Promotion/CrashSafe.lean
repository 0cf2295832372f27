import Vibesys.Promotion.Kept

/-!
# Promotion is crash-safe

The daemon moves the branch for the newest promotion of the record only, an approval is recorded once, and
while nobody else moves the branch the record is a chain that the branch is at the end of, or one move behind.
-/
namespace Vibesys.Promotion
open Vibesys.Core Vibesys.Library

namespace Durable

def Caught (s : Durable) : Prop := ∀ last, s.promotions.getLast? = some last → s.head = last.commit

/-- What holds where the call is, while nobody else moves the branch. -/
def Settled (s : Durable) : Call → Prop
  | .found _ head => head = s.head
  | .deciding _ head => head = s.head ∧ s.Caught
  | .carrying c => c.records = 0 → c.promotion.previousHead = s.head ∧ s.Caught
  | .looked c _ => c.records = 0 → c.promotion.previousHead = s.head ∧ s.Caught
  | .recording c => c.promotion.previousHead = s.head ∧ s.Caught
  | .returned (.settled head) _ => head = s.head ∧ s.Caught
  | _ => True

/-- The record is a chain, and the branch is at its end or one move behind. -/
structure Chained (s : Durable) : Prop where
  alone : s.others = 0
  chain : s.promotions.IsChain fun p q => q.previousHead = p.commit
  head : ∀ last, s.promotions.getLast? = some last → s.head = last.commit ∨ s.head = last.previousHead

theorem settled_at {s : Durable} (goal : Goal) (hcaught : s.Caught) : s.Settled (goal.at_ s.head) := by
  cases goal with
  | settle => exact ⟨rfl,hcaught⟩
  | promote commit => exact ⟨rfl,hcaught⟩

theorem settled_again (s : Durable) {c : Carry} (hone : c.records ≠ 0) (branch : String) :
    s.Settled (c.again branch) := by
  unfold Carry.again
  split_ifs
  · exact trivial
  · exact fun hzero => absurd hzero hone

end Durable

namespace State
open Durable

theorem Kept.settled_read {s : State} (h : s.Kept) (hchained : s.Chained) (hsettled : s.Settled s.call) :
    s.Settled s.read := by
  have hsound := h.sound
  unfold State.read
  cases hcall : s.call <;> rw [hcall] at hsettled hsound
  case settling goal => rfl
  case found goal head =>
    obtain rfl : head = s.head := hsettled
    dsimp only
    split
    · rename_i hnone
      refine settled_at goal fun last hlast => ?_
      rw [hnone] at hlast
      cases hlast
    · rename_i last hlast
      have hspec := NextPromotionStep_spec last s.head s.promotions
      split
      · exact trivial
      · rename_i hnext
        refine settled_at goal fun last' hlast' => ?_
        obtain rfl : last = last' := Option.some.inj (hlast.symm.trans hlast')
        -- The newest is recorded, so a head that it replaced would be moved.
        have hrecorded := recorded_of_mem (List.mem_of_getLast? hlast)
        rcases hchained.head last hlast with hcommit | hprevious
        · exact hcommit
        · exfalso
          unfold NextPromotionStep at hnext
          rw [if_neg (fun hnot => hnot.1 hrecorded),if_pos ⟨hrecorded,hprevious⟩] at hnext
          exact hnext _ _ rfl
  case carrying c => exact hsettled
  case looked c head =>
    have hspec := NextPromotionStep_spec c.promotion head s.promotions
    dsimp only
    split
    · rename_i hnext
      rw [hnext] at hspec
      exact hsettled (hsound.1.of_not_recorded hspec.1).1
    · exact trivial
    · exact trivial
    · exact trivial
  all_goals exact hsettled

theorem settled_decide {s : State} {commit head : Commit} (hsettled : s.Settled (.deciding commit head))
    (results : List Result) (at_ : Time) (ahead : Except Failure Bool) :
    s.Settled (s.decided commit head results at_ ahead) := by
  unfold State.decided
  split
  · exact trivial
  · exact trivial
  · rename_i p hdecision
    obtain ⟨_,hprevious,_⟩ := of_approved hdecision
    split
    · exact trivial
    · exact trivial
    · exact fun _ => ⟨hprevious.trans hsettled.1,hsettled.2⟩

theorem chained_record {s : Durable} (h : s.Chained) {p : Promotion} (hprevious : p.previousHead = s.head)
    (hcaught : s.Caught) : Chained { s with promotions := s.promotions ++ [p] } where
  alone := h.alone
  chain := by
    refine h.chain.append (List.isChain_singleton _) fun last hlast q hq => ?_
    rw [List.head?_cons,Option.mem_some_iff] at hq
    rw [← hq,hprevious]
    exact hcaught last hlast
  head last hlast := by
    rw [List.getLast?_concat] at hlast
    obtain rfl := Option.some.inj hlast
    exact .inr hprevious.symm

theorem chained_recorded {s : State} (hchained : s.Chained) (hsettled : s.Settled s.call)
    (durable : Bool) (failure : Option Failure) :
    (s.record durable failure).Chained ∧ (s.record durable failure).Settled (s.record durable failure).call := by
  unfold State.record
  cases hcall : s.call
  case recording c =>
    rw [hcall] at hsettled
    have hrecord := chained_record hchained hsettled.1 hsettled.2
    cases failure with
    | none => exact ⟨hrecord,settled_again _ (Nat.succ_ne_zero _) _⟩
    | some f =>
      cases durable with
      | false => exact ⟨hchained,trivial⟩
      | true => exact ⟨hrecord,trivial⟩
  all_goals exact ⟨hchained,hsettled⟩

theorem chained_forward {s : State} (h : s.Chained) {last : Promotion} (hlast : s.promotions.getLast? = some last)
    (moved : Bool) (failure : Option Failure) :
    Chained { s.toDurable with head := (s.FastForward last.previousHead last.commit moved failure).1 } where
  alone := h.alone
  chain := h.chain
  head last' hlast' := by
    obtain rfl : last = last' := Option.some.inj (hlast.symm.trans hlast')
    rcases (s.FastForward_spec last.previousHead last.commit moved failure).1 with hsame | ⟨_,hmoved⟩
    · rw [hsame]
      exact h.head last hlast
    · exact .inl hmoved

theorem Kept.chained_forwarded {s : State} (h : s.Kept) (hchained : s.Chained) (hsettled : s.Settled s.call)
    (moved : Bool) (failure : Option Failure) :
    (s.forward moved failure).Chained ∧ (s.forward moved failure).Settled (s.forward moved failure).call := by
  have hsound := h.sound
  unfold State.forward
  cases hcall : s.call
  case completing goal from_ to_ =>
    rw [hcall] at hsound
    obtain ⟨last,hlast,rfl,rfl⟩ := hsound
    have hthere := (s.FastForward_spec last.previousHead last.commit moved failure).2
    refine ⟨chained_forward hchained hlast moved failure,?_⟩
    dsimp only
    split
    · rename_i hok
      rw [hthere hok]
      refine settled_at goal fun last' hlast' => ?_
      obtain rfl : last = last' := Option.some.inj (hlast.symm.trans hlast')
      rfl
    · exact trivial
  case pushing c from_ to_ =>
    rw [hcall] at hsound
    obtain ⟨hc,hone,rfl,rfl,_⟩ := hsound
    have hlast : s.promotions.getLast? = some c.promotion := by
      rcases hc.once with ⟨hzero,_⟩ | ⟨_,hlast⟩
      · omega
      · exact hlast
    refine ⟨chained_forward hchained hlast moved failure,?_⟩
    dsimp only
    split
    · exact settled_again _ (by rw [hone]; exact Nat.one_ne_zero) _
    · exact trivial
  all_goals exact ⟨hchained,hsettled⟩

theorem settled_fail {s : State} (hsettled : s.Settled s.call) (f : Failure) : s.Settled (s.fail f) := by
  unfold State.fail
  cases hcall : s.call <;> rw [hcall] at hsettled
  case settling goal => exact trivial
  case found goal head => exact trivial
  case deciding commit head => exact trivial
  case carrying c => exact trivial
  case looked c head => exact trivial
  all_goals exact hsettled

theorem Kept.chained_step {s : State} (h : s.Kept) (hchained : s.Chained) (hsettled : s.Settled s.call) {e : Act}
    (halone : ∀ to_, e ≠ .move to_) : (s.step e).Chained ∧ (s.step e).Settled (s.step e).call := by
  cases e with
  | move to_ => exact absurd rfl (halone to_)
  | settle =>
    dsimp only [State.step]
    split_ifs
    · exact ⟨hchained,trivial⟩
    · exact ⟨hchained,hsettled⟩
  | promote commit =>
    dsimp only [State.step]
    split_ifs
    · exact ⟨hchained,trivial⟩
    · exact ⟨hchained,trivial⟩
    · exact ⟨hchained,hsettled⟩
  | read => exact ⟨hchained,h.settled_read hchained hsettled⟩
  | decide results at_ ahead =>
    dsimp only [State.step]
    split
    · rename_i commit head hcall
      rw [hcall] at hsettled
      exact ⟨hchained,settled_decide hsettled results at_ ahead⟩
    · exact ⟨hchained,hsettled⟩
  | record durable failure => exact chained_recorded hchained hsettled durable failure
  | forward moved failure => exact h.chained_forwarded hchained hsettled moved failure
  | fail f => exact ⟨hchained,settled_fail hsettled f⟩
  | crash => exact ⟨hchained,trivial⟩

theorem Kept.moves_newest {s : State} (h : s.Kept) {e : Act} (hothers : ∀ to_, e ≠ .move to_)
    (hmoved : (s.step e).head ≠ s.head) : ∃ last, s.promotions.getLast? = some last
      ∧ s.head = last.previousHead ∧ (s.step e).head = last.commit := by
  have hsound := h.sound
  have hforward : ∀ (last : Promotion) (moved : Bool) (failure : Option Failure),
      (s.FastForward last.previousHead last.commit moved failure).1 ≠ s.head →
      s.head = last.previousHead ∧ (s.FastForward last.previousHead last.commit moved failure).1 = last.commit :=
    fun last moved failure hne => (s.FastForward_spec _ _ moved failure).1.resolve_left hne
  cases e with
  | move to_ => exact absurd rfl (hothers to_)
  | forward moved failure =>
    dsimp only [State.step] at hmoved ⊢
    unfold State.forward at hmoved ⊢
    cases hcall : s.call <;> rw [hcall] at hsound hmoved
    case completing goal from_ to_ =>
      obtain ⟨last,hlast,rfl,rfl⟩ := hsound
      exact ⟨last,hlast,hforward last moved failure hmoved⟩
    case pushing c from_ to_ =>
      obtain ⟨hc,hone,rfl,rfl,_⟩ := hsound
      refine ⟨c.promotion,?_,hforward c.promotion moved failure hmoved⟩
      rcases hc.once with ⟨hzero,_⟩ | ⟨_,hlast⟩
      · omega
      · exact hlast
    all_goals exact absurd rfl hmoved
  | record durable failure =>
    refine absurd ?_ hmoved
    dsimp only [State.step]
    unfold State.record
    cases s.call <;> cases failure <;> rfl
  | settle =>
    refine absurd ?_ hmoved
    dsimp only [State.step]
    split_ifs <;> rfl
  | promote commit =>
    refine absurd ?_ hmoved
    dsimp only [State.step]
    split_ifs <;> rfl
  | decide results at_ ahead =>
    refine absurd ?_ hmoved
    dsimp only [State.step]
    split <;> rfl
  | read => exact absurd rfl hmoved
  | fail f => exact absurd rfl hmoved
  | crash => exact absurd rfl hmoved

theorem Kept.count_eq_one {s : State} (h : s.Kept) {p : Promotion} (hp : p ∈ s.promotions) : s.promotions.count p = 1 :=
  List.count_eq_one_of_mem (h.times.imp fun hlt heq => absurd hlt (by rw [heq]; exact lt_irrefl _)) hp

theorem Kept.carry_few {s : State} (h : s.Kept) {c : Carry} (hc : s.call.carry = some c) :
    c.records ≤ 1 ∧ (s.others = c.since → c.moves ≤ 1) := by
  have hsound := h.sound
  cases hcall : s.call <;> rw [hcall] at hc hsound
  case carrying c' =>
    obtain rfl := Option.some.inj hc
    exact (Carried.few hsound).2
  case looked c' head =>
    obtain rfl := Option.some.inj hc
    exact (Carried.few hsound.1).2
  case recording c' =>
    obtain rfl := Option.some.inj hc
    exact (Carried.few hsound.1).2
  case pushing c' from_ to_ =>
    obtain rfl := Option.some.inj hc
    exact (Carried.few hsound.1).2
  case returned answer c' => exact (hsound.few c hc).2
  all_goals cases hc

def start (branch : String) (head : Commit) : State := { branch := branch, head := head }

theorem Kept.runs {s : State} (h : s.Kept) {acts : List Act} (htimely : ∀ e ∈ acts, e.Timely) :
    Kept (run State.step s acts) := by
  induction acts generalizing s with
  | nil => exact h
  | cons e acts ih =>
    exact ih (h.step (htimely e List.mem_cons_self)) fun e' he' => htimely e' (List.mem_cons_of_mem _ he')

theorem Kept.chained_run {s : State} (h : s.Kept) (hchained : s.Chained) (hsettled : s.Settled s.call) {acts : List Act}
    (htimely : ∀ e ∈ acts, e.Timely) (halone : ∀ e ∈ acts, ∀ to_, e ≠ .move to_) :
    (run State.step s acts).Chained ∧ (run State.step s acts).Settled (run State.step s acts).call := by
  induction acts generalizing s with
  | nil => exact ⟨hchained,hsettled⟩
  | cons e acts ih =>
    obtain ⟨hchained',hsettled'⟩ := h.chained_step hchained hsettled (halone e List.mem_cons_self)
    exact ih (h.step (htimely e List.mem_cons_self)) hchained' hsettled'
      (fun e' he' => htimely e' (List.mem_cons_of_mem _ he')) fun e' he' => halone e' (List.mem_cons_of_mem _ he')

/-- Over every run: a move the daemon makes is the newest promotion's; an approval that was returned is recorded
once, and is the head if nobody moved the branch after the last look; carrying out makes one record at most,
and one move at most if nobody moved the branch meanwhile; and while nobody else moves the branch, the record
is a chain with the branch at its end or one move behind, and at its end when a settled head was returned. -/
theorem promotion_crash_safe (branch : String) (head : Commit) (acts : List Act) (htimely : ∀ e ∈ acts, e.Timely) :
    let s := run State.step (start branch head) acts
    (∀ e, (∀ to_, e ≠ .move to_) → (s.step e).head ≠ s.head → ∃ last, s.promotions.getLast? = some last
      ∧ s.head = last.previousHead ∧ (s.step e).head = last.commit)
    ∧ (∀ p c, s.call = .returned (.decided (.approved p)) c → s.promotions.count p = 1
      ∧ ∃ c', c = some c' ∧ (s.others = c'.seen → s.head = p.commit))
    ∧ (∀ c, s.call.carry = some c → c.records ≤ 1 ∧ (s.others = c.since → c.moves ≤ 1))
    ∧ ((∀ e ∈ acts, ∀ to_, e ≠ .move to_) →
      s.promotions.IsChain (fun p q => q.previousHead = p.commit)
      ∧ (∀ last, s.promotions.getLast? = some last → s.head = last.commit ∨ s.head = last.previousHead)
      ∧ ∀ found c, s.call = .returned (.settled found) c → found = s.head
        ∧ ∀ last, s.promotions.getLast? = some last → s.head = last.commit) := by
  intro s
  have hstart : Kept (start branch head) := ⟨List.Pairwise.nil,trivial⟩
  have hkept : s.Kept := hstart.runs htimely
  refine ⟨fun e => hkept.moves_newest,?_,fun c => hkept.carry_few,fun halone => ?_⟩
  · intro p c hcall
    have hsound := hkept.sound
    rw [hcall] at hsound
    obtain ⟨hlast,c',hc',_,hhead⟩ := hsound.approved p rfl
    exact ⟨hkept.count_eq_one (List.mem_of_getLast? hlast),c',hc',hhead⟩
  · have hnone : (start branch head).Chained := ⟨rfl,List.isChain_nil,fun _ hlast => by cases hlast⟩
    obtain ⟨hchained,hsettled⟩ := hstart.chained_run hnone trivial htimely halone
    refine ⟨hchained.chain,hchained.head,fun found c hcall => ?_⟩
    change s.Settled s.call at hsettled
    rw [hcall] at hsettled
    exact hsettled

/-- A commit of one digit, and its measurement at a time, which ran its own check. -/
def commitOf (digit : Char) : Commit := String.ofList (List.replicate 40 digit)

def measurement (digit : Char) (recordedAt : Time) (samples : List ℚ) : Result where
  job := String.ofList [digit]
  key := "k"
  task := "sort"
  taskVersion := "1"
  commit := commitOf digit
  schemaVersion := SchemaVersion
  environment := ⟨.host,.cpu,"",∅⟩
  recordedAt := recordedAt
  outcome := .measure
    { metric := ⟨"throughput",.maximize,"op/s"⟩, samples := samples.map .finite, observations := []
      checkJob := String.ofList [digit], objectives := {} }

/-- A promotion of one commit over another, up to its record. -/
def promotes : List Act :=
  [.promote (commitOf 'b'),.read,.read,
   .decide [measurement 'a' 1 [100,101,102],measurement 'b' 2 [200,201,202]] 3 (.ok true),
   .read,.read,.record true none]

/-- The daemon crashes after the record, and the next look at the branch completes the promotion. -/
theorem promotion_crash_safe_completed :
    let acts := promotes ++ [.read,.crash,.settle,.read,.read,.forward true none]
    let s := run State.step (start "result" (commitOf 'a')) acts
    s.promotions.length = 1 ∧ s.call = .returned (.settled (commitOf 'b')) none
      ∧ ∀ last, s.promotions.getLast? = some last → s.head = last.commit := by
  intro acts s
  have hcall : s.call = .returned (.settled (commitOf 'b')) none := by decide +kernel
  obtain ⟨_,_,_,halone⟩ := promotion_crash_safe "result" (commitOf 'a') acts (by decide +kernel)
  have hothers : ∀ e ∈ acts, ∀ to_, e ≠ .move to_ := by simp [acts,promotes]
  obtain ⟨_,_,hsettled⟩ := halone hothers
  exact ⟨by decide +kernel,hcall,(hsettled _ _ hcall).2⟩

/-- Someone moves the branch back while the promotion is carried out, which then moves it twice. -/
theorem two_moves_for_one_promotion :
    let s := run State.step (start "result" (commitOf 'a'))
      (promotes ++ [.read,.read,.forward true none,.move (commitOf 'a'),.read,.read,.forward true none])
    s.call.carry.map (fun c => (c.records,c.moves)) = some (1,2) := by
  decide +kernel

/-- A promotion that nothing stops. -/
def round (commit : Commit) (results : List Result) (at_ : Time) : List Act :=
  [.promote commit,.read,.read,.decide results at_ (.ok true),.read,.read,.record true none,.read,.read,.forward true none,
   .read,.read]

/-- The clock shows the time of the first promotion again: the third is taken for it, and moves the branch without a
record. -/
theorem a_clock_set_back_hides_the_record :
    let s := run State.step (start "result" (commitOf 'a'))
      (round (commitOf 'b') [measurement 'a' 1 [100,101,102],measurement 'b' 2 [200,201,202]] 3 ++
       round (commitOf 'a') [measurement 'b' 2 [200,201,202],measurement 'a' 4 [300,301,302]] 5 ++
       round (commitOf 'b') [measurement 'a' 4 [300,301,302],measurement 'b' 6 [400,401,402]] 3)
    s.promotions.map (fun p => (p.commit,p.at_)) = [(commitOf 'b',3),(commitOf 'a',5)] ∧ s.head = commitOf 'b' ∧
      s.call.carry.map (fun c => (c.records,c.moves)) = some (0,1) := by
  decide +kernel

end State
end Vibesys.Promotion
