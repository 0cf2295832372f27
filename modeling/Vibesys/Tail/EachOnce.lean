import Vibesys.Tail.Steps

/-!
# A tail gives every committed record once

What holds of a follower is kept by whatever else happens to the file, to `run.head` and to the index, so it holds
in every run.
-/
namespace Vibesys.Tail

open Library
open Runlog (Bytes RUN_LOG_MAGIC)

variable {l : Log} {w : World} {f : Follower} {c : Call} {payload : Bytes}

/-! ## Followers that started with a committed sequence -/

/-- The places after the look at `run.head`. -/
def Place.reads : Place → Bool
  | .idle => false
  | .refresh _ => false
  | .waits _ => false
  | .corrupt _ => false
  | _ => true

namespace Follower

/-- The committed sequence that was read stays, and with one nothing is taken freely. -/
def Keeps (f g : Follower) : Prop := g.headed = f.headed ∧ g.bounded = f.bounded ∧ (f.bounded = true → g.free = f.free)

theorem Keeps.refl (f : Follower) : f.Keeps f := ⟨rfl,rfl,fun _ => rfl⟩

theorem Keeps.goTo (f : Follower) (place : Place) : f.Keeps (f.goTo place) := ⟨rfl,rfl,fun _ => rfl⟩

theorem Keeps.accept (f : Follower) (c : Call) (payload : Bytes) : f.Keeps (f.accept c payload) := by
  unfold Follower.accept
  split
  · exact ⟨rfl,rfl,fun _ => rfl⟩
  · split
    · exact ⟨rfl,rfl,fun _ => rfl⟩
    · exact ⟨rfl,rfl,fun _ => rfl⟩

theorem Keeps.eof (f : Follower) (c : Call) : f.Keeps (f.eof c) := by
  unfold Follower.eof
  split
  · exact ⟨rfl,rfl,fun _ => rfl⟩
  · exact .goTo f _

theorem Keeps.loop (file : Option ℕ) (f : Follower) (c : Call) : f.Keeps (f.loop file c) := by
  unfold Follower.loop
  split
  · exact .eof f c
  · split
    · exact .accept { f with pending := none } c _
    · unfold Follower.next
      split
      · exact .goTo f _
      · split
        · exact .eof f c
        · exact ⟨rfl,rfl,fun _ => rfl⟩

theorem Keeps.advance (w : Wire) (f : Follower) (c : Call) (r : Reader) (payload : Bytes) :
    f.Keeps (f.advance w c r payload) := by
  unfold Follower.advance
  split
  · exact .goTo f _
  · split
    · exact .goTo f _
    · split
      · exact .goTo f _
      · exact ⟨rfl,rfl,fun hb => if_pos hb⟩

theorem Keeps.step (l : Log) (file head : Option ℕ) (hplace : ∀ target, f.place ≠ .refresh target) :
    f.Keeps (f.step l file head) := by
  unfold Follower.step
  dsimp only
  split
  · next target heq => exact absurd heq (hplace target)
  · exact .loop file f _
  · split
    · exact .goTo f _
    · exact .goTo f _
    · exact ⟨rfl,rfl,fun _ => rfl⟩
  · split
    · exact .goTo f _
    · exact .goTo f _
    · exact .goTo f _
  · split
    · exact .goTo f _
    · exact .goTo f _
    · exact .advance l.wire f _ _ _
  · exact .goTo f _
  · exact .accept f _ _
  · split
    · exact .goTo f _
    · exact .eof f _
  · exact .refl f

/-- A follower that started with a committed sequence in `run.head` has taken nothing without one. -/
def Sure (head : Option ℕ) (f : Follower) : Prop :=
  f.headed = true → head.isSome ∧ f.free = 0 ∧ (f.place.reads = true → f.bounded = true)

theorem Sure.head {head head' : Option ℕ} (h : f.Sure head) (hhead : head.isSome → head'.isSome) : f.Sure head' :=
  fun hheaded => ⟨hhead (h hheaded).1,(h hheaded).2⟩

theorem Sure.step {head : Option ℕ} (h : f.Sure head) (l : Log) (file : Option ℕ) : (f.step l file head).Sure head := by
  by_cases hrefresh : ∃ target, f.place = .refresh target
  · obtain ⟨target,hplace⟩ := hrefresh
    unfold Follower.step
    rw [hplace]
    intro hheaded
    obtain ⟨hhead,hfree,-⟩ := h hheaded
    exact ⟨hhead,hfree,fun _ => hhead⟩
  · obtain ⟨hheaded,hbounded,hfree⟩ := Keeps.step l file head (not_exists.mp hrefresh)
    intro hh
    rw [hheaded] at hh
    obtain ⟨hhead,hzero,hreads⟩ := h hh
    by_cases hr : f.place.reads = true
    · have hb := hreads hr
      exact ⟨hhead,(hfree hb).trans hzero,fun _ => hbounded.trans hb⟩
    · have hstep : f.step l file head = f := by
        cases hplace : f.place with
        | refresh target => exact absurd ⟨target,hplace⟩ hrefresh
        | idle => simp only [Follower.step,hplace]
        | waits target => simp only [Follower.step,hplace]
        | corrupt why => simp only [Follower.step,hplace]
        | _ => simp [hplace,Place.reads] at hr
      rw [hstep]
      exact ⟨hhead,hzero,fun hr' => absurd hr' hr⟩

/-! ## The calls from outside -/

variable {size : ℕ} {head : Option ℕ}

theorem Ok.quiet (h : f.Ok l size head) {place : Place} (hheld : f.place.held = []) (hheld' : place.held = [])
    (hplace : place.Ok l (f.goTo place)) : (f.goTo place).Ok l size head := by
  refine ⟨h.base.at _ _,?_,hplace⟩
  have hc := h.contents
  rw [hheld] at hc
  change f.received ++ place.held ++ f.pending.toList = f.slice l
  rw [hheld']
  exact hc

theorem Ok.read (h : f.Ok l size head) (target : ℤ) : (f.read target).Ok l size head := by
  unfold Follower.read
  split
  · next hplace => exact h.quiet (by rw [hplace]; rfl) rfl trivial
  · exact h

theorem Ok.wake (h : f.Ok l size head) : f.wake.Ok l size head := by
  unfold Follower.wake
  split
  · next target hplace => exact h.quiet (by rw [hplace]; rfl) rfl trivial
  · exact h

theorem Ok.cancel (h : f.Ok l size head) : f.cancel.Ok l size head := by
  unfold Follower.cancel
  split
  · next target hplace => exact h.quiet (by rw [hplace]; rfl) rfl trivial
  · next target hplace => exact h.quiet (by rw [hplace]; rfl) rfl trivial
  · next c hplace =>
    have hc := h.contents
    rw [hplace] at hc
    split
    · next hne =>
      refine ⟨h.base.give hne hc,?_,trivial⟩
      rw [received_give]
      change f.received ++ c.batch ++ [] ++ f.pending.toList = f.slice l
      rw [List.append_nil]
      exact hc
    · next hnil =>
      have hnil' : c.batch = [] := not_not.mp hnil
      exact h.quiet (by rw [hplace]; exact hnil') rfl trivial
  · exact h

theorem Sure.outside (h : f.Sure head) {g : Follower} (hheaded : g.headed = f.headed) (hfree : g.free = f.free)
    (hplace : g.place.reads = false ∨ g = f) : g.Sure head := by
  intro hh
  rw [hheaded] at hh
  obtain ⟨hhead,hzero,hreads⟩ := h hh
  refine ⟨hhead,hfree.trans hzero,fun hr => ?_⟩
  rcases hplace with hp | rfl
  · rw [hp] at hr
    cases hr
  · exact hreads hr

theorem Sure.read (h : f.Sure head) (target : ℤ) : (f.read target).Sure head := by
  unfold Follower.read
  split
  · exact h.outside rfl rfl (Or.inl rfl)
  · exact h

theorem Sure.wake (h : f.Sure head) : f.wake.Sure head := by
  unfold Follower.wake
  split
  · exact h.outside rfl rfl (Or.inl rfl)
  · exact h

theorem Sure.cancel (h : f.Sure head) : f.cancel.Sure head := by
  unfold Follower.cancel
  split
  · exact h.outside rfl rfl (Or.inl rfl)
  · exact h.outside rfl rfl (Or.inl rfl)
  · split
    · exact h.outside rfl rfl (Or.inl rfl)
    · exact h.outside rfl rfl (Or.inl rfl)
  · exact h

end Follower

/-! ## Runs -/

namespace World

structure Ok (l : Log) (w : World) : Prop where
  size : w.file.getD 0 ≤ l.image.length
  index : w.index.Ok l (w.file.getD 0)
  head : ∀ c, w.head = some c → l.Holds (w.file.getD 0) c
  followers : ∀ f ∈ w.followers, f.Ok l (w.file.getD 0) w.head ∧ f.Sure w.head

theorem Ok.init : Ok l {} where
  size := Nat.zero_le _
  index := ⟨fun _ h => (by cases h),.nil⟩
  head := fun _ h => by cases h
  followers := fun _ h => by cases h

theorem Ok.file (h : w.Ok l) (c : ℕ) (hc : w.head = some c) : w.file.isSome ∨ c = 0 := by
  rcases h.head c hc with hzero | ⟨-,hsize⟩
  · exact Or.inr hzero
  · left
    cases hfile : w.file with
    | some n => rfl
    | none =>
      have hpos := Log.boundary_pos (l := l) (k := c)
      have hlen : RUN_LOG_MAGIC.length = 8 := rfl
      rw [hfile] at hsize
      simp only [Option.getD_none] at hsize
      omega

theorem forall_modify {P : Follower → Prop} {fs : List Follower} (h : ∀ f ∈ fs, P f) (i : ℕ) {g : Follower → Follower}
    (hg : ∀ f, P f → P (g f)) : ∀ f ∈ fs.modify i g, P f := by
  intro f hf
  obtain ⟨j,hj⟩ := List.mem_iff_getElem?.mp hf
  rw [List.getElem?_modify] at hj
  obtain ⟨f',hf',rfl⟩ := Option.map_eq_some_iff.mp hj
  have hP := h f' (List.mem_of_getElem? hf')
  split
  · exact hg f' hP
  · exact hP

theorem Ok.grow (h : w.Ok l) (n : ℕ) : (w.step l (.grow n)).Ok l := by
  have hsize := h.size
  have hle : w.file.getD 0 ≤ min (w.file.getD 0 + n) l.image.length := by omega
  refine ⟨Nat.min_le_right _ _,h.index.mono hle,fun c hc => (h.head c hc).mono hle,fun f hf => ?_⟩
  exact ⟨(h.followers f hf).1.mono hle fun c hc => ⟨c,hc,Nat.le_refl _⟩,(h.followers f hf).2⟩

theorem Ok.publish (h : w.Ok l) (seq : ℕ) : (w.step l (.publish seq)).Ok l := by
  unfold World.step
  dsimp only
  split
  · next hseq =>
    refine ⟨h.size,h.index,fun c hc => ?_,fun f hf => ?_⟩
    · cases hc
      exact hseq.2
    · exact ⟨(h.followers f hf).1.mono (Nat.le_refl _) fun c hc => ⟨seq,rfl,hseq.1 c hc⟩,
        (h.followers f hf).2.head fun _ => rfl⟩
  · exact h

theorem Ok.started {size : ℕ} {head : Option ℕ} {p : Position} {fromSeq : ℕ} (headed : Bool)
    (h : p = {} ∨ (p.Exact l size ∧ p.ThroughSeq < fromSeq)) :
    Follower.Ok l size head { fromSeq := fromSeq, start := p.ThroughSeq, position := p, headed := headed } := by
  refine ⟨⟨Nat.le_refl _,?_,?_,?_,fun _ hr => (by cases hr),fun _ hb => (by cases hb),fun hb => (by cases hb),
    fun hlt => absurd hlt (Nat.lt_irrefl _),fun _ hb => (by cases hb),Nat.zero_le _⟩,?_,trivial⟩
  · rcases h with rfl | ⟨-,hlt⟩
    · exact Or.inr rfl
    · exact Or.inl hlt
  · rcases h with rfl | ⟨hexact,-⟩
    · exact Or.inl rfl
    · exact hexact.2.2
  · rcases h with rfl | ⟨hexact,-⟩
    · rfl
    · rw [if_neg (Nat.pos_iff_ne_zero.mp hexact.1)]
      exact hexact.2.1
  · change [] = (l.payloads.take p.ThroughSeq).drop p.ThroughSeq
    rw [List.drop_of_length_le (List.length_take_le _ _)]

theorem Ok.follow (h : w.Ok l) (fromSeq size : ℕ) : (w.step l (.follow fromSeq size)).Ok l := by
  have hposition : (if w.file.isNone then {} else w.index.Before size fromSeq) = ({} : Position) ∨
      ((if w.file.isNone then {} else w.index.Before size fromSeq).Exact l (w.file.getD 0) ∧
        (if w.file.isNone then {} else w.index.Before size fromSeq).ThroughSeq < fromSeq) := by
    split
    · exact Or.inl rfl
    · exact h.index.Before size fromSeq
  refine ⟨h.size,?_,h.head,fun f hf => ?_⟩
  · dsimp only [World.step,World.follow]
    split
    · exact h.index
    · exact h.index.file size
  · rcases List.mem_append.mp hf with hold | hnew
    · exact h.followers f hold
    · rw [List.mem_singleton.mp hnew]
      exact ⟨Ok.started _ hposition,fun hheaded => ⟨hheaded,rfl,fun hr => by cases hr⟩⟩

theorem Ok.observe (h : w.Ok l) (i : ℕ) : ((w.followers[i]?.map w.observe).getD w.index).Ok l (w.file.getD 0) := by
  cases hget : w.followers[i]? with
  | none => exact h.index
  | some f =>
    have hok := (h.followers f (List.mem_of_getElem? hget)).1
    dsimp only [Option.map_some,Option.getD_some]
    unfold World.observe
    split
    · next c payload n hplace =>
      have hp := hok.place
      rw [hplace] at hp
      refine h.index.Observe ⟨Nat.pos_iff_ne_zero.mpr hp.2,?_,hok.base.holds⟩ n
      rw [hok.base.offset,if_neg hp.2]
    · exact h.index

theorem Ok.step (h : w.Ok l) (act : Act) : (w.step l act).Ok l := by
  cases act with
  | grow n => exact h.grow n
  | publish seq => exact h.publish seq
  | follow fromSeq size => exact h.follow fromSeq size
  | read i target =>
    exact ⟨h.size,h.index,h.head,forall_modify h.followers i fun f hf => ⟨hf.1.read target,hf.2.read target⟩⟩
  | step i =>
    exact ⟨h.size,h.observe i,h.head,forall_modify h.followers i fun f hf =>
      ⟨hf.1.step h.file h.head,hf.2.step l w.file⟩⟩
  | cancel i => exact ⟨h.size,h.index,h.head,forall_modify h.followers i fun f hf => ⟨hf.1.cancel,hf.2.cancel⟩⟩
  | wake i => exact ⟨h.size,h.index,h.head,forall_modify h.followers i fun f hf => ⟨hf.1.wake,hf.2.wake⟩⟩

end World

/-- What a follower has been given. -/
structure Follower.Right (l : Log) (f : Follower) : Prop where
  batches : ∀ b ∈ f.given, b.records ≠ []
  /-- The batches are the records after the start, in order and each once. -/
  each : f.received <+: l.payloads.drop f.start
  start : f.start < f.fromSeq ∨ f.start = 0
  /-- Nothing is above the committed sequence last read, but for what was taken while there was none. -/
  below : ∀ b ∈ f.given, ∀ c, b.limit = some c → ∀ payload ∈ b.records, ∀ seq,
    Sequence l.wire payload = .ok seq → seq ≤ c ∨ seq ≤ f.free
  headed : f.headed = true → f.free = 0
  sound : ∀ why, f.place ≠ .corrupt why
  /-- A call waits only when every record up to the committed sequence last read has been given. -/
  waits : ∀ target, f.place = .waits target →
    f.received = f.slice l ∧ (f.bounded = true → f.ceiling ≤ f.position.ThroughSeq)

theorem Follower.Ok.right {size : ℕ} {head : Option ℕ} (h : f.Ok l size head) (hsure : f.Sure head) : f.Right l where
  batches := h.base.nonempty
  each := by
    have hslice : f.slice l <+: l.payloads.drop f.start := (List.take_prefix _ _).drop _
    refine List.IsPrefix.trans ?_ hslice
    rw [← h.contents,List.append_assoc]
    exact List.prefix_append _ _
  start := h.base.seek
  below := h.base.below
  headed := fun hheaded => (hsure hheaded).2.1
  sound := by
    intro why hplace
    have hp := h.place
    rw [hplace] at hp
    exact hp
  waits := by
    intro target hplace
    have hp := h.place
    have hc := h.contents
    rw [hplace] at hp hc
    rw [hp.1] at hc
    exact ⟨by simpa [Place.held] using hc,hp.2⟩

/-- In every run, every follower is given the records after its start, and every position of the index is the
boundary after the frame of its sequence. -/
theorem a_tail_gives_each_record_once (l : Log) (acts : List Act) :
    (∀ f ∈ (run (World.step l) {} acts).followers, f.Right l) ∧
      (run (World.step l) {} acts).index.Ok l ((run (World.step l) {} acts).file.getD 0) := by
  have hok : (run (World.step l) {} acts).Ok l := run_invariant (fun _ act h => h.step act) .init acts
  exact ⟨fun f hf => (hok.followers f hf).1.right (hok.followers f hf).2,hok.index⟩

namespace Sample

def log : Log where
  wire := ⟨fun _ => [0,0,0,0],fun _ => rfl,fun _ _ _ => none⟩
  payloads := [[8,1],[8,2]]
  small := by decide
  dense := by
    intro k payload hk
    match k with
    | 0 => cases hk; rfl
    | 1 => cases hk; rfl
    | k + 2 => cases hk

/-- A follower that waits for records which come in pieces. -/
def waiting : List Act :=
  [.publish 0,.grow 13,.follow 1 0,.read 0 100,.step 0,.step 0,.grow 9,.publish 2,.wake 0] ++ List.replicate 13 (.step 0)

theorem a_tail_gives_each_record_once_waiting :
    (∀ f ∈ (run (World.step log) {} waiting).followers, f.Right log) ∧
      (run (World.step log) {} waiting).index.Ok log ((run (World.step log) {} waiting).file.getD 0) ∧
      (run (World.step log) {} waiting).followers.map (fun f => (f.headed,f.given)) = [(true,[⟨[[8,1],[8,2]],some 2⟩])] :=
  ⟨(a_tail_gives_each_record_once log waiting).1,(a_tail_gives_each_record_once log waiting).2,by decide +kernel⟩

/-- The second record is held over by a `Read` that found no `run.head`. -/
def acts : List Act :=
  [.grow 22,.follow 1 22,.read 0 14] ++ List.replicate 12 (.step 0) ++ [.publish 1,.read 0 14] ++ List.replicate 3 (.step 0)

/-- The record is given although the committed sequence that was read last is before it. -/
theorem held_over_past_the_head :
    ¬∀ (l : Log) (acts : List Act), ∀ f ∈ (run (World.step l) {} acts).followers, ∀ b ∈ f.given, ∀ c, b.limit = some c →
      ∀ payload ∈ b.records, ∀ seq, Sequence l.wire payload = .ok seq → seq ≤ c := by
  intro h
  have hgiven : (run (World.step log) {} acts).followers.map Follower.given = [[⟨[[8,1]],none⟩,⟨[[8,2]],some 1⟩]] := by
    decide +kernel
  have hmem : [⟨[[8,1]],none⟩,⟨[[8,2]],some 1⟩] ∈ (run (World.step log) {} acts).followers.map Follower.given := by
    rw [hgiven]
    exact List.mem_cons_self
  obtain ⟨f,hf,hbatches⟩ := List.mem_map.mp hmem
  have hle := h log acts f hf ⟨[[8,2]],some 1⟩ (by rw [hbatches]; simp) 1 rfl [8,2] List.mem_cons_self 2 rfl
  omega

end Sample

end Vibesys.Tail
