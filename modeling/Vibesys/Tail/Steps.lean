import Mathlib.Data.List.TakeWhile
import Vibesys.Tail.Follower

/-!
# The steps of a follower

A follower's position is always the boundary after some record, what it was given and what it holds are the
records between its start and its position, and the positions of the index are boundaries that followers came by.
So every read finds the next record or too few bytes of it, and with a committed sequence ahead of the position it
finds the record.
-/
namespace Vibesys.Tail

open Library
open Runlog (Bytes RUN_LOG_MAGIC lengthBytes)

variable {l : Log} {size size' : ℕ} {head head' : Option ℕ} {f : Follower} {c : Call} {payload : Bytes}

theorem Log.Holds.mono {seq : ℕ} (h : l.Holds size seq) (hle : size ≤ size') : l.Holds size' seq :=
  h.imp_right fun ⟨hlength,hsize⟩ => ⟨hlength,hsize.trans hle⟩

theorem Log.Holds.next {k seq : ℕ} (h : l.Holds size seq) (hlt : k < seq) :
    ∃ payload, l.payloads[k]? = some payload ∧ l.boundary (k + 1) ≤ size := by
  rcases h with rfl | ⟨hle,hsize⟩
  · omega
  · exact ⟨_,List.getElem?_eq_getElem (by omega),(Log.boundary_mono hlt).trans hsize⟩

/-! ## The index -/

/-- The position is the boundary after the frame of its sequence. -/
def Position.Exact (l : Log) (size : ℕ) (p : Position) : Prop :=
  0 < p.ThroughSeq ∧ p.Offset = l.boundary p.ThroughSeq ∧ l.Holds size p.ThroughSeq

theorem Position.Exact.mono {p : Position} (h : p.Exact l size) (hle : size ≤ size') : p.Exact l size' :=
  ⟨h.1,h.2.1,h.2.2.mono hle⟩

/-- The points of an index are boundaries, in the order of their sequences, so that the binary search of the source
finds what `below` and `above` say. -/
structure Index.Ok (l : Log) (size : ℕ) (i : Index) : Prop where
  exact : ∀ p ∈ i.points, p.Exact l size
  sorted : i.points.Pairwise fun p q => p.ThroughSeq < q.ThroughSeq

namespace Index

variable {i : Index} {p : Position} {seq : ℕ}

theorem Ok.mono (h : i.Ok l size) (hle : size ≤ size') : i.Ok l size' := ⟨fun p hp => (h.exact p hp).mono hle,h.sorted⟩

theorem Ok.file (h : i.Ok l size) (n : ℕ) : (i.file n).Ok l size := by
  unfold Index.file
  split
  · exact ⟨fun p hp => (by cases hp),.nil⟩
  · exact ⟨h.exact,h.sorted⟩

theorem mem_below (h : p ∈ i.below seq) : p ∈ i.points ∧ p.ThroughSeq < seq :=
  ⟨(List.takeWhile_prefix _).subset h,by simpa using List.mem_takeWhile_imp h⟩

theorem Ok.mem_above (h : i.Ok l size) (hne : (i.above seq).head?.map Position.ThroughSeq ≠ some seq)
    (hp : p ∈ i.above seq) : seq < p.ThroughSeq := by
  cases habove : i.above seq with
  | nil =>
    rw [habove] at hp
    cases hp
  | cons q rest =>
    have hq : seq < q.ThroughSeq := by
      have hnot := List.head?_dropWhile_not (fun p : Position => decide (p.ThroughSeq < seq)) i.points
      rw [show i.points.dropWhile _ = q :: rest from habove] at hnot
      rw [habove] at hne
      simp only [List.head?_cons,Option.map_some,Option.some.injEq,ne_eq] at hnot hne
      have hnot' : ¬q.ThroughSeq < seq := by simpa using hnot
      omega
    rw [habove] at hp
    have hsorted : (q :: rest).Pairwise fun p q => p.ThroughSeq < q.ThroughSeq := by
      rw [← habove]
      exact h.sorted.sublist (List.dropWhile_suffix _).sublist
    rcases List.mem_cons.mp hp with rfl | hrest
    · exact hq
    · exact hq.trans (List.rel_of_pairwise_cons hsorted hrest)

theorem Ok.Observe (h : i.Ok l size) (hp : p.Exact l size) (n : ℕ) :
    (i.Observe n p).Ok l size := by
  have hf := h.file n
  unfold Index.Observe
  split
  · exact h
  · dsimp only
    split
    · exact hf
    · next hne =>
      constructor
      · intro q hq
        rcases List.mem_append.mp hq with hbelow | habove
        · exact hf.exact q (mem_below hbelow).1
        · rcases List.mem_cons.mp habove with rfl | hrest
          · exact hp
          · exact hf.exact q ((List.dropWhile_suffix _).subset hrest)
      · refine List.pairwise_append.mpr ⟨hf.sorted.sublist (List.takeWhile_prefix _).sublist,?_,?_⟩
        · refine List.pairwise_cons.mpr ⟨fun q hq => hf.mem_above hne hq,?_⟩
          exact hf.sorted.sublist (List.dropWhile_suffix _).sublist
        · intro a ha b hb
          have hlt := (mem_below ha).2
          rcases List.mem_cons.mp hb with rfl | hrest
          · exact hlt
          · exact hlt.trans (hf.mem_above hne hrest)

theorem Ok.Before (h : i.Ok l size) (n fromSeq : ℕ) :
    i.Before n fromSeq = {} ∨ ((i.Before n fromSeq).Exact l size ∧ (i.Before n fromSeq).ThroughSeq < fromSeq) := by
  unfold Index.Before
  cases hlast : ((i.file n).below fromSeq).getLast? with
  | none => exact Or.inl rfl
  | some p =>
    obtain ⟨hmem,hlt⟩ := mem_below (List.mem_of_getLast? hlast)
    exact Or.inr ⟨(h.file n).exact p hmem,hlt⟩

end Index

/-! ## What holds of a follower -/

namespace Follower

def slice (l : Log) (f : Follower) : List Bytes := (l.payloads.take f.position.ThroughSeq).drop f.start

def received (f : Follower) : List Bytes := f.given.flatMap Batch.records

structure Base (l : Log) (size : ℕ) (head : Option ℕ) (f : Follower) : Prop where
  start : f.start ≤ f.position.ThroughSeq
  seek : f.start < f.fromSeq ∨ f.start = 0
  holds : l.Holds size f.position.ThroughSeq
  offset : f.position.Offset = if f.position.ThroughSeq = 0 then 0 else l.boundary f.position.ThroughSeq
  reader : ∀ r, f.reader = some r → if r.magicRead then r.offset = l.boundary f.position.ThroughSeq ∧ r.offset ≤ size
    else r.offset = f.position.Offset
  nonempty : ∀ b ∈ f.given, b.records ≠ []
  limit : f.bounded = true → l.Holds size f.ceiling ∧ ∃ h, head = some h ∧ f.ceiling ≤ h
  within : f.start < f.position.ThroughSeq →
    f.position.ThroughSeq ≤ f.free ∨ (f.bounded = true ∧ f.position.ThroughSeq ≤ f.ceiling)
  below : ∀ b ∈ f.given, ∀ c, b.limit = some c → ∀ payload ∈ b.records, ∀ seq,
    Sequence l.wire payload = .ok seq → seq ≤ c ∨ seq ≤ f.free
  free : f.free ≤ f.position.ThroughSeq

/-- With a committed sequence it is ahead of the position. -/
def Reading (f : Follower) : Prop := f.bounded = true → f.position.ThroughSeq < f.ceiling

end Follower

def Place.held : Place → List Bytes
  | .loop c => c.batch
  | .magic c => c.batch
  | .length c => c.batch
  | .frame c _ _ => c.batch
  | .stat c payload => c.batch ++ [payload]
  | .observe c payload _ => c.batch ++ [payload]
  | .ended c => c.batch
  | _ => []

def Place.Ok (l : Log) (f : Follower) : Place → Prop
  | .idle => True
  | .refresh _ => True
  | .loop _ => True
  | .magic _ => f.pending = none ∧ f.Reading ∧ ∃ r, f.reader = some r ∧ r.magicRead = false
  | .length _ => f.pending = none ∧ f.Reading ∧ ∃ r, f.reader = some r ∧ r.magicRead = true
  | .frame _ n width => f.pending = none ∧ f.Reading ∧ (∃ r, f.reader = some r ∧ r.magicRead = true) ∧
      ∃ payload, l.payloads[f.position.ThroughSeq]? = some payload ∧ n = payload.length ∧
        width = (lengthBytes 10 payload.length).length
  | .stat _ _ => f.pending = none ∧ f.position.ThroughSeq ≠ 0
  | .observe _ _ _ => f.pending = none ∧ f.position.ThroughSeq ≠ 0
  | .ended _ => f.pending = none ∧ f.bounded = false ∧ f.reader.isSome
  | .waits _ => f.pending = none ∧ (f.bounded = true → f.ceiling ≤ f.position.ThroughSeq)
  | .corrupt _ => False

namespace Follower

structure Ok (l : Log) (size : ℕ) (head : Option ℕ) (f : Follower) : Prop where
  base : f.Base l size head
  contents : f.received ++ f.place.held ++ f.pending.toList = f.slice l
  place : f.place.Ok l f

theorem Base.mono (h : f.Base l size head) (hsize : size ≤ size')
    (hhead : ∀ c, head = some c → ∃ c', head' = some c' ∧ c ≤ c') : f.Base l size' head' where
  start := h.start
  seek := h.seek
  holds := h.holds.mono hsize
  offset := h.offset
  reader := by
    intro r hr
    have hreader := h.reader r hr
    split at hreader
    · next hmagic =>
      rw [if_pos hmagic]
      exact ⟨hreader.1,hreader.2.trans hsize⟩
    · next hmagic =>
      rw [if_neg hmagic]
      exact hreader
  nonempty := h.nonempty
  limit := by
    intro hb
    obtain ⟨hholds,c,hc,hle⟩ := h.limit hb
    obtain ⟨c',hc',hle'⟩ := hhead c hc
    exact ⟨hholds.mono hsize,c',hc',hle.trans hle'⟩
  within := h.within
  below := h.below
  free := h.free

theorem Ok.mono (h : f.Ok l size head) (hsize : size ≤ size')
    (hhead : ∀ c, head = some c → ∃ c', head' = some c' ∧ c ≤ c') : f.Ok l size' head' :=
  ⟨h.base.mono hsize hhead,h.contents,h.place⟩

theorem Base.at (h : f.Base l size head) (place : Place) (pending : Option Bytes) :
    Base l size head { f with place := place, pending := pending } :=
  ⟨h.start,h.seek,h.holds,h.offset,h.reader,h.nonempty,h.limit,h.within,h.below,h.free⟩

theorem sequence_le_of_mem {seq : ℕ} (hmem : payload ∈ f.slice l)
    (hseq : Sequence l.wire payload = .ok seq) : f.start < f.position.ThroughSeq ∧ seq ≤ f.position.ThroughSeq := by
  obtain ⟨j,hj⟩ := List.mem_iff_getElem?.mp hmem
  unfold slice at hj
  rw [List.getElem?_drop] at hj
  obtain ⟨hlt,hget⟩ := List.getElem?_eq_some_iff.mp hj
  rw [List.getElem_take] at hget
  rw [List.length_take] at hlt
  have hdense := l.dense (f.start + j) payload (List.getElem?_eq_some_iff.mpr ⟨by omega,hget⟩)
  rw [hdense] at hseq
  cases hseq
  omega

theorem Base.give (h : f.Base l size head) {batch rest : List Bytes} (hne : batch ≠ [])
    (hcontents : f.received ++ batch ++ rest = f.slice l) : (f.give batch).Base l size head := by
  refine ⟨h.start,h.seek,h.holds,h.offset,h.reader,?_,h.limit,h.within,?_,h.free⟩
  · intro b hb
    rcases List.mem_append.mp hb with hold | hnew
    · exact h.nonempty b hold
    · rw [List.mem_singleton.mp hnew]
      exact hne
  · intro b hb c hc payload hpayload seq hseq
    rcases List.mem_append.mp hb with hold | hnew
    · exact h.below b hold c hc payload hpayload seq hseq
    · rw [List.mem_singleton.mp hnew] at hc hpayload
      dsimp only at hc hpayload
      have hmem : payload ∈ f.slice l := by
        rw [← hcontents]
        exact List.mem_append_left _ (List.mem_append_right _ hpayload)
      obtain ⟨hstart,hle⟩ := sequence_le_of_mem hmem hseq
      change seq ≤ c ∨ seq ≤ f.free
      split at hc
      · next hb =>
        cases hc
        rcases h.within hstart with hfree | ⟨-,hceiling⟩
        · exact Or.inr (hle.trans hfree)
        · exact Or.inl (hle.trans hceiling)
      · cases hc

lemma received_give (f : Follower) (batch : List Bytes) : (f.give batch).received = f.received ++ batch := by
  unfold received give
  simp

theorem Ok.give (h : f.Base l size head) (hpending : f.pending = none) {batch : List Bytes} (hne : batch ≠ [])
    (hcontents : f.received ++ batch = f.slice l) : (f.give batch).Ok l size head := by
  refine ⟨h.give hne ((List.append_nil _).trans hcontents),?_,trivial⟩
  rw [received_give]
  change f.received ++ batch ++ [] ++ f.pending.toList = f.slice l
  rw [hpending,List.append_nil]
  simpa using hcontents

theorem Ok.accept (h : f.Base l size head) (hpending : f.pending = none)
    (hcontents : f.received ++ (c.batch ++ [payload]) = f.slice l) : (f.accept c payload).Ok l size head := by
  unfold Follower.accept
  split
  · next hfull =>
    have hsplit : f.received ++ c.batch ++ [payload] = f.slice l := by
      rw [List.append_assoc]
      exact hcontents
    refine ⟨(h.give hfull.1 hsplit).at _ _,?_,trivial⟩
    change (f.give c.batch).received ++ [] ++ [payload] = f.slice l
    rw [received_give,List.append_nil]
    exact hsplit
  · split
    · exact Ok.give h hpending (by simp) hcontents
    · refine ⟨h.at _ _,?_,trivial⟩
      change f.received ++ (c.batch ++ [payload]) ++ f.pending.toList = f.slice l
      rw [hpending]
      simpa using hcontents

theorem Ok.eof (h : f.Base l size head) (hpending : f.pending = none) (hcontents : f.received ++ c.batch = f.slice l)
    (hceiling : f.bounded = true → f.ceiling ≤ f.position.ThroughSeq) : (f.eof c).Ok l size head := by
  unfold Follower.eof
  split
  · next hne => exact Ok.give h hpending hne hcontents
  · next hnil =>
    have hnil' : c.batch = [] := not_not.mp hnil
    refine ⟨h.at _ _,?_,hpending,hceiling⟩
    change f.received ++ [] ++ f.pending.toList = f.slice l
    rw [hpending]
    rw [hnil'] at hcontents
    simpa using hcontents

theorem Ok.goTo (h : f.Base l size head) (hpending : f.pending = none) (hcontents : f.received ++ c.batch = f.slice l)
    {place : Place} (hheld : place.held = c.batch) (hplace : place.Ok l (f.goTo place)) :
    (f.goTo place).Ok l size head := by
  refine ⟨h.at _ _,?_,hplace⟩
  change f.received ++ place.held ++ f.pending.toList = f.slice l
  rw [hheld,hpending]
  simpa using hcontents

theorem Base.openAt (h : f.Base l size head) : Base l size head { f with reader := some ⟨f.position.Offset,false⟩ } := by
  refine ⟨h.start,h.seek,h.holds,h.offset,?_,h.nonempty,h.limit,h.within,h.below,h.free⟩
  intro r hr
  cases hr
  rfl

theorem Ok.next {file : Option ℕ} (h : f.Base l size head) (hpending : f.pending = none) (hreading : f.Reading)
    (hcontents : f.received ++ c.batch = f.slice l) (hhead : ∀ c, head = some c → file.isSome ∨ c = 0) :
    (f.next file c).Ok l size head := by
  unfold Follower.next
  cases hreader : f.reader with
  | some r =>
    dsimp only
    split
    · next hmagic => exact Ok.goTo h hpending hcontents rfl ⟨hpending,hreading,r,hreader,hmagic⟩
    · next hmagic => exact Ok.goTo h hpending hcontents rfl ⟨hpending,hreading,r,hreader,by simpa using hmagic⟩
  | none =>
    dsimp only
    split
    · next hnone =>
      refine Ok.eof h hpending hcontents fun hb => ?_
      obtain ⟨-,c',hc',hle⟩ := h.limit hb
      rcases hhead c' hc' with hsome | rfl
      · rw [Option.isNone_iff_eq_none] at hnone
        rw [hnone] at hsome
        cases hsome
      · omega
    · exact Ok.goTo h.openAt hpending hcontents rfl ⟨hpending,hreading,_,rfl,rfl⟩

theorem Ok.loop {file : Option ℕ} (h : f.Ok l size head) (hplace : f.place = .loop c)
    (hhead : ∀ c, head = some c → file.isSome ∨ c = 0) : (f.loop file c).Ok l size head := by
  have hcontents := h.contents
  rw [hplace] at hcontents
  change f.received ++ c.batch ++ f.pending.toList = f.slice l at hcontents
  unfold Follower.loop
  split
  · next hend =>
    rw [hend.2.2] at hcontents
    exact Ok.eof h.base hend.2.2 (by simpa using hcontents) fun _ => hend.2.1
  · next hgo =>
    cases hpending : f.pending with
    | some payload =>
      rw [hpending] at hcontents
      refine Ok.accept (h.base.at f.place none) rfl ?_
      rw [← List.append_assoc]
      exact hcontents
    | none =>
      rw [hpending] at hcontents
      refine Ok.next h.base hpending (fun hb => ?_) (by simpa using hcontents) hhead
      by_contra hge
      exact hgo ⟨hb,Nat.le_of_not_lt hge,hpending⟩

theorem Ok.batch (h : f.Ok l size head) (hheld : f.place.held = c.batch) (hpending : f.pending = none) :
    f.received ++ c.batch = f.slice l := by
  have hc := h.contents
  rw [hheld,hpending] at hc
  simpa using hc

theorem Base.boundary (h : f.Base l size head) {r : Reader} (hr : f.reader = some r) (hmagic : r.magicRead = true) :
    r.offset = l.boundary f.position.ThroughSeq ∧ r.offset ≤ size := by
  have hreader := h.reader r hr
  rwa [if_pos hmagic] at hreader

/-- Too few bytes are found only without a committed sequence ahead. -/
theorem Base.unbounded (h : f.Base l size head) (hreading : f.Reading)
    (hshort : ∀ payload, l.payloads[f.position.ThroughSeq]? = some payload → size < l.boundary (f.position.ThroughSeq + 1)) :
    f.bounded = false := by
  by_contra hb
  have hb' : f.bounded = true := by simpa using hb
  obtain ⟨payload,hget,hle⟩ := (h.limit hb').1.next (hreading hb')
  exact absurd (hshort payload hget) (Nat.not_lt.mpr hle)

theorem Ok.magic {file : Option ℕ} (h : f.Ok l (file.getD 0) head) (hplace : f.place = .magic c) :
    (f.step l file head).Ok l (file.getD 0) head := by
  obtain ⟨hpending,hreading,r,hr,hmagic⟩ : f.pending = none ∧ f.Reading ∧ ∃ r, f.reader = some r ∧ r.magicRead = false := by
    have hp := h.place
    rw [hplace] at hp
    exact hp
  have hcontents := h.batch (c := c) (by rw [hplace]; rfl) hpending
  have hoffset : r.offset = f.position.Offset := by
    have hreader := h.base.reader r hr
    rwa [if_neg (by simp [hmagic])] at hreader
  unfold Follower.step
  rw [hplace]
  dsimp only
  rw [Log.readMagic_eq,hr]
  by_cases hsize : file.getD 0 < RUN_LOG_MAGIC.length
  · rw [if_pos hsize]
    refine Ok.goTo h.base hpending hcontents rfl ⟨hpending,h.base.unbounded hreading fun payload _ => ?_,by simp [Follower.goTo,hr]⟩
    exact hsize.trans_le Log.boundary_pos
  · rw [if_neg hsize]
    dsimp only
    have hat : (if r.offset = 0 then RUN_LOG_MAGIC.length else r.offset) = l.boundary f.position.ThroughSeq ∧
        (if r.offset = 0 then RUN_LOG_MAGIC.length else r.offset) ≤ file.getD 0 := by
      rw [hoffset,h.base.offset]
      by_cases hzero : f.position.ThroughSeq = 0
      · rw [if_pos hzero,if_pos rfl,hzero]
        exact ⟨rfl,Nat.le_of_not_lt hsize⟩
      · have hpos : l.boundary f.position.ThroughSeq ≠ 0 := by
          have hge := Log.boundary_pos (l := l) (k := f.position.ThroughSeq)
          have hlen : RUN_LOG_MAGIC.length = 8 := rfl
          omega
        rw [if_neg hzero,if_neg hpos]
        exact ⟨rfl,(h.base.holds.resolve_left hzero).2⟩
    refine ⟨⟨h.base.start,h.base.seek,h.base.holds,h.base.offset,?_,h.base.nonempty,h.base.limit,h.base.within,
      h.base.below,h.base.free⟩,?_,hpending,hreading,_,rfl,rfl⟩
    · intro r' hr'
      cases hr'
      rw [if_pos rfl]
      exact hat
    · change f.received ++ c.batch ++ f.pending.toList = f.slice l
      rw [hpending]
      simpa using hcontents

theorem Ok.length {file : Option ℕ} (h : f.Ok l (file.getD 0) head) (hplace : f.place = .length c) :
    (f.step l file head).Ok l (file.getD 0) head := by
  obtain ⟨hpending,hreading,r,hr,hmagic⟩ : f.pending = none ∧ f.Reading ∧ ∃ r, f.reader = some r ∧ r.magicRead = true := by
    have hp := h.place
    rw [hplace] at hp
    exact hp
  have hcontents := h.batch (c := c) (by rw [hplace]; rfl) hpending
  have hoffset := (h.base.boundary hr hmagic).1
  unfold Follower.step
  rw [hplace,hr]
  dsimp only [Option.map_some,Option.getD_some]
  rw [hoffset]
  cases hget : l.payloads[f.position.ThroughSeq]? with
  | none =>
    rw [Log.readPrefix_end (List.getElem?_eq_none_iff.mp hget)]
    refine Ok.goTo h.base hpending hcontents rfl ⟨hpending,h.base.unbounded hreading fun payload hp => ?_,by simp [Follower.goTo,hr]⟩
    rw [hget] at hp
    cases hp
  | some payload =>
    rcases Log.readPrefix_eq hget (file.getD 0) with ⟨heof,hshort⟩ | hgot
    · rw [heof]
      exact Ok.goTo h.base hpending hcontents rfl ⟨hpending,h.base.unbounded hreading fun _ _ => hshort,by simp [Follower.goTo,hr]⟩
    · rw [hgot]
      exact Ok.goTo h.base hpending hcontents rfl ⟨hpending,hreading,⟨r,hr,hmagic⟩,payload,hget,rfl,rfl⟩

lemma slice_succ (hget : l.payloads[f.position.ThroughSeq]? = some payload) (hstart : f.start ≤ f.position.ThroughSeq)
    (offset : ℕ) : slice l { f with position := ⟨offset,f.position.ThroughSeq + 1⟩ } = f.slice l ++ [payload] := by
  unfold slice
  dsimp only
  have hlt := Log.lt_length hget
  rw [Log.take_succ hget,List.drop_append_of_le_length]
  rw [List.length_take]
  omega

theorem Ok.advance (h : f.Base l size head) (hpending : f.pending = none) (hreading : f.Reading)
    (hcontents : f.received ++ c.batch = f.slice l) (hget : l.payloads[f.position.ThroughSeq]? = some payload)
    (hsize : l.boundary (f.position.ThroughSeq + 1) ≤ size) :
    (f.advance l.wire c ⟨l.boundary (f.position.ThroughSeq + 1),true⟩ payload).Ok l size head := by
  have hlt := Log.lt_length hget
  unfold Follower.advance
  rw [l.dense _ payload hget]
  dsimp only
  rw [if_neg (by omega),if_neg (by rintro ⟨hb,hgt⟩; have := hreading hb; omega)]
  have hslice := slice_succ hget h.start (l.boundary (f.position.ThroughSeq + 1))
  refine ⟨⟨Nat.le_succ_of_le h.start,h.seek,Or.inr ⟨hlt,hsize⟩,(if_neg (Nat.succ_ne_zero _)).symm,?_,h.nonempty,h.limit,?_,?_,?_⟩,
    ?_,hpending,Nat.succ_ne_zero _⟩
  · intro r hr
    cases hr
    rw [if_pos rfl]
    exact ⟨rfl,hsize⟩
  · intro _
    dsimp only
    cases hb : f.bounded with
    | false => exact Or.inl (Nat.le_refl _)
    | true => exact Or.inr ⟨rfl,hreading hb⟩
  · intro b hb c' hc' p hp seq hseq
    refine (h.below b hb c' hc' p hp seq hseq).imp_right fun hle => ?_
    dsimp only
    split
    · exact hle
    · exact hle.trans (h.free.trans (Nat.le_succ _))
  · dsimp only
    split
    · exact h.free.trans (Nat.le_succ _)
    · exact Nat.le_refl _
  · change f.received ++ (c.batch ++ [payload]) ++ f.pending.toList =
      slice l { f with position := ⟨l.boundary (f.position.ThroughSeq + 1),f.position.ThroughSeq + 1⟩ }
    rw [hslice,← hcontents,hpending]
    simp

theorem Ok.frame {file : Option ℕ} (h : f.Ok l (file.getD 0) head) {n width : ℕ} (hplace : f.place = .frame c n width) :
    (f.step l file head).Ok l (file.getD 0) head := by
  obtain ⟨hpending,hreading,⟨r,hr,hmagic⟩,payload,hget,rfl,rfl⟩ : f.pending = none ∧ f.Reading ∧
      (∃ r, f.reader = some r ∧ r.magicRead = true) ∧ ∃ payload, l.payloads[f.position.ThroughSeq]? = some payload ∧
        n = payload.length ∧ width = (lengthBytes 10 payload.length).length := by
    have hp := h.place
    rw [hplace] at hp
    exact hp
  have hcontents := h.batch (c := c) (by rw [hplace]; rfl) hpending
  have hoffset := (h.base.boundary hr hmagic).1
  have hnext : l.boundary f.position.ThroughSeq + (lengthBytes 10 payload.length).length + (4 + payload.length) =
      l.boundary (f.position.ThroughSeq + 1) := by
    rw [Log.boundary_succ hget,Log.length_frame]
    omega
  unfold Follower.step
  rw [hplace,hr]
  dsimp only [Option.map_some,Option.getD_some]
  rw [hoffset,Log.readFrame_eq hget]
  by_cases hshort : file.getD 0 < l.boundary (f.position.ThroughSeq + 1)
  · rw [if_pos hshort]
    exact Ok.goTo h.base hpending hcontents rfl ⟨hpending,h.base.unbounded hreading fun _ _ => hshort,by simp [Follower.goTo,hr]⟩
  · rw [if_neg hshort,hnext]
    exact Ok.advance h.base hpending hreading hcontents hget (Nat.le_of_not_lt hshort)

theorem Ok.refresh {file : Option ℕ} (h : f.Ok l size head) {target : ℤ} (hplace : f.place = .refresh target)
    (hhead : ∀ c, head = some c → l.Holds size c) : (f.step l file head).Ok l size head := by
  have hcontents : f.received ++ [] ++ f.pending.toList = f.slice l := by
    have hc := h.contents
    rw [hplace] at hc
    exact hc
  unfold Follower.step
  rw [hplace]
  refine ⟨⟨h.base.start,h.base.seek,h.base.holds,h.base.offset,h.base.reader,h.base.nonempty,?_,?_,h.base.below,h.base.free⟩,
    hcontents,trivial⟩
  · intro hb
    dsimp only at hb ⊢
    obtain ⟨c',hc'⟩ := Option.isSome_iff_exists.mp hb
    rw [hc']
    exact ⟨hhead c' hc',c',rfl,Nat.le_refl _⟩
  · intro hstart
    refine (h.base.within hstart).imp_right ?_
    rintro ⟨hb,hle⟩
    obtain ⟨-,c',hc',hceiling⟩ := h.base.limit hb
    dsimp only
    rw [hc']
    exact ⟨rfl,hle.trans hceiling⟩

/-- Every step of a `Read` keeps what holds of a follower. -/
theorem Ok.step {file : Option ℕ} (h : f.Ok l (file.getD 0) head) (hfile : ∀ c, head = some c → file.isSome ∨ c = 0)
    (hhead : ∀ c, head = some c → l.Holds (file.getD 0) c) : (f.step l file head).Ok l (file.getD 0) head := by
  cases hplace : f.place with
  | refresh target => exact h.refresh hplace hhead
  | loop c =>
    unfold Follower.step
    rw [hplace]
    exact h.loop hplace hfile
  | magic c => exact h.magic hplace
  | length c => exact h.length hplace
  | frame c n width => exact h.frame hplace
  | stat c payload =>
    have hp := h.place
    have hc := h.contents
    rw [hplace] at hp hc
    unfold Follower.step
    rw [hplace]
    exact ⟨h.base.at _ _,hc,hp⟩
  | observe c payload n =>
    have hp := h.place
    have hc := h.contents
    rw [hplace] at hp hc
    rw [hp.1] at hc
    unfold Follower.step
    rw [hplace]
    exact Ok.accept h.base hp.1 (by simpa [Place.held] using hc)
  | ended c =>
    have hp := h.place
    rw [hplace] at hp
    obtain ⟨hpending,hb,hsome⟩ := hp
    obtain ⟨r,hr⟩ := Option.isSome_iff_exists.mp hsome
    have hle : r.offset ≤ file.getD 0 := by
      have hreader := h.base.reader r hr
      split at hreader
      · exact hreader.2
      · rw [hreader,h.base.offset]
        split
        · exact Nat.zero_le _
        · next hzero => exact (h.base.holds.resolve_left hzero).2
    unfold Follower.step
    rw [hplace,hr]
    dsimp only [Option.map_some,Option.getD_some]
    rw [if_neg (Nat.not_lt.mpr hle)]
    exact Ok.eof h.base hpending (h.batch (by rw [hplace]; rfl) hpending) fun hb' => by rw [hb] at hb'; cases hb'
  | _ =>
    have hstep : f.step l file head = f := by simp only [Follower.step,hplace]
    rw [hstep]
    exact h

end Follower

end Vibesys.Tail
