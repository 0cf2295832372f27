import Vibesys.Filestore.Sound

/-!
# Reading page by page

One read of a log gives the bytes from its offset on, as many as its limit allows and at least one unless it
is at the end. A client that goes on at the `next` of each piece therefore reads the whole log from where it
began, each byte once, and then gets an empty piece. The events of a run are read in the same way.
-/
namespace Vibesys.Filestore

open Vibesys.Core (JobID RunID Failure)
open Library (Table)
open Outbox (Outcome)

variable {β E : Type*}

/-! ## One read -/

namespace Store.Sound

variable {s : Store β E}

theorem log (hs : s.Sound) (hcur : s.Current) {id : JobID} {lo hi : ℕ} (hle : lo ≤ hi)
    (hhi : hi ≤ (s.content id).length) : s.Log id lo hi = .ok (((s.content id).drop lo).take (hi-lo)) := by
  have hgather := @gather_dropWhile _ _ lo hi 0 (s.chunks id)
    fun e he => hs.find?_chunkFiles he
  have hcut : cut lo hi 0 (s.chunks id).flatten = ((s.content id).drop lo).take (hi-lo) := by
    rw [cut,Nat.sub_zero,Nat.sub_zero,List.drop_take]
    rfl
  have hlength : (((s.content id).drop lo).take (hi-lo)).length = hi-lo := by
    rw [List.length_take,List.length_drop]
    omega
  rw [hcut] at hgather
  simp only [Store.Log,hcur.index,hgather,hlength]
  simp

theorem readLog (hs : s.Sound) (hcur : s.Current) {id : JobID} (hid : id ∈ s.jobFiles) {offset : ℕ}
    (hoffset : offset ≤ (s.content id).length) {limit : ℤ} (hlimit : 0 ≤ limit) :
    s.readLog id offset limit =
      .ok ⟨((s.content id).drop offset).take (pageSize ((s.content id).length-offset) limit),
        offset+pageSize ((s.content id).length-offset) limit⟩ := by
  have hjob : id ∈ s.jobs := hcur.jobs ▸ hid
  have hle := pageSize_le ((s.content id).length-offset) limit
  have hwindow : s.LogWindow id offset limit =
      .ok (offset,offset+pageSize ((s.content id).length-offset) limit) := by
    simp only [Store.LogWindow,hjob,hcur.logs,not_true_eq_false,if_false,if_neg (not_lt.mpr hlimit),
      if_neg (not_lt.mpr hoffset),pageSize]
    split_ifs
    · rfl
    · rw [Nat.add_sub_cancel' hoffset]
  rw [Store.readLog,hwindow]
  by_cases hzero : pageSize ((s.content id).length-offset) limit = 0
  · simp [hzero]
  · have hne : offset ≠ offset+pageSize ((s.content id).length-offset) limit := by omega
    have hlog := @log _ _ _ hs hcur id offset (offset+pageSize ((s.content id).length-offset) limit)
      (by omega) (by omega)
    simp only [hne,if_false,hlog,Nat.add_sub_cancel_left]

theorem ReadLog (hs : s.Sound) {id : JobID} (hid : id ∈ s.jobFiles) {offset : ℕ}
    (hoffset : offset ≤ (s.content id).length) {limit : ℤ} (hlimit : 0 ≤ limit) :
    ∃ s', s.ReadLog id offset limit true =
        (.ok ⟨((s.content id).drop offset).take (pageSize ((s.content id).length-offset) limit),
          offset+pageSize ((s.content id).length-offset) limit⟩,s') ∧
      s'.Sound ∧ s'.jobFiles = s.jobFiles ∧ s'.content id = s.content id := by
  obtain ⟨s',hrec⟩ := hs.exists_recover
  obtain ⟨hs',hcur,hjobs,hwritten,-⟩ := hs.recover hrec
  have hcontent : s'.content id = s.content id := by rw [Store.content,Store.chunks,hwritten]; rfl
  refine ⟨s',?_,hs',hjobs,hcontent⟩
  have hread := hs'.readLog hcur (hjobs ▸ hid) (hcontent ▸ hoffset) hlimit
  simp only [Store.ReadLog,hrec,hread,hcontent]

theorem readEvent (hs : s.Sound) {run : RunID} {i : ℕ} (hi : i < (s.history run).length) :
    s.readEvent run (i+1) = some ((s.history run).get ⟨i,hi⟩) := by
  have hget : (s.history run)[i]? = some ((s.history run).get ⟨i,hi⟩) := List.getElem?_eq_getElem hi
  obtain ⟨draft,-,hevent⟩ := Option.map_eq_some_iff.mp (getElem?_history s run i ▸ hget)
  simp only [Store.readEvent,hs.find?_records hget,← hevent]
  simp

theorem mapM_readEvent (hs : s.Sound) {run : RunID} {n : ℕ} {i : ℕ} (h : i+n ≤ (s.history run).length) :
    (List.range' (i+1) n).mapM (s.readEvent run) = some (((s.history run).drop i).take n) := by
  induction n generalizing i with
  | zero => simp
  | succ n ih =>
    have hi : i < (s.history run).length := by omega
    have hrest := ih (i := i+1) (by omega)
    rw [List.range'_succ,List.mapM_cons,hs.readEvent hi,hrest,List.drop_eq_getElem_cons hi]
    rfl

theorem readEvents (hs : s.Sound) (hcur : s.Current) (run : RunID) (after : ℕ) {limit : ℤ} (hlimit : 0 ≤ limit) :
    s.readEvents run after limit =
      .ok (((s.history run).drop after).take (pageSize ((s.history run).length-after) limit)) := by
  have hcount : s.eventCount run = (s.history run).length := by rw [hcur.events,length_history]
  by_cases hafter : after ≥ (s.history run).length
  · have hwindow : s.EventWindow run after limit = .ok (1,0) := by
      simp only [Store.EventWindow,hcount,if_neg (not_lt.mpr hlimit),if_pos hafter]
    rw [Store.readEvents,hwindow,List.drop_eq_nil_of_le hafter]
    simp
  · have hlt : after < (s.history run).length := Nat.lt_of_not_le hafter
    have hleft : (s.history run).length-(after+1)+1 = (s.history run).length-after := by omega
    have hwindow : s.EventWindow run after limit =
        .ok (after+1,after+pageSize ((s.history run).length-after) limit) := by
      simp only [Store.EventWindow,hcount,if_neg (not_lt.mpr hlimit),if_neg hafter,hleft,pageSize]
      split_ifs
      · rw [Nat.add_right_comm,Nat.add_sub_cancel]
      · rw [Nat.add_sub_cancel' hlt.le]
    have hpos := pageSize_pos (Nat.sub_pos_of_lt hlt) limit
    have hle := pageSize_le ((s.history run).length-after) limit
    have hsize : after+pageSize ((s.history run).length-after) limit+1-(after+1) =
        pageSize ((s.history run).length-after) limit := by omega
    have hread := @mapM_readEvent _ _ _ hs run (pageSize ((s.history run).length-after) limit) after
      (by omega)
    rw [Store.readEvents,hwindow]
    simp only [hsize,hread]
    rw [if_neg (by omega)]

theorem Events (hs : s.Sound) (run : RunID) (after : ℕ) {limit : ℤ} (hlimit : 0 ≤ limit) :
    ∃ s', s.Events run after limit true =
        (.ok (((s.history run).drop after).take (pageSize ((s.history run).length-after) limit)),s') ∧
      s'.Sound ∧ s'.history run = s.history run := by
  obtain ⟨s',hrec⟩ := hs.exists_recover
  obtain ⟨hs',hcur,-,-,hhappened⟩ := hs.recover hrec
  have hhistory : s'.history run = s.history run := by rw [Store.history,Store.drafts,hhappened]; rfl
  refine ⟨s',?_,hs',hhistory⟩
  have hread := hs'.readEvents hcur run after hlimit
  simp only [Store.Events,hrec,hread,hhistory]

end Store.Sound

/-! ## Page after page -/

def Consecutive (offset : ℕ) : List (LogChunk β) → Prop
  | [] => True
  | piece :: rest => piece.next = offset+piece.data.length ∧ Consecutive piece.next rest

/-- What pages read in turn from the start of `all` have to be, for so many limits: a part of it from its
beginning, and all of it with an empty page at the end where there are more limits than entries. -/
structure Paged {γ : Type*} (all : List γ) (pages : List (List γ)) (limits : ℕ) : Prop where
  start : pages.flatten <+: all
  whole : all.length < limits → pages.flatten = all ∧ pages.getLast? = some []
  full : ∀ page ∈ pages.dropLast, page ≠ []

lemma Paged.nil {γ : Type*} (all : List γ) : Paged all [] 0 :=
  ⟨List.nil_prefix,fun h => absurd h (Nat.not_lt_zero _),fun _ h => absurd h List.not_mem_nil⟩

lemma Paged.last {γ : Type*} (limits : ℕ) : Paged ([] : List γ) [[]] (limits+1) :=
  ⟨List.prefix_rfl,fun _ => ⟨rfl,rfl⟩,fun _ h => absurd h List.not_mem_nil⟩

lemma Paged.cons {γ : Type*} {all : List γ} {pages : List (List γ)} {limits n : ℕ}
    (h : Paged (all.drop n) pages limits) (hpos : 0 < n) (hle : n ≤ all.length) :
    Paged all (all.take n :: pages) (limits+1) := by
  have hpage : all.take n ≠ [] := by
    intro heq
    have := congrArg List.length heq
    rw [List.length_take,List.length_nil] at this
    omega
  refine ⟨?_,fun hlt => ?_,?_⟩
  · rw [List.flatten_cons]
    conv_rhs => rw [← List.take_append_drop n all]
    exact (List.prefix_append_right_inj _).mpr h.start
  · have hrest : (all.drop n).length < limits := by
      rw [List.length_drop]
      omega
    obtain ⟨hflat,hlast⟩ := h.whole hrest
    refine ⟨by rw [List.flatten_cons,hflat,List.take_append_drop],?_⟩
    rw [List.getLast?_cons,hlast]
    rfl
  · cases pages with
    | nil => exact fun _ hmem => absurd hmem List.not_mem_nil
    | cons next pages =>
      intro page hmem
      rw [List.dropLast_cons_cons] at hmem
      rcases List.mem_cons.mp hmem with rfl | hmem
      · exact hpage
      · exact h.full page hmem

theorem Store.Sound.readPages {s : Store β E} (hs : s.Sound) {id : JobID} (hid : id ∈ s.jobFiles) {offset : ℕ}
    (hoffset : offset ≤ (s.content id).length) {limits : List ℤ} (hlimits : ∀ limit ∈ limits, 0 ≤ limit) :
    ∃ pieces, s.readPages id offset limits = .ok pieces ∧ Consecutive offset pieces ∧
      (∀ piece ∈ pieces, piece.next ≤ (s.content id).length) ∧
      Paged ((s.content id).drop offset) (pieces.map LogChunk.data) limits.length := by
  induction limits generalizing s offset with
  | nil => exact ⟨[],rfl,trivial,fun _ h => absurd h List.not_mem_nil,Paged.nil _⟩
  | cons limit limits ih =>
    obtain ⟨s',hread,hs',hjobs,hcontent⟩ := hs.ReadLog hid hoffset (hlimits limit List.mem_cons_self)
    simp only [Store.readPages,hread]
    have hle := pageSize_le ((s.content id).length-offset) limit
    have hlength : (((s.content id).drop offset).take (pageSize ((s.content id).length-offset) limit)).length =
        pageSize ((s.content id).length-offset) limit := by
      rw [List.length_take,List.length_drop]
      omega
    by_cases hend : offset = (s.content id).length
    · have hempty : (s.content id).drop offset = [] := List.drop_eq_nil_of_le hend.ge
      refine ⟨[⟨[],offset+pageSize ((s.content id).length-offset) limit⟩],?_,⟨?_,trivial⟩,?_,?_⟩
      · simp [hempty]
      · simp [hend,pageSize]
      · intro piece hpiece
        rw [List.mem_singleton.mp hpiece]
        show offset+_ ≤ _
        omega
      · rw [hempty]
        exact Paged.last limits.length
    · have hpos := pageSize_pos (show 0 < (s.content id).length-offset by omega) limit
      obtain ⟨pieces,hpieces,hnext,hends,hpaged⟩ := ih hs' (hjobs ▸ hid)
        (show offset+pageSize ((s.content id).length-offset) limit ≤ _ by rw [hcontent]; omega)
        fun l hl => hlimits l (List.mem_cons_of_mem _ hl)
      have hdata : ((s.content id).drop offset).take (pageSize ((s.content id).length-offset) limit) ≠ [] := by
        intro heq
        rw [heq,List.length_nil] at hlength
        omega
      rw [if_neg hdata,hpieces]
      refine ⟨_,rfl,⟨by rw [hlength],hnext⟩,?_,?_⟩
      · intro piece hpiece
        rcases List.mem_cons.mp hpiece with rfl | hpiece
        · show offset+_ ≤ _
          omega
        · exact hcontent ▸ hends piece hpiece
      · rw [hcontent,← List.drop_drop] at hpaged
        exact hpaged.cons hpos (by rw [List.length_drop]; exact hle)

theorem Store.Sound.eventPages {s : Store β E} (hs : s.Sound) (run : RunID) (after : ℕ) {limits : List ℤ}
    (hlimits : ∀ limit ∈ limits, 0 ≤ limit) :
    ∃ pages, s.eventPages run after limits = .ok pages ∧ Paged ((s.history run).drop after) pages limits.length := by
  induction limits generalizing s after with
  | nil => exact ⟨[],rfl,Paged.nil _⟩
  | cons limit limits ih =>
    obtain ⟨s',hread,hs',hhistory⟩ := hs.Events run after (hlimits limit List.mem_cons_self)
    simp only [Store.eventPages,hread]
    by_cases hend : (s.history run).length ≤ after
    · have hempty : (s.history run).drop after = [] := List.drop_eq_nil_of_le hend
      refine ⟨[[]],by simp [hempty],?_⟩
      rw [hempty]
      exact Paged.last limits.length
    · have hpos := pageSize_pos (show 0 < (s.history run).length-after by omega) limit
      have hle := pageSize_le ((s.history run).length-after) limit
      obtain ⟨n,hn⟩ : ∃ n, pageSize ((s.history run).length-after) limit = n+1 :=
        ⟨pageSize ((s.history run).length-after) limit-1,by omega⟩
      have hlt : after+n < (s.history run).length := by omega
      -- the last event of the page has the sequence after which the next page begins
      have hlast : (((s.history run).drop after).take (n+1)).getLast? = some ((s.history run).get ⟨after+n,hlt⟩) := by
        rw [List.getLast?_take,if_neg (Nat.succ_ne_zero n),List.getElem?_drop,Nat.add_sub_cancel,
          List.getElem?_eq_getElem hlt]
        rfl
      have hseq : ((s.history run).get ⟨after+n,hlt⟩).sequence = after+(n+1) := by
        have hget : (s.history run)[after+n]? = some ((s.history run).get ⟨after+n,hlt⟩) := List.getElem?_eq_getElem hlt
        obtain ⟨draft,-,hevent⟩ := Option.map_eq_some_iff.mp (getElem?_history s run (after+n) ▸ hget)
        rw [← hevent]
        rfl
      obtain ⟨pages,hpages,hpaged⟩ := ih hs' (after+(n+1)) fun l hl => hlimits l (List.mem_cons_of_mem _ hl)
      rw [hn,hlast]
      simp only [hseq,hpages]
      refine ⟨_,rfl,?_⟩
      rw [hhistory,← List.drop_drop] at hpaged
      exact hpaged.cons (Nat.succ_pos n) (by rw [List.length_drop]; omega)

/-! ## What an append adds -/

/-- An append that is answered adds its bytes to the job's log, and to no other. -/
theorem Store.Sound.AppendLog {s : Store β E} (hs : s.Sound) {id : JobID} {data : List β} {readable : Bool} {outcome : Outcome}
    (h : (s.AppendLog id data readable outcome).1 = .ok ()) (id' : JobID) :
    (s.AppendLog id data readable outcome).2.content id' = if id' = id then s.content id ++ data else s.content id' := by
  unfold Store.AppendLog at h ⊢
  cases hrecover : s.recover readable with
  | error err =>
    rw [hrecover] at h
    cases h
  | ok r =>
    obtain ⟨-,-,-,hwritten,-⟩ := hs.recover hrecover
    have hchunks : ∀ id, r.chunks id = s.chunks id := fun id => by rw [Store.chunks,hwritten,Store.chunks]
    have hsame : ∀ id, r.content id = s.content id := fun id => by rw [Store.content,hchunks,Store.content]
    rw [hrecover] at h
    dsimp only at h ⊢
    unfold Store.appendLogAt at h ⊢
    by_cases hjob : id ∉ r.jobs
    · rw [if_pos hjob] at h
      cases h
    rw [if_neg hjob] at h ⊢
    by_cases hempty : data.length = 0
    · rw [if_pos hempty,List.length_eq_zero_iff.mp hempty,List.append_nil]
      show r.content id' = _
      split_ifs with hid
      · rw [hid]
        exact hsame id
      · exact hsame id'
    rw [if_neg hempty] at h ⊢
    cases outcome with
    | ok =>
      obtain ⟨t,ht,-⟩ := ensureLogDir (s := r) id
      show (((r.ensureLogDir id).publishChunk id (r.logLength id) data).chunks id').flatten = _
      rw [ht,chunks_publishChunk]
      split_ifs
      · rw [List.flatten_append,List.flatten_singleton]
        exact congrArg (· ++ data) (hsame id)
      · exact hsame id'
    | undone => cases h
    | lostReply => cases h

end Vibesys.Filestore
