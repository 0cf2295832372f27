import Vibesys.Cost.Ledger
import Vibesys.Library.StableSort

/-!
# What a ledger was told

A ledger holds the last facts of each agent and the last of each finished turn, whatever views were taken in between,
and its index has the position of every turn. So the entries that a view reads are determined by those facts.
-/
namespace Vibesys.Cost

open Library
open Vibesys.Core (Time)
open Orchestrator (AgentID)

/-! ## The order of turns -/

theorem then_ne_gt {α : Type*} [LinearOrder α] {a b : α} {o : Ordering} :
    (compare a b).then o ≠ .gt ↔ a < b ∨ a = b ∧ o ≠ .gt := by
  rcases lt_trichotomy a b with h | h | h
  · rw [compare_lt_iff_lt.mpr h]
    simp [h]
  · rw [compare_eq_iff_eq.mpr h]
    simp [h]
  · rw [compare_gt_iff_gt.mpr h]
    simp [h.not_gt,h.ne']

def Entry.rank (e : Entry) : Time ×ₗ TurnKey := toLex (e.end_,e.key)

theorem entryOrder_ne_gt (a b : Entry) : entryOrder a b ≠ .gt ↔ a.rank ≤ b.rank := by
  have hkey : ∀ k k' : TurnKey, k ≤ k' ↔ (ofLex k).1 < (ofLex k').1 ∨ (ofLex k).1 = (ofLex k').1 ∧ (ofLex k).2 ≤ (ofLex k').2 :=
    fun k k' => Prod.Lex.le_iff
  unfold entryOrder Entry.rank
  rw [then_ne_gt,then_ne_gt,Prod.Lex.toLex_le_toLex,hkey,compare_le_iff_le]

/-! ## The facts -/

def Agent.info (a : Agent) : AgentInfo := ⟨a.role,⟨a.harness,a.model⟩⟩

def Call.entry : Call → Option Entry
  | .add t a => if t.status = .running then none else some ⟨toLex (t.agent,t.ordinal),t.endedAt,a.id,t.usage⟩
  | _ => none

def Call.told : Call → Option Agent
  | .agent a => some a
  | .add t a => if t.status = .running then none else some a
  | .view => none

def lastAgent (calls : List Call) (id : AgentID) : Option AgentInfo :=
  ((calls.filterMap Call.told).reverse.find? fun a => a.id = id).map Agent.info

def lastTurn (calls : List Call) (key : TurnKey) : Option Entry :=
  (calls.filterMap Call.entry).reverse.find? fun e => e.key = key

variable {calls : List Call} {c : Call} {l : Ledger}

theorem lastAgent_concat (id : AgentID) : lastAgent (calls ++ [c]) id =
    match c.told with
    | some a => if a.id = id then some a.info else lastAgent calls id
    | none => lastAgent calls id := by
  unfold lastAgent
  rw [List.filterMap_append,List.reverse_append]
  cases h : c.told with
  | none => simp [h]
  | some a =>
    by_cases hid : a.id = id
    · simp [h,hid]
    · simp [h,hid]

theorem lastTurn_concat (key : TurnKey) : lastTurn (calls ++ [c]) key =
    match c.entry with
    | some e => if e.key = key then some e else lastTurn calls key
    | none => lastTurn calls key := by
  unfold lastTurn
  rw [List.filterMap_append,List.reverse_append]
  cases h : c.entry with
  | none => simp [h]
  | some e =>
    by_cases hkey : e.key = key
    · simp [h,hkey]
    · simp [h,hkey]

/-! ## Positions -/

/-- The index has the position of every turn. -/
def Positions (index : Table TurnKey ℕ) (entries : List Entry) : Prop :=
  ∀ key i, index.find? key = some i ↔ ∃ e, entries[i]? = some e ∧ e.key = key

variable {index : Table TurnKey ℕ} {entries : List Entry}

theorem Positions.mem (h : Positions index entries) {e : Entry} (he : e ∈ entries) : ∃ i, index.find? e.key = some i := by
  obtain ⟨i,hi⟩ := List.mem_iff_getElem?.mp he
  exact ⟨i,(h e.key i).mpr ⟨e,hi,rfl⟩⟩

theorem Positions.eq_of_key (h : Positions index entries) {e e' : Entry} (he : e ∈ entries) (he' : e' ∈ entries) (hkey : e.key = e'.key) :
    e = e' := by
  obtain ⟨i,hi⟩ := List.mem_iff_getElem?.mp he
  obtain ⟨j,hj⟩ := List.mem_iff_getElem?.mp he'
  have hindex := (h e.key i).mpr ⟨e,hi,rfl⟩
  have hindex' := (h e'.key j).mpr ⟨e',hj,rfl⟩
  rw [hkey,hindex'] at hindex
  obtain rfl := Option.some.inj hindex
  exact Option.some.inj (hi.symm.trans hj)

theorem Positions.nodup (h : Positions index entries) : (entries.map Entry.key).Nodup := by
  rw [List.Nodup,List.pairwise_map,List.pairwise_iff_getElem]
  intro i j hi hj hij hkey
  have hindex := (h entries[i].key i).mpr ⟨_,List.getElem?_eq_getElem hi,rfl⟩
  have hindex' := (h entries[j].key j).mpr ⟨_,List.getElem?_eq_getElem hj,rfl⟩
  rw [hkey,hindex'] at hindex
  exact hij.ne' (Option.some.inj hindex)

theorem Positions.set {e : Entry} {i : ℕ} (h : Positions index entries) (hi : index.find? e.key = some i) :
    Positions index (entries.set i e) := by
  obtain ⟨old,hold,hkey⟩ := (h e.key i).mp hi
  intro key j
  rw [h key j,List.getElem?_set]
  have hlt : i < entries.length := (List.getElem?_eq_some_iff.mp hold).1
  by_cases hij : i = j
  · subst hij
    rw [if_pos rfl,if_pos hlt,hold]
    constructor
    · rintro ⟨e',he',rfl⟩
      obtain rfl := Option.some.inj he'
      exact ⟨e,rfl,hkey.symm⟩
    · rintro ⟨e',he',rfl⟩
      obtain rfl := Option.some.inj he'
      exact ⟨old,rfl,hkey⟩
  · rw [if_neg hij]

theorem Positions.concat {e : Entry} (h : Positions index entries) (hnone : index.find? e.key = none) :
    Positions (index.insert e.key entries.length) (entries ++ [e]) := by
  intro key j
  by_cases hkey : key = e.key
  · subst hkey
    rw [Table.find?_insert_self]
    constructor
    · rintro hj
      obtain rfl := Option.some.inj hj
      exact ⟨e,List.getElem?_concat_length,rfl⟩
    · rintro ⟨e',he',hkey⟩
      rcases lt_or_ge j entries.length with hj | hj
      · rw [List.getElem?_append_left hj] at he'
        have hfound := (h e.key j).mpr ⟨e',he',hkey⟩
        rw [hnone] at hfound
        cases hfound
      · have hlen := (List.getElem?_eq_some_iff.mp he').1
        rw [List.length_append,List.length_singleton] at hlen
        rw [show j = entries.length by omega]
  · rw [Table.find?_insert_ne _ _ hkey,h key j]
    refine exists_congr fun e' => and_congr_left fun hkey' => ?_
    rcases lt_or_ge j entries.length with hj | hj
    · rw [List.getElem?_append_left hj]
    · rw [List.getElem?_eq_none hj,List.getElem?_append_right hj]
      refine ⟨fun he' => (by cases he'),fun he' => ?_⟩
      have hmem := List.mem_of_getElem? he'
      rw [List.mem_singleton.mp hmem] at hkey'
      exact absurd hkey'.symm hkey

theorem find?_reindex (hnodup : (entries.map Entry.key).Nodup) (n : ℕ) (key : TurnKey) (i : ℕ) :
    ((entries.zipIdx n).foldl (fun index e => index.insert e.1.key e.2) index).find? key = some i ↔
      (∃ j e, entries[j]? = some e ∧ e.key = key ∧ i = n+j) ∨ key ∉ entries.map Entry.key ∧ index.find? key = some i := by
  induction entries generalizing n index with
  | nil => simp
  | cons e entries ih =>
    obtain ⟨hnot,hnodup⟩ := List.nodup_cons.mp hnodup
    rw [List.zipIdx_cons,List.foldl_cons,ih hnodup]
    constructor
    · rintro (⟨j,e',he',hkey,rfl⟩ | ⟨habsent,hfound⟩)
      · exact Or.inl ⟨j+1,e',he',hkey,by omega⟩
      · by_cases hkey : key = e.key
        · subst hkey
          rw [Table.find?_insert_self] at hfound
          exact Or.inl ⟨0,e,rfl,rfl,(Option.some.inj hfound).symm⟩
        · rw [Table.find?_insert_ne _ _ hkey] at hfound
          refine Or.inr ⟨fun hmem => ?_,hfound⟩
          rcases List.mem_cons.mp hmem with heq | hmem
          · exact hkey heq
          · exact habsent hmem
    · rintro (⟨j,e',he',hkey,rfl⟩ | ⟨habsent,hfound⟩)
      · cases j with
        | zero =>
          obtain rfl := Option.some.inj he'
          subst hkey
          exact Or.inr ⟨hnot,Table.find?_insert_self _ _ _⟩
        | succ j => exact Or.inl ⟨j,e',he',hkey,by omega⟩
      · rw [List.map_cons,List.mem_cons,not_or] at habsent
        refine Or.inr ⟨habsent.2,?_⟩
        rw [Table.find?_insert_ne _ _ habsent.1]
        exact hfound

theorem Positions.reindex {entries' : List Entry} (h : Positions index entries) (hperm : entries'.Perm entries) :
    Positions (Ledger.reindex index entries') entries' := by
  intro key i
  have hnodup : (entries'.map Entry.key).Nodup := (hperm.map Entry.key).nodup_iff.mpr h.nodup
  unfold Ledger.reindex
  rw [find?_reindex hnodup]
  constructor
  · rintro (⟨j,e,he,hkey,rfl⟩ | ⟨habsent,hfound⟩)
    · rw [Nat.zero_add]
      exact ⟨e,he,hkey⟩
    · obtain ⟨e,he,rfl⟩ := (h key i).mp hfound
      exact absurd (List.mem_map_of_mem (hperm.mem_iff.mpr (List.mem_of_getElem? he))) habsent
  · rintro ⟨e,he,hkey⟩
    exact Or.inl ⟨i,e,he,hkey,(Nat.zero_add i).symm⟩

/-! ## What a ledger holds -/

/-- The ledger holds what it was told. -/
structure Holds (calls : List Call) (l : Ledger) : Prop where
  agents : ∀ id, l.agents.find? id = lastAgent calls id
  entries : ∀ e, e ∈ l.entries ↔ lastTurn calls e.key = some e
  positions : Positions (l.index.getD ∅) l.entries
  sorted : l.sorted = true → l.entries.Pairwise fun a b => entryOrder a b ≠ .gt
  known : ∀ e ∈ l.entries, ∃ info, l.agents.find? e.agent = some info

theorem Holds.empty : Holds [] {} := by
  refine ⟨fun _ => rfl,fun e => ?_,fun key i => ?_,fun h => (by cases h),fun e he => absurd he List.not_mem_nil⟩
  · exact ⟨fun he => absurd he List.not_mem_nil,fun he => by cases he⟩
  · exact ⟨fun h => (by cases h),fun ⟨e,he,_⟩ => by cases he⟩

theorem Holds.sort (h : Holds calls l) : Holds calls l.sort := by
  unfold Ledger.sort
  split_ifs with hsorted
  · exact h
  · have hperm := List.perm_insertionSort (fun a b => entryOrder a b ≠ .gt) l.entries
    refine ⟨h.agents,fun e => ?_,?_,fun _ => ?_,fun e he => h.known e (hperm.mem_iff.mp he)⟩
    · rw [← h.entries e]
      exact hperm.mem_iff
    · cases hindex : l.index with
      | none =>
        have hpositions := h.positions
        rw [hindex] at hpositions
        intro key i
        constructor
        · intro hfound
          cases hfound
        · rintro ⟨e,he,rfl⟩
          obtain ⟨j,hj⟩ := hpositions.mem (hperm.mem_iff.mp (List.mem_of_getElem? he))
          cases hj
      | some index =>
        have hpositions := h.positions
        rw [hindex] at hpositions
        exact hpositions.reindex hperm
    · exact pairwise_insertionSort_of_key entryOrder_ne_gt l.entries

theorem sorted_sort : l.sort.sorted = true := by
  unfold Ledger.sort
  split_ifs with h
  · exact h
  · rfl

theorem find?_info {a : Agent} (hagents : ∀ id, l.agents.find? id = lastAgent calls id) (htold : c.told = some a) (id : AgentID) :
    (l.info a).agents.find? id = lastAgent (calls ++ [c]) id := by
  rw [lastAgent_concat,htold]
  show (l.agents.insert a.id a.info).find? id = if a.id = id then some a.info else lastAgent calls id
  by_cases hid : a.id = id
  · rw [if_pos hid,hid,Table.find?_insert_self]
  · rw [if_neg hid,Table.find?_insert_ne _ _ (Ne.symm hid),hagents]

theorem known_info {a : Agent} {id : AgentID} (h : ∃ info, l.agents.find? id = some info) :
    ∃ info, (l.info a).agents.find? id = some info := by
  obtain ⟨info,hinfo⟩ := h
  by_cases hid : id = a.id
  · exact ⟨a.info,by rw [hid]; exact Table.find?_insert_self _ _ _⟩
  · exact ⟨info,(Table.find?_insert_ne _ _ hid).trans hinfo⟩

theorem Holds.begun (h : Holds calls l) : Holds calls l.begun := by
  unfold Ledger.begun
  split_ifs with hnone
  · have hindex : l.index = none := Option.isNone_iff_eq_none.mp hnone
    have hpositions := h.positions
    rw [hindex] at hpositions
    have hempty : l.entries = [] := List.eq_nil_iff_forall_not_mem.mpr fun e he => by
      obtain ⟨i,hi⟩ := hpositions.mem he
      cases hi
    refine ⟨h.agents,h.entries,hpositions,fun _ => ?_,h.known⟩
    rw [hempty]
    exact List.Pairwise.nil
  · exact h

theorem pairwise_concat {e : Entry} (hsorted : entries.Pairwise fun a b => entryOrder a b ≠ .gt)
    (hlast : entries.getLast?.all (fun last => entryOrder last e ≠ .gt) = true) :
    (entries ++ [e]).Pairwise fun a b => entryOrder a b ≠ .gt := by
  refine List.pairwise_append.mpr ⟨hsorted,List.pairwise_singleton _ _,fun a ha b hb => ?_⟩
  rw [List.mem_singleton.mp hb,entryOrder_ne_gt]
  obtain ⟨last,hget⟩ : ∃ last, entries.getLast? = some last := by
    cases hget : entries.getLast? with
    | none => exact absurd ha (by rw [List.getLast?_eq_none_iff.mp hget]; exact List.not_mem_nil)
    | some last => exact ⟨last,rfl⟩
  rw [hget] at hlast
  have hle : last.rank ≤ e.rank := (entryOrder_ne_gt last e).mp (of_decide_eq_true hlast)
  obtain ⟨before,rfl⟩ := List.getLast?_eq_some_iff.mp hget
  rcases List.mem_append.mp ha with ha | ha
  · exact ((entryOrder_ne_gt a last).mp ((List.pairwise_append.mp hsorted).2.2 a ha last (List.mem_singleton_self last))).trans hle
  · rw [List.mem_singleton.mp ha]
    exact hle

theorem mem_put {e : Entry} (hentries : ∀ e, e ∈ l.entries ↔ lastTurn calls e.key = some e) (hpositions : Positions index l.entries)
    (hentry : c.entry = some e) (e' : Entry) :
    e' ∈ (l.put index e).entries ↔ lastTurn (calls ++ [c]) e'.key = some e' := by
  rw [lastTurn_concat,hentry]
  unfold Ledger.put
  dsimp only
  cases hfound : index.find? e.key with
  | none =>
    have habsent : lastTurn calls e.key ≠ some e' ∨ e'.key ≠ e.key := by
      by_contra hboth
      rw [not_or,not_not,not_not] at hboth
      have hmem : e' ∈ l.entries := (hentries e').mpr (by rw [hboth.2]; exact hboth.1)
      obtain ⟨i,hi⟩ := hpositions.mem hmem
      rw [hboth.2,hfound] at hi
      cases hi
    dsimp only
    rw [List.mem_append,List.mem_singleton]
    by_cases hkey : e.key = e'.key
    · rw [if_pos hkey,hentries]
      constructor
      · rintro (hlast | rfl)
        · rw [← hkey] at hlast
          rcases habsent with hne | hne
          · exact absurd hlast hne
          · exact absurd hkey.symm hne
        · rfl
      · intro heq
        exact Or.inr (Option.some.inj heq).symm
    · rw [if_neg hkey,hentries]
      constructor
      · rintro (hlast | rfl)
        · exact hlast
        · exact absurd rfl hkey
      · exact Or.inl
  | some i =>
    dsimp only
    obtain ⟨old,hold,hkeyOld⟩ := (hpositions e.key i).mp hfound
    have hset := hpositions.set hfound
    have hlt : i < l.entries.length := (List.getElem?_eq_some_iff.mp hold).1
    have hmem : e ∈ l.entries.set i e := List.mem_set hlt e
    by_cases hkey : e.key = e'.key
    · rw [if_pos hkey]
      constructor
      · intro he'
        rw [hset.eq_of_key hmem he' hkey]
      · intro heq
        rw [← Option.some.inj heq]
        exact hmem
    · rw [if_neg hkey,← hentries]
      constructor
      · intro he'
        rcases List.mem_or_eq_of_mem_set he' with he' | rfl
        · exact he'
        · exact absurd rfl hkey
      · intro he'
        obtain ⟨j,hj⟩ := List.mem_iff_getElem?.mp he'
        have hne : i ≠ j := by
          rintro rfl
          obtain rfl := Option.some.inj (hold.symm.trans hj)
          exact hkey hkeyOld.symm
        exact List.mem_iff_getElem?.mpr ⟨j,by rw [List.getElem?_set,if_neg hne]; exact hj⟩

theorem begun_info (a : Agent) : (l.info a).begun = l.begun.info a := by
  unfold Ledger.begun Ledger.info
  dsimp only
  split <;> rfl

theorem mem_or_eq_of_mem_put {e e' : Entry} (h : e' ∈ (l.put index e).entries) : e' ∈ l.entries ∨ e' = e := by
  unfold Ledger.put at h
  split at h
  · exact List.mem_or_eq_of_mem_set h
  · rcases List.mem_append.mp h with h | h
    · exact Or.inl h
    · exact Or.inr (List.mem_singleton.mp h)

theorem Holds.put {e : Entry} {a : Agent} (h : Holds calls l) (htold : c.told = some a) (hentry : c.entry = some e) (hagent : e.agent = a.id) :
    Holds (calls ++ [c]) ((l.info a).put (l.index.getD ∅) e) := by
  have hagents : ((l.info a).put (l.index.getD ∅) e).agents = (l.info a).agents := by
    unfold Ledger.put
    split <;> rfl
  refine ⟨fun id => ?_,mem_put h.entries h.positions hentry,?_,?_,fun e' he' => ?_⟩
  · rw [hagents]
    exact find?_info h.agents htold id
  · unfold Ledger.put
    cases hfound : (l.index.getD ∅).find? e.key with
    | none => exact h.positions.concat hfound
    | some i => exact h.positions.set hfound
  · unfold Ledger.put
    cases hfound : (l.index.getD ∅).find? e.key with
    | none =>
      intro hsorted
      obtain ⟨hbefore,hlast⟩ := Bool.and_eq_true_iff.mp hsorted
      exact pairwise_concat (h.sorted hbefore) hlast
    | some i =>
      intro hsorted
      cases hsorted
  · rw [hagents]
    rcases mem_or_eq_of_mem_put he' with he' | rfl
    · exact known_info (h.known e' he')
    · exact ⟨a.info,by rw [hagent]; exact Table.find?_insert_self _ _ _⟩

theorem Holds.step (h : Holds calls l) (c : Call) : Holds (calls ++ [c]) (step l c) := by
  cases c with
  | agent a =>
    refine ⟨fun id => find?_info h.agents rfl id,fun e => ?_,h.positions,h.sorted,fun e he => known_info (h.known e he)⟩
    rw [lastTurn_concat]
    exact h.entries e
  | add t a =>
    show Holds _ (l.add t a)
    unfold Ledger.add
    split_ifs with hrunning
    · have hentry : (Call.add t a).entry = none := if_pos hrunning
      have htold : (Call.add t a).told = none := if_pos hrunning
      refine ⟨fun id => ?_,fun e => ?_,h.positions,h.sorted,h.known⟩
      · rw [lastAgent_concat,htold]
        exact h.agents id
      · rw [lastTurn_concat,hentry]
        exact h.entries e
    · rw [begun_info]
      exact h.begun.put (if_neg hrunning) (if_neg hrunning) rfl
  | view =>
    have hsort := h.sort
    refine ⟨fun id => ?_,fun e => ?_,hsort.positions,hsort.sorted,hsort.known⟩
    · rw [lastAgent_concat]
      exact hsort.agents id
    · rw [lastTurn_concat]
      exact hsort.entries e

theorem holds_run (calls : List Call) : Holds calls (run step {} calls) := by
  induction calls using List.reverseRecOn with
  | nil => exact Holds.empty
  | append_singleton calls c ih =>
    rw [run_append]
    exact ih.step c

/-- The same facts of agents and turns. -/
structure SameFacts (calls calls' : List Call) : Prop where
  agents : ∀ id, lastAgent calls id = lastAgent calls' id
  turns : ∀ key, lastTurn calls key = lastTurn calls' key

theorem sort_eq_of_sameFacts {calls' : List Call} {l' : Ledger} (h : Holds calls l) (h' : Holds calls' l') (hsame : SameFacts calls calls') :
    l.sort.agents = l'.sort.agents ∧ l.sort.entries = l'.sort.entries := by
  have hsort := h.sort
  have hsort' := h'.sort
  constructor
  · refine Table.ext fun id => ?_
    rw [hsort.agents,hsort'.agents,hsame.agents]
  · have hmem : ∀ e, e ∈ l.sort.entries ↔ e ∈ l'.sort.entries := fun e => by rw [hsort.entries,hsort'.entries,hsame.turns]
    have hperm : l.sort.entries.Perm l'.sort.entries :=
      (List.perm_ext_iff_of_nodup hsort.positions.nodup.of_map hsort'.positions.nodup.of_map).mpr hmem
    refine eq_of_perm_of_key entryOrder_ne_gt hperm (fun a ha b hb hrank => ?_) (hsort.sorted sorted_sort) (hsort'.sorted sorted_sort)
    exact hsort.positions.eq_of_key ha hb (congrArg (fun r => (ofLex r).2) hrank)

end Vibesys.Cost
