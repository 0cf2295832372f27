import Vibesys.Library.Slots
import Vibesys.Store.Owner

/-!
# The fence of a file store

A history of one store's place: opens by any owners, with a lock that keeps nobody out, reclaims,
closes, and removals of the owner record by the user. Every open is kept, in the order of the opens,
so that a store that was taken over can still be asked whether it passes its check.
-/
namespace Vibesys.Store
open Vibesys.Core Vibesys.Library

structure Site (Bytes : Type) where
  owner : Option Bytes
  running : List JobID
  guards : List (Guard Bytes) := []
  /-- The open that wrote the record there is. -/
  writer : Option ℕ := none
  /-- Who opened the store before its record was last removed. -/
  before : List Owner := []

inductive Act
  | open_ (owner : Owner) (answers : OpenAnswers)
  | reclaim (store : ℕ) (job : JobID) (read : Option String) (publish : Publish)
  | close (store : ℕ)
  | remove
  | jobs (running : List JobID)
  deriving DecidableEq

variable {Bytes : Type}

namespace Site

def open_ (codec : Codec Bytes) (root : String) (s : Site Bytes) (owner : Owner) (answers : OpenAnswers) :
    Site Bytes × Option Refusal :=
  match claim codec root s.owner owner s.running answers with
  | .error e => (s,some e)
  | .ok r =>
    match write codec root r answers.publish with
    | .no e => (s,some e)
    | .unsure data e => ({ s with owner := some data, writer := none },some e)
    | .yes data =>
      ({ s with owner := some data, guards := s.guards ++ [{ rec_ := r, mine := data }], writer := some s.guards.length },none)

/-- Takes a job out of the given-up ones of an open store, writing the record again if it was one. -/
def reclaim [DecidableEq Bytes] (codec : Codec Bytes) (root : String) (s : Site Bytes) (store : ℕ) (job : JobID)
    (read : Option String) (publish : Publish) : Site Bytes × Option Refusal :=
  match s.guards[store]? with
  | none => (s,none)
  | some g =>
    if job ∉ g.rec_.givenUp then (s,none)
    else match g.check codec root s.owner read with
      | some e => (s,some e)
      | none =>
        match write codec root (g.rec_.without job) publish with
        | .no e => (s,some e)
        | .unsure data e => ({ s with owner := some data, writer := some store },some e)
        | .yes data =>
          ({ s with
              owner := some data, writer := some store
              guards := s.guards.set store { g with rec_ := g.rec_.without job, mine := data } },none)

def close (s : Site Bytes) (store : ℕ) : Site Bytes :=
  { s with guards := s.guards.modify store fun g => { g with closed := true } }

def remove (s : Site Bytes) : Site Bytes :=
  { s with owner := none, writer := none, before := s.before ++ s.guards.map fun g => g.rec_.owner }

def step [DecidableEq Bytes] (codec : Codec Bytes) (root : String) (s : Site Bytes) : Act → Site Bytes
  | .open_ owner answers => (s.open_ codec root owner answers).1
  | .reclaim store job read publish => (s.reclaim codec root store job read publish).1
  | .close store => s.close store
  | .remove => s.remove
  | .jobs running => { s with running := running }

def Passes [DecidableEq Bytes] (codec : Codec Bytes) (root : String) (s : Site Bytes) (store : ℕ) : Prop :=
  ∃ g, s.guards[store]? = some g ∧ g.check codec root s.owner none = none

/-- No owner opens the store again once the record was removed that it wrote. -/
def NewOwner (s : Site Bytes) : Act → Prop
  | .open_ owner _ => owner ∉ s.before
  | _ => True

instance (s : Site Bytes) (a : Act) : Decidable (s.NewOwner a) := by
  cases a
  case open_ owner _ => exact inferInstanceAs (Decidable (owner ∉ s.before))
  all_goals exact inferInstanceAs (Decidable True)

/-- Every open store has its record as it wrote it. -/
def Wrote (codec : Codec Bytes) (s : Site Bytes) : Prop :=
  ∀ (i : ℕ) (g : Guard Bytes), s.guards[i]? = some g → g.mine = codec.marshal g.rec_ ∧ g.rec_.generation ≠ 0

theorem open_cases (codec : Codec Bytes) (root : String) (s : Site Bytes) (owner : Owner) (answers : OpenAnswers) :
    (∃ e, s.open_ codec root owner answers = (s,some e))
      ∨ ∃ r, claim codec root s.owner owner s.running answers = .ok r ∧ r.generation ≠ 0
        ∧ ((∃ e, s.open_ codec root owner answers = ({ s with owner := some (codec.marshal r), writer := none },some e))
          ∨ s.open_ codec root owner answers = ({ s with
              owner := some (codec.marshal r), writer := some s.guards.length
              guards := s.guards ++ [{ rec_ := r, mine := codec.marshal r }] },none)) := by
  unfold Site.open_
  cases hr : claim codec root s.owner owner s.running answers with
  | error e => exact .inl ⟨e,rfl⟩
  | ok r =>
    rcases write_cases codec root r answers.publish with ⟨e,hwrite⟩ | ⟨hvalid,⟨e,hwrite⟩ | hwrite⟩
    · exact .inl ⟨e,by simp [hwrite]⟩
    · exact .inr ⟨r,rfl,hvalid,.inl ⟨e,by simp [hwrite]⟩⟩
    · exact .inr ⟨r,rfl,hvalid,.inr (by simp [hwrite])⟩

theorem reclaim_cases [DecidableEq Bytes] (codec : Codec Bytes) (root : String) (s : Site Bytes) (store : ℕ) (job : JobID)
    (read : Option String) (publish : Publish) :
    (s.reclaim codec root store job read publish).1 = s ∨ ∃ g, s.guards[store]? = some g ∧ s.owner = some g.mine
      ∧ ((s.reclaim codec root store job read publish).1
          = { s with owner := some (codec.marshal (g.rec_.without job)), writer := some store }
        ∨ (s.reclaim codec root store job read publish).1 = { s with
            owner := some (codec.marshal (g.rec_.without job)), writer := some store
            guards := s.guards.set store
              { g with rec_ := g.rec_.without job, mine := codec.marshal (g.rec_.without job) } }) := by
  unfold Site.reclaim
  cases hg : s.guards[store]? with
  | none => exact .inl rfl
  | some g =>
    by_cases hjob : job ∈ g.rec_.givenUp
    · cases hcheck : g.check codec root s.owner read with
      | some e => exact .inl (by simp [hjob,hcheck])
      | none =>
        obtain ⟨_,_,howner⟩ := Guard.check_eq_none.mp hcheck
        rcases write_cases codec root (g.rec_.without job) publish with ⟨e,hwrite⟩ | ⟨_,⟨e,hwrite⟩ | hwrite⟩
        · exact .inl (by simp [hjob,hcheck,hwrite])
        · exact .inr ⟨g,rfl,howner,.inl (by simp [hjob,hcheck,hwrite])⟩
        · exact .inr ⟨g,rfl,howner,.inr (by simp [hjob,hcheck,hwrite])⟩
    · exact .inl (by simp [hjob])

theorem Wrote.reclaim [DecidableEq Bytes] {codec : Codec Bytes} {s : Site Bytes} (h : s.Wrote codec) (root : String)
    (store : ℕ) (job : JobID) (read : Option String) (publish : Publish) :
    (s.reclaim codec root store job read publish).1.Wrote codec := by
  rcases reclaim_cases codec root s store job read publish with heq | ⟨g,hg,_,heq | heq⟩ <;> rw [heq]
  · exact h
  · exact h
  · intro i g' hg'
    rcases getElem?_set_cases hg' with ⟨rfl,rfl⟩ | hg'
    · exact ⟨rfl,(h i g hg).2⟩
    · exact h i g' hg'

theorem getElem?_close {s : Site Bytes} {store i : ℕ} {g : Guard Bytes} (hg : (s.close store).guards[i]? = some g) :
    ∃ g₀, s.guards[i]? = some g₀ ∧ g₀.rec_ = g.rec_ ∧ g₀.mine = g.mine := by
  rw [Site.close,List.getElem?_modify] at hg
  obtain ⟨g₀,hg₀,rfl⟩ := Option.map_eq_some_iff.mp hg
  exact ⟨g₀,hg₀,by split_ifs <;> rfl,by split_ifs <;> rfl⟩

theorem Wrote.close {codec : Codec Bytes} {s : Site Bytes} (h : s.Wrote codec) (store : ℕ) :
    (s.close store).Wrote codec := by
  intro i g hg
  obtain ⟨g₀,hg₀,hrec,hmine⟩ := getElem?_close hg
  rw [← hrec,← hmine]
  exact h i g₀ hg₀

/-- What the fence rests on. -/
structure Fenced (codec : Codec Bytes) (s : Site Bytes) : Prop where
  wrote : s.Wrote codec
  distinct : ∀ (i j : ℕ) (g g' : Guard Bytes), s.guards[i]? = some g → s.guards[j]? = some g' →
    g.rec_.key = g'.rec_.key → i = j
  /-- The record is at least as new as the opens since it was last removed. -/
  newer : ∀ (i : ℕ) (g : Guard Bytes), s.guards[i]? = some g → g.rec_.owner ∈ s.before
    ∨ ∃ data last, s.owner = some data ∧ codec.decode data = .ok last ∧ g.rec_.generation ≤ last.generation
  owned : ∀ (i : ℕ) (g : Guard Bytes), s.guards[i]? = some g → s.owner = some g.mine → s.writer = some i
  newest : ∀ i, s.writer = some i → i+1 = s.guards.length

theorem Fenced.start (codec : Codec Bytes) (owner : Option Bytes) (running : List JobID) :
    Fenced codec { owner := owner, running := running } := by
  constructor <;> simp [Wrote]

theorem generation_lt {a b : UInt64} (h : a ≤ b) (hb : b+1 ≠ 0) : a < b+1 := by
  have hmax : b.toNat+1 ≠ 2^64 := by
    intro hmax
    refine hb (UInt64.toNat.inj ?_)
    simp [UInt64.toNat_add,hmax]
  have hsum : (b+1).toNat = b.toNat+1 := by
    have := b.toNat_lt
    simp only [UInt64.toNat_add,UInt64.reduceToNat]
    omega
  rw [UInt64.lt_iff_toNat_lt,hsum]
  rw [UInt64.le_iff_toNat_le] at h
  omega

/-- A record that is newer than every open since the last removal, by an owner that opened nothing
before it. -/
structure Next (s : Site Bytes) (r : OwnerRec) : Prop where
  valid : r.generation ≠ 0
  new : r.owner ∉ s.before
  behind : ∀ (i : ℕ) (g : Guard Bytes), s.guards[i]? = some g →
    g.rec_.owner ∈ s.before ∨ g.rec_.generation < r.generation

theorem Fenced.next {codec : Codec Bytes} {root : String} {s : Site Bytes} (h : Fenced codec s) {owner : Owner}
    {answers : OpenAnswers} {r : OwnerRec} (hr : claim codec root s.owner owner s.running answers = .ok r)
    (hnew : owner ∉ s.before) (hvalid : r.generation ≠ 0) : s.Next r := by
  obtain ⟨last,hread,htake⟩ := claim_ok hr
  obtain ⟨running,rfl⟩ : ∃ running, r = nextRecord last owner running := by
    rcases takeRecord_ok htake with ⟨_,hr,_⟩ | ⟨_,hr⟩
    exacts [⟨_,hr⟩,⟨_,hr⟩]
  refine ⟨hvalid,by simpa using hnew,fun i g hg => ?_⟩
  rcases h.newer i g hg with hbefore | ⟨data,l,hdata,hdecode,hle⟩
  · exact .inl hbefore
  · rw [hdata,readOwner_some hdecode] at hread
    obtain rfl := Except.ok.inj hread
    exact .inr (generation_lt hle hvalid)

theorem Next.key_ne {s : Site Bytes} {r : OwnerRec} (h : s.Next r) {i : ℕ} {g : Guard Bytes}
    (hg : s.guards[i]? = some g) : g.rec_.key ≠ r.key := by
  intro hkey
  obtain ⟨hgeneration,howner⟩ := OwnerRec.key_eq.mp hkey
  rcases h.behind i g hg with hbefore | hlt
  · exact h.new (howner ▸ hbefore)
  · exact UInt64.ne_of_lt hlt hgeneration

theorem Fenced.mine_ne {codec : Codec Bytes} {s : Site Bytes} (h : Fenced codec s) {r : OwnerRec} (hr : r.generation ≠ 0)
    {i : ℕ} {g : Guard Bytes} (hg : s.guards[i]? = some g) (hne : g.rec_ ≠ r) : codec.marshal r ≠ g.mine := by
  rw [(h.wrote i g hg).1]
  exact fun heq => hne (codec.marshal_inj hr (h.wrote i g hg).2 heq).symm

theorem Fenced.unsure {codec : Codec Bytes} {s : Site Bytes} (h : Fenced codec s) {r : OwnerRec} (hr : s.Next r) :
    Fenced codec { s with owner := some (codec.marshal r), writer := none } where
  wrote := h.wrote
  distinct := h.distinct
  newer i g hg := (hr.behind i g hg).imp_right fun hlt =>
    ⟨_,r,rfl,codec.decode_marshal r hr.valid,UInt64.le_of_lt hlt⟩
  owned i g hg howner := by
    have hne : g.rec_ ≠ r := fun heq => hr.key_ne hg (by rw [heq])
    exact absurd (Option.some.inj howner) (h.mine_ne hr.valid hg hne)
  newest := nofun

theorem Fenced.opened {codec : Codec Bytes} {s : Site Bytes} (h : Fenced codec s) {r : OwnerRec} (hr : s.Next r) :
    Fenced codec { s with
      owner := some (codec.marshal r), writer := some s.guards.length
      guards := s.guards ++ [{ rec_ := r, mine := codec.marshal r }] } where
  wrote i g hg := by
    rcases getElem?_append_singleton hg with hg | ⟨_,rfl⟩
    · exact h.wrote i g hg
    · exact ⟨rfl,hr.valid⟩
  distinct i j g g' hg hg' hkey := by
    rcases getElem?_append_singleton hg with hg | ⟨rfl,rfl⟩ <;>
      rcases getElem?_append_singleton hg' with hg' | ⟨rfl,rfl⟩
    · exact h.distinct i j g g' hg hg' hkey
    · exact absurd hkey (hr.key_ne hg)
    · exact absurd hkey.symm (hr.key_ne hg')
    · rfl
  newer i g hg := by
    rcases getElem?_append_singleton hg with hg | ⟨_,rfl⟩
    · exact (h.unsure hr).newer i g hg
    · exact .inr ⟨_,r,rfl,codec.decode_marshal r hr.valid,UInt64.le_refl _⟩
  owned i g hg howner := by
    rcases getElem?_append_singleton hg with hg | ⟨rfl,rfl⟩
    · cases (h.unsure hr).owned i g hg howner
    · rfl
  newest i hi := by simpa using (Option.some.inj hi).symm

theorem Fenced.open_ {codec : Codec Bytes} {root : String} {s : Site Bytes} (h : Fenced codec s) {owner : Owner}
    (hnew : owner ∉ s.before) (answers : OpenAnswers) : Fenced codec (s.open_ codec root owner answers).1 := by
  rcases open_cases codec root s owner answers with ⟨_,heq⟩ | ⟨r,hr,hvalid,⟨_,heq⟩ | heq⟩ <;> rw [heq]
  · exact h
  · exact h.unsure (h.next hr hnew hvalid)
  · exact h.opened (h.next hr hnew hvalid)

/-- The store that passes its check is the one that wrote the record, and the newest open. -/
theorem Fenced.passes [DecidableEq Bytes] {codec : Codec Bytes} {root : String} {s : Site Bytes} (h : Fenced codec s)
    {i : ℕ} {g : Guard Bytes} (hg : s.guards[i]? = some g) {read : Option String}
    (hcheck : g.check codec root s.owner read = none) : s.writer = some i ∧ i+1 = s.guards.length := by
  obtain ⟨_,_,howner⟩ := Guard.check_eq_none.mp hcheck
  have hwriter := h.owned i g hg howner
  exact ⟨hwriter,h.newest i hwriter⟩

theorem Fenced.rewritten {codec : Codec Bytes} {s : Site Bytes} (h : Fenced codec s) {store : ℕ} {g : Guard Bytes}
    (hg : s.guards[store]? = some g) (howner : s.owner = some g.mine) {r : OwnerRec} (hkey : r.key = g.rec_.key) :
    Fenced codec { s with owner := some (codec.marshal r), writer := some store } where
  wrote := h.wrote
  distinct := h.distinct
  newer i g' hg' := by
    have hgeneration : r.generation = g.rec_.generation := (OwnerRec.key_eq.mp hkey).1
    obtain ⟨hmine,hvalid⟩ := h.wrote store g hg
    refine (h.newer i g' hg').imp_right fun ⟨data,last,hdata,hdecode,hle⟩ => ?_
    obtain rfl : data = codec.marshal g.rec_ := by
      rw [← hmine]
      exact Option.some.inj (hdata.symm.trans howner)
    rw [codec.decode_marshal _ hvalid] at hdecode
    obtain rfl := Except.ok.inj hdecode
    exact ⟨_,r,rfl,codec.decode_marshal r (hgeneration ▸ hvalid),hgeneration ▸ hle⟩
  owned i g' hg' hmine := by
    have hgeneration : r.generation = g.rec_.generation := (OwnerRec.key_eq.mp hkey).1
    have hsame : g'.rec_ = r := by
      by_contra hne
      exact h.mine_ne (hgeneration ▸ (h.wrote store g hg).2) hg' hne (Option.some.inj hmine)
    rw [h.distinct i store g' g hg' hg (by rw [hsame,hkey])]
  newest i hi := by
    obtain rfl := Option.some.inj hi
    exact h.newest store (h.owned store g hg howner)

theorem Fenced.reclaimed {codec : Codec Bytes} {s : Site Bytes} (h : Fenced codec s) {store : ℕ} {g : Guard Bytes}
    (hg : s.guards[store]? = some g) (howner : s.owner = some g.mine) {r : OwnerRec} (hkey : r.key = g.rec_.key) :
    Fenced codec { s with
      owner := some (codec.marshal r), writer := some store
      guards := s.guards.set store { g with rec_ := r, mine := codec.marshal r } } := by
  have hagain := h.rewritten hg howner hkey
  have hvalid : r.generation ≠ 0 := by
    rw [(OwnerRec.key_eq.mp hkey).1]
    exact (h.wrote store g hg).2
  -- The guard of the store changes, and with it no key.
  have hold : ∀ (i : ℕ) (g' : Guard Bytes), (s.guards.set store { g with rec_ := r, mine := codec.marshal r })[i]? = some g' →
      ∃ g₀, s.guards[i]? = some g₀ ∧ g₀.rec_.key = g'.rec_.key := by
    intro i g' hg'
    rcases getElem?_set_cases hg' with ⟨rfl,rfl⟩ | hg'
    · exact ⟨g,hg,hkey.symm⟩
    · exact ⟨g',hg',rfl⟩
  refine ⟨fun i g' hg' => ?_,fun i j g' g'' hg' hg'' heq => ?_,fun i g' hg' => ?_,fun i g' hg' hmine => ?_,?_⟩
  · rcases getElem?_set_cases hg' with ⟨rfl,rfl⟩ | hg'
    · exact ⟨rfl,hvalid⟩
    · exact h.wrote i g' hg'
  · obtain ⟨g₁,hg₁,hkey₁⟩ := hold i g' hg'
    obtain ⟨g₂,hg₂,hkey₂⟩ := hold j g'' hg''
    exact h.distinct i j g₁ g₂ hg₁ hg₂ (by rw [hkey₁,hkey₂,heq])
  · obtain ⟨g₁,hg₁,hkey₁⟩ := hold i g' hg'
    obtain ⟨hgeneration,hown⟩ := OwnerRec.key_eq.mp hkey₁
    have hnewer := hagain.newer i g₁ hg₁
    rwa [hgeneration,hown] at hnewer
  · rcases getElem?_set_cases hg' with ⟨rfl,rfl⟩ | hg'
    · rfl
    · exact hagain.owned i g' hg' hmine
  · simpa using hagain.newest

theorem Fenced.reclaim [DecidableEq Bytes] {codec : Codec Bytes} {root : String} {s : Site Bytes} (h : Fenced codec s)
    (store : ℕ) (job : JobID) (read : Option String) (publish : Publish) :
    Fenced codec (s.reclaim codec root store job read publish).1 := by
  rcases reclaim_cases codec root s store job read publish with heq | ⟨g,hg,howner,heq | heq⟩ <;> rw [heq]
  · exact h
  · exact h.rewritten hg howner (g.rec_.key_without job)
  · exact h.reclaimed hg howner (g.rec_.key_without job)

theorem Fenced.close {codec : Codec Bytes} {s : Site Bytes} (h : Fenced codec s) (store : ℕ) :
    Fenced codec (s.close store) := by
  refine ⟨h.wrote.close store,fun i j g g' hg hg' heq => ?_,fun i g hg => ?_,fun i g hg hmine => ?_,?_⟩
  · obtain ⟨g₀,hg₀,hrec,_⟩ := getElem?_close hg
    obtain ⟨g₁,hg₁,hrec₁,_⟩ := getElem?_close hg'
    exact h.distinct i j g₀ g₁ hg₀ hg₁ (by rw [hrec,hrec₁,heq])
  · obtain ⟨g₀,hg₀,hrec,_⟩ := getElem?_close hg
    rw [← hrec]
    exact h.newer i g₀ hg₀
  · obtain ⟨g₀,hg₀,_,hmine₀⟩ := getElem?_close hg
    exact h.owned i g₀ hg₀ (by rw [hmine₀]; exact hmine)
  · simpa [Site.close] using h.newest

theorem Fenced.remove {codec : Codec Bytes} {s : Site Bytes} (h : Fenced codec s) : Fenced codec s.remove where
  wrote := h.wrote
  distinct := h.distinct
  newer i g hg := by
    refine .inl (List.mem_append_right _ (List.mem_map.mpr ⟨g,?_,rfl⟩))
    exact List.mem_of_getElem? hg
  owned := nofun
  newest := nofun

theorem Fenced.step [DecidableEq Bytes] {codec : Codec Bytes} {root : String} (s : Site Bytes) (a : Act)
    (h : Fenced codec s) (hnew : s.NewOwner a) : Fenced codec (s.step codec root a) := by
  cases a with
  | open_ owner answers => exact h.open_ hnew answers
  | reclaim store job read publish => exact h.reclaim store job read publish
  | close store => exact h.close store
  | remove => exact h.remove
  | jobs running => exact ⟨h.wrote,h.distinct,h.newer,h.owned,h.newest⟩

/-- An open keeps its key for good, whatever it writes. -/
def Keyed (s : Site Bytes) (i : ℕ) (key : UInt64 × Owner) : Prop := ∃ g, s.guards[i]? = some g ∧ g.rec_.key = key

theorem Keyed.open_ {codec : Codec Bytes} {root : String} {s : Site Bytes} {i : ℕ} {key : UInt64 × Owner} (h : s.Keyed i key)
    (owner : Owner) (answers : OpenAnswers) : (s.open_ codec root owner answers).1.Keyed i key := by
  rcases open_cases codec root s owner answers with ⟨_,heq⟩ | ⟨r,_,_,⟨_,heq⟩ | heq⟩ <;> rw [heq]
  · exact h
  · exact h
  · obtain ⟨g,hg,hkey⟩ := h
    have hlt : i < s.guards.length := (List.getElem?_eq_some_iff.mp hg).1
    exact ⟨g,by simpa [List.getElem?_append_left hlt] using hg,hkey⟩

theorem Keyed.reclaim [DecidableEq Bytes] {codec : Codec Bytes} {root : String} {s : Site Bytes} {i : ℕ}
    {key : UInt64 × Owner} (h : s.Keyed i key) (store : ℕ) (job : JobID) (read : Option String) (publish : Publish) :
    (s.reclaim codec root store job read publish).1.Keyed i key := by
  rcases reclaim_cases codec root s store job read publish with heq | ⟨g,hg,_,heq | heq⟩ <;> rw [heq]
  · exact h
  · exact h
  · obtain ⟨g',hg',hkey⟩ := h
    by_cases hi : store = i
    · subst hi
      obtain rfl : g = g' := Option.some.inj (hg.symm.trans hg')
      have hlt : store < s.guards.length := (List.getElem?_eq_some_iff.mp hg).1
      exact ⟨{ g with rec_ := g.rec_.without job, mine := codec.marshal (g.rec_.without job) },by simp [hlt],hkey⟩
    · exact ⟨g',by simpa [List.getElem?_set_ne hi] using hg',hkey⟩

theorem Keyed.step [DecidableEq Bytes] {codec : Codec Bytes} {root : String} {i : ℕ} {key : UInt64 × Owner}
    (s : Site Bytes) (a : Act) (h : s.Keyed i key) : (s.step codec root a).Keyed i key := by
  cases a with
  | open_ owner answers => exact h.open_ owner answers
  | reclaim store job read publish => exact h.reclaim store job read publish
  | close store =>
    obtain ⟨g,hg,hkey⟩ := h
    refine ⟨if store = i then { g with closed := true } else g,?_,by split_ifs <;> exact hkey⟩
    rw [Site.step,Site.close,List.getElem?_modify,hg]
    rfl
  | remove => exact h
  | jobs running => exact h

/-- While no owner opens the store again once the record was removed that it wrote, at most the newest
open passes its check, no two opens ever have one record, and an earlier open is refused. -/
theorem later_open_fences [DecidableEq Bytes] (codec : Codec Bytes) (root : String) (owner : Option Bytes)
    (running : List JobID) (acts : List Act)
    (h : Along (Site.step codec root) Site.NewOwner { owner := owner, running := running } acts) :
    let start : Site Bytes := { owner := owner, running := running }
    let s := run (Site.step codec root) start acts
    (∀ i, s.Passes codec root i → s.writer = some i ∧ ∀ j, s.Passes codec root j → j = i)
      ∧ (∀ earlier, earlier <+: acts → ∀ (i j : ℕ) (g g' : Guard Bytes), i ≠ j →
        (run (Site.step codec root) start earlier).guards[i]? = some g → s.guards[j]? = some g' →
        g.rec_ ≠ g'.rec_ ∧ g.mine ≠ g'.mine)
      ∧ ∀ i j, i < j → j < s.guards.length → ¬s.Passes codec root i
        ∧ ∀ g, s.guards[i]? = some g → ∀ job ∈ g.rec_.givenUp, ∀ read publish,
          ∃ e, s.reclaim codec root i job read publish = (s,some e) := by
  intro start s
  have hfenced : Fenced codec s := Along.invariant Fenced.step (Fenced.start codec owner running) h
  have hlast : ∀ i, s.Passes codec root i → s.writer = some i ∧ i+1 = s.guards.length :=
    fun i ⟨g,hg,hcheck⟩ => hfenced.passes hg hcheck
  refine ⟨fun i hi => ⟨(hlast i hi).1,fun j hj => ?_⟩,?_,?_⟩
  · have hi := (hlast i hi).2
    have hj := (hlast j hj).2
    omega
  · rintro earlier ⟨rest,rfl⟩ i j g g' hij hg hg'
    have hbefore : Fenced codec (run (Site.step codec root) start earlier) :=
      Along.invariant Fenced.step (Fenced.start codec owner running) h.of_append
    obtain ⟨g₁,hg₁,hkey⟩ : s.Keyed i g.rec_.key := by
      rw [show s = _ from run_append ..]
      exact run_invariant Keyed.step ⟨g,hg,rfl⟩ rest
    have hne : g.rec_ ≠ g'.rec_ := fun heq => hij (hfenced.distinct i j g₁ g' hg₁ hg' (by rw [hkey,heq]))
    refine ⟨hne,?_⟩
    rw [(hbefore.wrote i g hg).1]
    exact hfenced.mine_ne (hbefore.wrote i g hg).2 hg' hne.symm
  · intro i j hij hj
    have hnot : ∀ g, s.guards[i]? = some g → ∀ read, g.check codec root s.owner read ≠ none := by
      intro g hg read hcheck
      have := (hfenced.passes hg hcheck).2
      omega
    refine ⟨fun ⟨g,hg,hcheck⟩ => hnot g hg none hcheck,fun g hg job hjob read publish => ?_⟩
    obtain ⟨e,he⟩ := Option.ne_none_iff_exists'.mp (hnot g hg read)
    exact ⟨e,by simp [Site.reclaim,hg,hjob,he]⟩

/-- The daemon that opened the store is gone with its machine: the record is removed, another daemon
opens the store with the running job given up, and takes it back. -/
theorem later_open_fences_takeover :
    let s := run (Site.step Codec.plain "/store") { owner := none, running := [] }
      [.open_ ⟨"a","/run/a",7⟩ {},.jobs ["j1"],.remove,.open_ ⟨"b","/run/b",7⟩ {},.reclaim 1 "j1" none .done]
    s.Passes Codec.plain "/store" 1 ∧ ¬s.Passes Codec.plain "/store" 0 := by
  intro s
  refine ⟨⟨⟨⟨1,"b","/run/b",7,[]⟩,⟨1,"b","/run/b",7,[]⟩,false⟩,by decide +kernel,by decide +kernel⟩,?_⟩
  exact ((later_open_fences Codec.plain "/store" none [] _ (by decide +kernel)).2.2 0 1 (by decide) (by decide +kernel)).1

/-- A process opens the store, the record is removed, and it opens the store again: the generation
starts again at one, both opens have one record and both pass the check. -/
theorem reopened_has_one_record :
    let s := run (Site.step Codec.plain "/store") { owner := none, running := [] }
      [.open_ ⟨"a","/run/a",7⟩ {},.remove,.open_ ⟨"a","/run/a",7⟩ {}]
    s.Passes Codec.plain "/store" 0 ∧ s.Passes Codec.plain "/store" 1
      ∧ s.guards.map Guard.mine = [⟨1,"a","/run/a",7,[]⟩,⟨1,"a","/run/a",7,[]⟩] := by
  intro s
  refine ⟨⟨⟨⟨1,"a","/run/a",7,[]⟩,⟨1,"a","/run/a",7,[]⟩,false⟩,by decide +kernel,by decide +kernel⟩,
    ⟨⟨⟨1,"a","/run/a",7,[]⟩,⟨1,"a","/run/a",7,[]⟩,false⟩,by decide +kernel,by decide +kernel⟩,by decide +kernel⟩

end Site
end Vibesys.Store
