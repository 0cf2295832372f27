import Mathlib.Data.String.Basic
import Mathlib.Data.List.Induction
import Vibesys.Library.Table
import Vibesys.Library.Run

/-!
# What a watch of a task sends

The state of a task is a set of keyed facts. A stream remembers the facts it last sent, and for each look at the
task decides what to send next: the changed facts, or a reset when a key is gone or too much has changed. A
judgment that is gone is dropped from what the stream remembers without a reset.
-/
namespace Vibesys.TaskWatch

open Library

variable {V : Type*}

def MaxFactsPerMessage : ℕ := 500

abbrev FactKey := String

/-- What the store holds about a task, each slice by what identifies its entries. -/
structure TaskContent (V : Type*) where
  head : V
  plans : List (ℕ × V) := []
  workstreams : List (ℕ × V) := []
  bounds : List (ℕ × V) := []
  promotions : List (ℕ × V) := []
  jobs : List (String × V) := []
  results : List (String × V) := []
  judgments : List (String × V) := []
  troubles : List (String × V) := []

/-- One look at a task. There is no content when the store could not be read. -/
structure TaskView (V : Type*) where
  health : V
  content : Option (TaskContent V) := none

structure Fact (V : Type*) where
  key : FactKey
  value : V
  deriving DecidableEq

def keyHealth : FactKey := "health"

def keyHead : FactKey := "head"

def prefixJudged : String := "judgment/"

def prefixTrouble : String := "trouble/"

def numbered (kind : String) (entries : List (ℕ × V)) : List (Fact V) :=
  entries.map fun e => ⟨kind ++ toString e.1,e.2⟩

def named (kind : String) (entries : List (String × V)) : List (Fact V) := entries.map fun e => ⟨kind ++ e.1,e.2⟩

def TaskContent.Facts (c : TaskContent V) : List (Fact V) :=
  ⟨keyHead,c.head⟩ :: numbered "plan/" c.plans ++ numbered "workstream/" c.workstreams ++ numbered "bound/" c.bounds ++
    numbered "promotion/" c.promotions ++ named "job/" c.jobs ++ named "result/" c.results ++
    named prefixJudged c.judgments ++ named prefixTrouble c.troubles

def TaskView.Facts (v : TaskView V) : List (Fact V) :=
  ⟨keyHealth,v.health⟩ :: (v.content.map TaskContent.Facts).getD []

def isJudgment (k : FactKey) : Bool := prefixJudged.toList.isPrefixOf k.toList

/-- Facts by key: what a stream last sent, or what a client holds. -/
abbrev Sent (V : Type*) := Table FactKey V

/-- Each fact replaces the one with its key. -/
def put (t : Sent V) (facts : List (Fact V)) : Sent V := facts.foldl (fun t f => t.insert f.key f.value) t

structure Send (V : Type*) where
  reset : Bool := false
  facts : List (Fact V)
  deriving DecidableEq

def Send.Empty (s : Send V) : Bool := !s.reset && s.facts.isEmpty

section Plan

variable [DecidableEq V]

/-- What to send for a view, and what the stream remembers then. Nothing was sent yet when `sent` is none. -/
def PlanSend (sent : Option (Sent V)) (v : TaskView V) : Send V × Sent V :=
  match v.content,sent with
  | none,some held =>
    ({ facts := if held.find? keyHealth = some v.health then [] else [⟨keyHealth,v.health⟩] },held.insert keyHealth v.health)
  | _,_ =>
    let old := sent.getD ∅
    let next := put ∅ v.Facts
    let changed := v.Facts.filter fun f => old.find? f.key ≠ some f.value
    let reset := sent.isNone || changed.length > MaxFactsPerMessage ||
      old.keys.any fun k => (next.find? k).isNone && !isJudgment k
    if reset then ({ reset := true, facts := v.Facts },next) else ({ facts := changed },next)

def apply (client : Sent V) (s : Send V) : Sent V := put (if s.reset then ∅ else client) s.facts

structure Stream (V : Type*) where
  sent : Option (Sent V) := none
  client : Sent V := ∅

def Stream.look (s : Stream V) (v : TaskView V) : Stream V :=
  let (send,next) := PlanSend s.sent v
  ⟨some next,apply s.client send⟩

end Plan

/-!
## A watcher holds the task's state

What a stream remembers is the last content it saw with the last health. A client holds that and, besides, only
judgments that were sent before: the stream forgets these and never tells the client.
-/

def lookup (facts : List (Fact V)) (k : FactKey) : Option V := (facts.find? fun f => f.key = k).map Fact.value

def lastFacts (views : List (TaskView V)) : List (Fact V) :=
  match views.reverse.find? fun v => v.content.isSome with
  | some v => v.Facts
  | none => []

/-- The facts of the last view that had content, with the health of the last view. -/
def current (views : List (TaskView V)) (k : FactKey) : Option V :=
  if k = keyHealth then views.getLast?.map TaskView.health else lookup (lastFacts views) k

/-- What a client holds after the views: the current facts that are no judgments and no others, the current
judgments, and besides only judgments that a view carried. -/
structure Holds (views : List (TaskView V)) (client : Sent V) : Prop where
  facts : ∀ k, isJudgment k = false → client.find? k = current views k
  judgments : ∀ k x, isJudgment k = true → current views k = some x → client.find? k = some x
  others : ∀ k x, isJudgment k = true → client.find? k = some x → current views k = none →
    ∃ v ∈ views, ⟨k,x⟩ ∈ v.Facts

section Lookups

theorem mem_of_lookup {facts : List (Fact V)} {k : FactKey} {x : V} (h : lookup facts k = some x) : ⟨k,x⟩ ∈ facts := by
  obtain ⟨f,hf,rfl⟩ := Option.map_eq_some_iff.mp h
  have hkey := List.find?_some hf
  rw [decide_eq_true_eq] at hkey
  subst hkey
  exact List.mem_of_find?_eq_some hf

theorem lookup_eq_none {facts : List (Fact V)} {k : FactKey} :
    lookup facts k = none ↔ k ∉ facts.map Fact.key := by
  simp [lookup]

theorem lookup_cons (f : Fact V) (facts : List (Fact V)) (k : FactKey) :
    lookup (f :: facts) k = if f.key = k then some f.value else lookup facts k := by
  unfold lookup
  rw [List.find?_cons]
  by_cases h : f.key = k <;> simp [h]

theorem find?_put {facts : List (Fact V)} (hnodup : (facts.map Fact.key).Nodup) (t : Sent V) (k : FactKey) :
    (put t facts).find? k = (lookup facts k).or (t.find? k) := by
  induction facts generalizing t with
  | nil => rfl
  | cons f facts ih =>
    rw [List.map_cons,List.nodup_cons] at hnodup
    have hput : put t (f :: facts) = put (t.insert f.key f.value) facts := rfl
    rw [hput,ih hnodup.2,lookup_cons,Table.find?_insert]
    by_cases h : f.key = k
    · subst h
      rw [if_pos rfl,if_pos rfl,lookup_eq_none.mpr hnodup.1]
      rfl
    · rw [if_neg h,if_neg (Ne.symm h)]

theorem lookup_filter {facts : List (Fact V)} (hnodup : (facts.map Fact.key).Nodup) (p : Fact V → Bool) (k : FactKey) :
    lookup (facts.filter p) k = (lookup facts k).filter fun x => p ⟨k,x⟩ := by
  induction facts with
  | nil => rfl
  | cons f facts ih =>
    rw [List.map_cons,List.nodup_cons] at hnodup
    rw [List.filter_cons,lookup_cons]
    by_cases h : f.key = k
    · subst h
      rw [if_pos rfl]
      by_cases hp : p f
      · rw [if_pos hp,lookup_cons,if_pos rfl]
        exact (Option.filter_some_pos (p := fun x => p ⟨f.key,x⟩) hp).symm
      · rw [if_neg hp,ih hnodup.2,lookup_eq_none.mpr hnodup.1]
        exact (Option.filter_some_neg (p := fun x => p ⟨f.key,x⟩) (by simpa using hp)).symm
    · rw [if_neg h,← ih hnodup.2]
      split
      · rw [lookup_cons,if_neg h]
      · rfl

end Lookups

section Views

variable {views : List (TaskView V)} {v : TaskView V}

theorem lookup_health (v : TaskView V) : lookup v.Facts keyHealth = some v.health := by
  rw [TaskView.Facts,lookup_cons,if_pos rfl]

theorem current_append_content (views : List (TaskView V)) (hv : v.content.isSome) (k : FactKey) :
    current (views ++ [v]) k = lookup v.Facts k := by
  unfold current lastFacts
  rw [List.reverse_append,List.reverse_singleton,List.singleton_append,
    List.find?_cons_of_pos (p := fun v : TaskView V => v.content.isSome) hv]
  split_ifs with hk
  · rw [hk,lookup_health,List.getLast?_append]
    rfl
  · rfl

theorem current_append_none (views : List (TaskView V)) (hv : v.content = none) (k : FactKey) :
    current (views ++ [v]) k = if k = keyHealth then some v.health else current views k := by
  unfold current lastFacts
  rw [List.reverse_append,List.reverse_singleton,List.singleton_append,List.find?_cons_of_neg (by simp [hv])]
  split_ifs with hk
  · rw [List.getLast?_append]
    rfl
  · rfl

theorem carried_of_current {k : FactKey} {x : V} (hk : k ≠ keyHealth) (h : current views k = some x) :
    ∃ v ∈ views, ⟨k,x⟩ ∈ v.Facts := by
  rw [current,if_neg hk] at h
  unfold lastFacts at h
  split at h
  · next v hv => exact ⟨v,List.mem_reverse.mp (List.mem_of_find?_eq_some hv),mem_of_lookup h⟩
  · cases h

theorem current_first (v : TaskView V) (k : FactKey) : current [v] k = lookup v.Facts k := by
  cases hv : v.content with
  | some c => exact current_append_content [] (by rw [hv]; rfl) k
  | none =>
    rw [← List.nil_append [v],current_append_none [] hv,TaskView.Facts,hv,lookup_cons]
    simp only [current,lastFacts,eq_comm]
    split_ifs <;> rfl

end Views

section Sends

variable {views : List (TaskView V)} {v : TaskView V} {client : Sent V}

def TaskView.Keyed (v : TaskView V) : Prop := (v.Facts.map Fact.key).Nodup

def Remembers (views : List (TaskView V)) (sent : Sent V) : Prop := ∀ k, sent.find? k = current views k

theorem not_judgment_health : isJudgment keyHealth = false := by decide

theorem holds_reset (hkeyed : v.Keyed) (hcurrent : ∀ k, current (views ++ [v]) k = lookup v.Facts k) :
    Holds (views ++ [v]) (put ∅ v.Facts) := by
  have hfind : ∀ k, (put (∅ : Sent V) v.Facts).find? k = current (views ++ [v]) k := by
    intro k
    rw [find?_put hkeyed,hcurrent,Table.find?_empty,Option.or_none]
  refine ⟨fun k _ => hfind k,fun k x _ hx => (hfind k).trans hx,fun k x _ hx hnone => ?_⟩
  rw [hfind,hnone] at hx
  cases hx

theorem Holds.carried (h : Holds views client) {k : FactKey} {x : V} (hk : isJudgment k = true)
    (hx : client.find? k = some x) : ∃ v ∈ views, ⟨k,x⟩ ∈ v.Facts := by
  cases hcurrent : current views k with
  | none => exact h.others k x hk hx hcurrent
  | some y =>
    rw [h.judgments k y hk hcurrent] at hx
    cases hx
    refine carried_of_current (fun hhealth => ?_) hcurrent
    rw [hhealth,not_judgment_health] at hk
    cases hk

variable [DecidableEq V]

theorem holds_changed (h : Holds views client) {old : Sent V} (hold : Remembers views old) (hkeyed : v.Keyed)
    (hcurrent : ∀ k, current (views ++ [v]) k = lookup v.Facts k)
    (hkeys : ∀ k, current views k ≠ none → isJudgment k = false → lookup v.Facts k ≠ none) :
    Holds (views ++ [v]) (put client (v.Facts.filter fun f => old.find? f.key ≠ some f.value)) := by
  have hnodup : ((v.Facts.filter fun f => old.find? f.key ≠ some f.value).map Fact.key).Nodup :=
    hkeyed.sublist (List.filter_sublist.map _)
  have hfind := find?_put hnodup client
  -- a fact that was not sent is one the client has
  have hsome : ∀ k x, lookup v.Facts k = some x →
      (put client (v.Facts.filter fun f => old.find? f.key ≠ some f.value)).find? k = some x := by
    intro k x hx
    rw [hfind,lookup_filter hkeyed,hx]
    by_cases hsent : old.find? k = some x
    · rw [Option.filter_some_neg (by simpa using hsent),Option.none_or]
      rw [hold] at hsent
      cases hjudged : isJudgment k with
      | false => exact (h.facts k hjudged).trans hsent
      | true => exact h.judgments k x hjudged hsent
    · rw [Option.filter_some_pos (by simpa using hsent)]
      rfl
  have hnone : ∀ k, lookup v.Facts k = none →
      (put client (v.Facts.filter fun f => old.find? f.key ≠ some f.value)).find? k = client.find? k := by
    intro k hx
    rw [hfind,lookup_filter hkeyed,hx]
    rfl
  refine ⟨fun k hk => ?_,fun k x _ hx => hsome k x ((hcurrent k).symm.trans hx),fun k x hk hx hgone => ?_⟩
  · rw [hcurrent]
    cases hx : lookup v.Facts k with
    | some x => exact hsome k x hx
    | none =>
      rw [hnone k hx,h.facts k hk]
      by_contra hne
      exact hkeys k hne hk hx
  · rw [hcurrent] at hgone
    rw [hnone k hgone] at hx
    obtain ⟨v',hv',hmem⟩ := h.carried hk hx
    exact ⟨v',List.mem_append_left _ hv',hmem⟩

theorem holds_health (h : Holds views client) {old : Sent V} (hold : Remembers views old) (hv : v.content = none) :
    Holds (views ++ [v])
      (put client (if old.find? keyHealth = some v.health then [] else [⟨keyHealth,v.health⟩])) := by
  have hfind : ∀ k, (put client (if old.find? keyHealth = some v.health then [] else [⟨keyHealth,v.health⟩])).find? k =
      if k = keyHealth then some v.health else client.find? k := by
    intro k
    split_ifs with hsent hk hk
    · subst hk
      exact (h.facts _ not_judgment_health).trans ((hold _).symm.trans hsent)
    · rfl
    · subst hk
      exact Table.find?_insert_self ..
    · exact Table.find?_insert_ne _ _ hk
  have hother : ∀ k, isJudgment k = true → k ≠ keyHealth := by
    intro k hk hhealth
    rw [hhealth,not_judgment_health] at hk
    cases hk
  refine ⟨fun k hk => ?_,fun k x hk hx => ?_,fun k x hk hx hnone => ?_⟩
  · rw [hfind,current_append_none views hv]
    split_ifs
    · rfl
    · exact h.facts k hk
  · rw [current_append_none views hv,if_neg (hother k hk)] at hx
    rw [hfind,if_neg (hother k hk)]
    exact h.judgments k x hk hx
  · rw [current_append_none views hv,if_neg (hother k hk)] at hnone
    rw [hfind,if_neg (hother k hk)] at hx
    obtain ⟨v',hv',hmem⟩ := h.others k x hk hx hnone
    exact ⟨v',List.mem_append_left _ hv',hmem⟩

/-- A stream after some views: it remembers what is current, and its client holds it. -/
def Stream.Inv (views : List (TaskView V)) (s : Stream V) : Prop :=
  match s.sent with
  | none => views = [] ∧ s.client = ∅
  | some sent => Remembers views sent ∧ Holds views s.client

/-- One send: the client holds the view after it, a send that is no reset is bounded, and the stream remembers
what it sent. -/
theorem Stream.Inv.look {s : Stream V} (h : s.Inv views) (hkeyed : v.Keyed) :
    Holds (views ++ [v]) (apply s.client (PlanSend s.sent v).1) ∧
      ((PlanSend s.sent v).1.reset = false → (PlanSend s.sent v).1.facts.length ≤ MaxFactsPerMessage) ∧
      Remembers (views ++ [v]) (PlanSend s.sent v).2 := by
  unfold Stream.Inv at h
  unfold PlanSend
  split
  · next held hv hsent =>
    rw [hsent] at h
    refine ⟨holds_health h.2 h.1 hv,fun _ => ?_,fun k => ?_⟩
    · dsimp only
      split_ifs <;> simp [MaxFactsPerMessage]
    · rw [Table.find?_insert,current_append_none views hv,h.1]
  · next hnot =>
    have hcurrent : ∀ k, current (views ++ [v]) k = lookup v.Facts k := by
      intro k
      cases hsent : s.sent with
      | none =>
        rw [hsent] at h
        rw [h.1]
        exact current_first v k
      | some sent =>
        refine current_append_content views ?_ k
        rw [Option.isSome_iff_ne_none]
        exact fun hnone => hnot sent hnone hsent
    have hremembers : Remembers (views ++ [v]) (put ∅ v.Facts) := by
      intro k
      rw [find?_put hkeyed,hcurrent,Table.find?_empty,Option.or_none]
    dsimp only
    split_ifs with hreset
    · exact ⟨holds_reset hkeyed hcurrent,fun hno => (by cases hno),hremembers⟩
    · simp only [Bool.or_eq_true,not_or,decide_eq_true_eq,not_lt] at hreset
      obtain ⟨⟨hsome,hlength⟩,hgone⟩ := hreset
      refine ⟨?_,fun _ => hlength,hremembers⟩
      cases hsent : s.sent with
      | none =>
        rw [hsent] at hsome
        exact absurd rfl hsome
      | some old =>
        rw [hsent] at h hgone
        refine holds_changed h.2 h.1 hkeyed hcurrent fun k hk hjudged hnone => hgone ?_
        obtain ⟨x,hx⟩ := Option.ne_none_iff_exists'.mp hk
        rw [List.any_eq_true]
        refine ⟨k,Table.mem_keys.mpr ⟨x,(h.1 k).trans hx⟩,?_⟩
        rw [find?_put hkeyed,hnone,hjudged]
        rfl

theorem Stream.Inv.run {views : List (TaskView V)} (hkeyed : ∀ v ∈ views, v.Keyed) :
    (run Stream.look ({} : Stream V) views).Inv views := by
  induction views using List.reverseRecOn with
  | nil => exact ⟨rfl,rfl⟩
  | append_singleton views v ih =>
    have hviews := ih fun v' hv' => hkeyed v' (List.mem_append_left _ hv')
    obtain ⟨hholds,-,hremembers⟩ := hviews.look (hkeyed v (List.mem_append_right _ (List.mem_singleton_self v)))
    rw [run_append,run_cons,run_nil]
    exact ⟨hremembers,hholds⟩

/-- After every send a client holds the task's state, a send that is no reset is bounded, and a send is empty only
if the client is in that state already. -/
theorem watcher_holds_state {views : List (TaskView V)} (hkeyed : ∀ v ∈ views, v.Keyed) {v : TaskView V} (hv : v.Keyed) :
    let s := Library.run Stream.look ({} : Stream V) views
    let send := (PlanSend s.sent v).1
    Holds (views ++ [v]) (s.look v).client ∧ (send.reset = false → send.facts.length ≤ MaxFactsPerMessage) ∧
      (send.Empty = true → Holds (views ++ [v]) s.client) := by
  intro s send
  obtain ⟨hholds,hlength,-⟩ := (Stream.Inv.run hkeyed).look hv
  refine ⟨hholds,hlength,fun hempty => ?_⟩
  simp only [Send.Empty,Bool.and_eq_true,Bool.not_eq_true',List.isEmpty_iff] at hempty
  have happly : apply s.client send = s.client := by
    rw [apply,hempty.1,hempty.2]
    rfl
  rw [← happly]
  exact hholds

instance (v : TaskView V) : Decidable v.Keyed := inferInstanceAs (Decidable (List.Nodup _))

/-- A job changes and the judgment of a commit goes: the client is sent the job and keeps the judgment. -/
theorem watcher_holds_state_dropped :
    let before : TaskView ℕ := ⟨0,some { head := 1, jobs := [("j1",2)], judgments := [("c1",3)] }⟩
    let after : TaskView ℕ := ⟨0,some { head := 1, jobs := [("j1",4)] }⟩
    let s := Library.run Stream.look {} [before]
    (PlanSend s.sent after).1 = { facts := [⟨"job/j1",4⟩] } ∧ Holds [before,after] (s.look after).client ∧
      (s.look after).client.find? "judgment/c1" = some 3 := by
  intro before after s
  have hkeyed : ∀ v ∈ [before], v.Keyed := by decide +kernel
  exact ⟨by decide +kernel,(watcher_holds_state hkeyed (by decide +kernel)).1,by decide +kernel⟩

end Sends

end Vibesys.TaskWatch
