import Vibesys.Cost.Facts
import Vibesys.Library.Groups

/-!
# The totals of a view

A tally is a sum over turns, so the tallies of the types of agents and those of the models both add up to the total.
The order in which the groups come out of a map does not show, since two groups of one cost differ in their names.
-/
namespace Vibesys.Cost

open Library
open Vibesys.Core (Time)
open Orchestrator (AgentRole Usage)

/-! ## Tallies add up -/

instance : Add Tally := ⟨fun t t' => ⟨t.turns+t'.turns,t.unpriced+t'.unpriced,t.usage+t'.usage⟩⟩

instance : Zero Tally := ⟨⟨0,0,0⟩⟩

theorem Tally.add_def (t t' : Tally) : t+t' = ⟨t.turns+t'.turns,t.unpriced+t'.unpriced,t.usage+t'.usage⟩ := rfl

theorem Tally.zero_def : (0 : Tally) = ⟨0,0,0⟩ := rfl

instance : AddCommMonoid Tally where
  add_assoc a b c := by simp only [Tally.add_def,add_assoc]
  zero_add a := by simp only [Tally.add_def,Tally.zero_def,zero_add]
  add_zero a := by simp only [Tally.add_def,Tally.zero_def,add_zero]
  add_comm a b := by simp only [Tally.add_def,add_comm]
  nsmul := nsmulRec

def single (u : Usage) : Tally := ⟨1,if unpriced u then 1 else 0,u⟩

theorem Tally.add_eq (t : Tally) (u : Usage) : t.add u = t+single u := by
  unfold Tally.add single
  rw [Tally.add_def]
  dsimp only
  split
  · rfl
  · rw [add_zero]
    rfl

def rowTally (row : Row) : Tally := single row.1.usage

theorem foldl_add (rows : List Row) (t : Tally) :
    rows.foldl (fun t row => t.add row.1.usage) t = t+(rows.map rowTally).sum := by
  induction rows generalizing t with
  | nil => rw [List.foldl_nil,List.map_nil,List.sum_nil,add_zero]
  | cons row rows ih => rw [List.foldl_cons,ih,Tally.add_eq,List.map_cons,List.sum_cons,add_assoc]; rfl

section Groups

variable {κ : Type} [DecidableEq κ] {group : AgentInfo → κ} {infos : List AgentInfo} {rows : List Row}

def rowGroup (group : AgentInfo → κ) (row : Row) : κ := group row.2

def groupTally (group : AgentInfo → κ) (rows : List Row) (k : κ) : Tally := groupSum (rowGroup group) rowTally rows k

theorem foldl_known (m : κ → Option Tally) (k : κ) :
    (infos.foldl (fun m info => Function.update m (group info) (some {})) m) k = if k ∈ infos.map group then some 0 else m k := by
  induction infos generalizing m with
  | nil => simp
  | cons info infos ih =>
    rw [List.foldl_cons,ih,List.map_cons]
    by_cases hmem : k ∈ infos.map group
    · rw [if_pos hmem,if_pos (List.mem_cons_of_mem _ hmem)]
    · rw [if_neg hmem]
      by_cases hk : k = group info
      · subst hk
        rw [Function.update_self,if_pos List.mem_cons_self]
        rfl
      · rw [Function.update_of_ne hk,if_neg fun h => (List.mem_cons.mp h).elim hk hmem]

theorem foldl_tallies (m : κ → Option Tally) (k : κ) :
    (rows.foldl (fun m row => Function.update m (group row.2) ((m (group row.2)).map fun t => t.add row.1.usage)) m) k =
      (m k).map fun t => t+groupSum (rowGroup group) rowTally rows k := by
  induction rows generalizing m with
  | nil => simp
  | cons row rows ih =>
    rw [List.foldl_cons,ih,groupSum_cons]
    by_cases hk : group row.2 = k
    · subst hk
      rw [Function.update_self,if_pos (show rowGroup group row = group row.2 from rfl),Option.map_map]
      congr 1
      funext t
      rw [Function.comp_apply,Tally.add_eq,add_assoc]
      rfl
    · rw [Function.update_of_ne (Ne.symm hk),if_neg (show ¬ rowGroup group row = k from hk),zero_add]

theorem tallies_eq (k : κ) : tallies group infos rows k =
    if k ∈ infos.map group then some (groupTally group rows k) else none := by
  unfold tallies
  rw [foldl_tallies,foldl_known]
  split
  · rw [Option.map_some,zero_add]
    rfl
  · rfl

variable {β : Type} {order order' : List κ} {mk : κ → Tally → β}

/-- An order in which the map of the groups may be gone through. -/
def Ranges (group : AgentInfo → κ) (infos : List AgentInfo) (order : List κ) : Prop :=
  order.Nodup ∧ ∀ k, k ∈ order ↔ k ∈ infos.map group

theorem filterMap_tallies (h : Ranges group infos order) :
    (order.filterMap fun k => (tallies group infos rows k).map (mk k)) =
      order.map fun k => mk k (groupTally group rows k) := by
  have hall : ∀ k ∈ order, ((tallies group infos rows k).map (mk k)) = some (mk k (groupTally group rows k)) := by
    intro k hk
    rw [tallies_eq,if_pos ((h.2 k).mp hk)]
    rfl
  rw [← List.filterMap_eq_map]
  exact List.filterMap_congr hall

omit [DecidableEq κ] in
theorem Ranges.perm (h : Ranges group infos order) (h' : Ranges group infos order') : order.Perm order' :=
  (List.perm_ext_iff_of_nodup h.1 h'.1).mpr fun k => by rw [h.2,h'.2]

theorem sum_tallies (h : Ranges group infos order) (hrows : ∀ row ∈ rows, row.2 ∈ infos) :
    (order.map (groupTally group rows)).sum = (rows.map rowTally).sum :=
  sum_groupSum h.1 fun row hrow => (h.2 _).mpr (List.mem_map_of_mem (hrows row hrow))

end Groups

/-! ## The order of groups -/

/-- Groups are ordered by their cost, the most first, and then by their names. -/
def costRank (cost : Option ℚ) (name : String) : Bool ×ₗ ℚᵒᵈ ×ₗ String :=
  toLex (cost.isNone,toLex (OrderDual.toDual (cost.getD 0),name))

theorem byCost_ne_gt (a b : Option ℚ) (aName bName : String) :
    byCost a b aName bName ≠ .gt ↔ costRank a aName ≤ costRank b bName := by
  unfold byCost costRank
  rw [Prod.Lex.toLex_le_toLex,Prod.Lex.toLex_le_toLex]
  cases a with
  | none =>
    cases b with
    | none => simp [compare_le_iff_le]
    | some b => simp
  | some a =>
    cases b with
    | none => simp
    | some b =>
      dsimp only
      rw [then_ne_gt,compare_le_iff_le]
      simp [eq_comm]

theorem roleName_injective : Function.Injective roleName := by
  intro a b h
  cases a <;> cases b <;> first | rfl | (exact absurd h (by decide))

theorem ModelKey.name_injective : Function.Injective ModelKey.name := by
  rintro ⟨h,m⟩ ⟨h',m'⟩ heq
  have hlist : (h.name ++ "/" ++ m).toList = (h'.name ++ "/" ++ m').toList := congrArg String.toList heq
  rw [String.toList_append,String.toList_append,String.toList_append,String.toList_append] at hlist
  cases h <;> cases h' <;> simp [Harness.name,String.toList_inj] at hlist ⊢
  all_goals exact hlist

/-!
## What a view reads

The view of a ledger as an equation over its turns and the facts of its agents. It follows that ledgers which were told
the same give the same view, in whatever orders the maps are gone through.
-/

variable {calls calls' : List Call} {l l' : Ledger} {infos : List AgentInfo} {rows : List Row}

theorem rows_of_known {agents : Table Orchestrator.AgentID AgentInfo} {entries : List Entry}
    (h : ∀ e ∈ entries, ∃ info, agents.find? e.agent = some info) :
    ∃ rows, (entries.mapM fun e => (agents.find? e.agent).map fun info => (e,info)) = some rows ∧
      rows.map Prod.fst = entries ∧ ∀ row ∈ rows, row.2 ∈ agents.values := by
  induction entries with
  | nil => exact ⟨[],rfl,rfl,fun _ h => absurd h List.not_mem_nil⟩
  | cons e entries ih =>
    obtain ⟨info,hinfo⟩ := h e List.mem_cons_self
    obtain ⟨rows,hrows,hfst,hvalues⟩ := ih fun e he => h e (List.mem_cons_of_mem _ he)
    refine ⟨(e,info) :: rows,?_,by rw [List.map_cons,hfst],fun row hrow => ?_⟩
    · rw [List.mapM_cons,hinfo,hrows]
      rfl
    · rcases List.mem_cons.mp hrow with rfl | hrow
      · exact Table.mem_values.mpr ⟨_,hinfo⟩
      · exact hvalues row hrow

/-! ## Groups in any order -/

def RoleCost.tally (c : RoleCost) : Tally := ⟨c.turns,c.unpriced,c.usage⟩

def ModelCost.tally (c : ModelCost) : Tally := ⟨c.turns,c.unpriced,c.usage⟩

theorem roleCosts_perm {order : List AgentRole} (h : Ranges AgentInfo.role infos order) :
    (roleCosts infos rows order).Perm (order.map fun role => roleCost infos role (groupTally AgentInfo.role rows role)) := by
  unfold roleCosts
  rw [← filterMap_tallies h]
  exact List.perm_insertionSort _ _

theorem modelCosts_perm {order : List ModelKey} (h : Ranges AgentInfo.model infos order) :
    (modelCosts infos rows order).Perm (order.map fun model => modelCost model (groupTally AgentInfo.model rows model)) := by
  unfold modelCosts
  rw [← filterMap_tallies h]
  exact List.perm_insertionSort _ _

theorem roleCosts_eq {order order' : List AgentRole} (h : Ranges AgentInfo.role infos order) (h' : Ranges AgentInfo.role infos order') :
    roleCosts infos rows order = roleCosts infos rows order' := by
  have hperm : (roleCosts infos rows order).Perm _ := roleCosts_perm h
  have hrank : ∀ a b : RoleCost, byCost a.usage.costUSD b.usage.costUSD (roleName a.role) (roleName b.role) ≠ .gt ↔
      costRank a.usage.costUSD (roleName a.role) ≤ costRank b.usage.costUSD (roleName b.role) := fun a b => byCost_ne_gt _ _ _ _
  refine eq_of_perm_of_key hrank (hperm.trans (((h.perm h').map _).trans (roleCosts_perm h').symm)) (fun a ha b hb hkey => ?_)
    (pairwise_insertionSort_of_key hrank _) (pairwise_insertionSort_of_key hrank _)
  obtain ⟨role,-,rfl⟩ := List.mem_map.mp (hperm.mem_iff.mp ha)
  obtain ⟨role',-,rfl⟩ := List.mem_map.mp (hperm.mem_iff.mp hb)
  obtain rfl : role = role' := roleName_injective (congrArg (fun k => (ofLex (ofLex k).2).2) hkey)
  rfl

theorem modelCosts_eq {order order' : List ModelKey} (h : Ranges AgentInfo.model infos order)
    (h' : Ranges AgentInfo.model infos order') : modelCosts infos rows order = modelCosts infos rows order' := by
  have hperm : (modelCosts infos rows order).Perm _ := modelCosts_perm h
  have hrank : ∀ a b : ModelCost, byCost a.usage.costUSD b.usage.costUSD a.model.name b.model.name ≠ .gt ↔
      costRank a.usage.costUSD a.model.name ≤ costRank b.usage.costUSD b.model.name := fun a b => byCost_ne_gt _ _ _ _
  refine eq_of_perm_of_key hrank (hperm.trans (((h.perm h').map _).trans (modelCosts_perm h').symm)) (fun a ha b hb hkey => ?_)
    (pairwise_insertionSort_of_key hrank _) (pairwise_insertionSort_of_key hrank _)
  obtain ⟨model,-,rfl⟩ := List.mem_map.mp (hperm.mem_iff.mp ha)
  obtain ⟨model',-,rfl⟩ := List.mem_map.mp (hperm.mem_iff.mp hb)
  obtain rfl : model = model' := ModelKey.name_injective (congrArg (fun k => (ofLex (ofLex k).2).2) hkey)
  rfl

theorem sum_roleCosts {order : List AgentRole} (h : Ranges AgentInfo.role infos order) (hrows : ∀ row ∈ rows, row.2 ∈ infos) :
    ((roleCosts infos rows order).map RoleCost.tally).sum = (rows.map rowTally).sum := by
  rw [((roleCosts_perm h).map RoleCost.tally).sum_eq,List.map_map]
  exact sum_tallies h hrows

theorem sum_modelCosts {order : List ModelKey} (h : Ranges AgentInfo.model infos order) (hrows : ∀ row ∈ rows, row.2 ∈ infos) :
    ((modelCosts infos rows order).map ModelCost.tally).sum = (rows.map rowTally).sum := by
  rw [((modelCosts_perm h).map ModelCost.tally).sum_eq,List.map_map]
  exact sum_tallies h hrows

/-! ## The view -/

/-- Orders in which the two maps of a view may be gone through. -/
structure Ledger.Orders (l : Ledger) (roleOrder : List AgentRole) (modelOrder : List ModelKey) : Prop where
  roles : Ranges AgentInfo.role l.agents.values roleOrder
  models : Ranges AgentInfo.model l.agents.values modelOrder

theorem agents_sort : l.sort.agents = l.agents := by
  unfold Ledger.sort
  split <;> rfl

/-- Ledgers that were told the same give the same view. -/
theorem view_eq_of_sameFacts (h : Holds calls l) (h' : Holds calls' l') (hsame : SameFacts calls calls') {run : Orchestrator.Run}
    {now : Time} {roleOrder roleOrder' : List AgentRole} {modelOrder modelOrder' : List ModelKey} (horders : l.Orders roleOrder modelOrder)
    (horders' : l'.Orders roleOrder' modelOrder') : l.view run now roleOrder modelOrder = l'.view run now roleOrder' modelOrder' := by
  obtain ⟨hagents,hentries⟩ := sort_eq_of_sameFacts h h' hsame
  have hvalues : l.agents.values = l'.agents.values := by rw [← agents_sort,hagents,agents_sort]
  have hrows : l.sort.rows = l'.sort.rows := by rw [Ledger.rows,Ledger.rows,hagents,hentries]
  have hasOf : l.sort.asOf run now = l'.sort.asOf run now := by rw [Ledger.asOf,Ledger.asOf,hentries]
  unfold Ledger.view Ledger.viewSorted
  rw [hrows,hasOf,hentries]
  congr 1
  funext rows
  have hroles : roleCosts l.sort.agents.values rows roleOrder = roleCosts l'.sort.agents.values rows roleOrder' := by
    rw [agents_sort,agents_sort,hvalues]
    exact roleCosts_eq (hvalues ▸ horders.roles) horders'.roles
  have hmodels : modelCosts l.sort.agents.values rows modelOrder = modelCosts l'.sort.agents.values rows modelOrder' := by
    rw [agents_sort,agents_sort,hvalues]
    exact modelCosts_eq (hvalues ▸ horders.models) horders'.models
  rw [hroles,hmodels]

end Vibesys.Cost
