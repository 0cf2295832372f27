import Mathlib.Algebra.Order.BigOperators.Group.List
import Vibesys.Cost.Windows

/-!
# Every dollar is counted once

What was spent in a bucket is the cost of the turns that ended in it, so the buckets add up to the total, as the types
of agents and the models do.
-/
namespace Vibesys.Cost

open Library
open Vibesys.Core (Time)
open Orchestrator (AgentRole Usage)

variable {calls : List Call} {l : Ledger} {rows : List Row} {models : List ModelCost} {start asOf : ℤ}

/-! ## Sums of tallies by field -/

theorem turns_sum (ts : List Tally) : ts.sum.turns = (ts.map Tally.turns).sum := by
  induction ts with
  | nil => rfl
  | cons t ts ih => rw [List.sum_cons,List.map_cons,List.sum_cons,Tally.add_def,ih]

theorem unpriced_sum (ts : List Tally) : ts.sum.unpriced = (ts.map Tally.unpriced).sum := by
  induction ts with
  | nil => rfl
  | cons t ts ih => rw [List.sum_cons,List.map_cons,List.sum_cons,Tally.add_def,ih]

theorem usage_sum (ts : List Tally) : ts.sum.usage = (ts.map Tally.usage).sum := by
  induction ts with
  | nil => rfl
  | cons t ts ih => rw [List.sum_cons,List.map_cons,List.sum_cons,Tally.add_def,ih]

def Entry.cost (e : Entry) : ℚ := e.usage.costUSD.getD 0

theorem cost_sum (us : List Usage) : us.sum.costUSD.getD 0 = (us.map fun u => u.costUSD.getD 0).sum := by
  induction us with
  | nil => rfl
  | cons u us ih =>
    rw [List.sum_cons,List.map_cons,List.sum_cons,← ih]
    exact Usage.getD_sum _ _

/-! ## The series -/

def spentBy (start width : ℤ) (n : ℕ) (rows : List Row) (i : ℕ) (m : ModelKey) : ℚ :=
  groupSum (fun row => (bucketOf start width n row.1.end_,row.2.model)) (fun row => row.1.cost) rows (i,m)

theorem addSpend_getD {width : ℤ} {n : ℕ} (spend : ℕ → ModelKey → Option ℚ) (row : Row) (i : ℕ) (m : ModelKey) :
    (addSpend start width n spend row i m).getD 0 =
      (spend i m).getD 0+if (bucketOf start width n row.1.end_,row.2.model) = (i,m) then row.1.cost else 0 := by
  unfold addSpend Entry.cost
  cases row.1.usage.costUSD with
  | none => simp
  | some c =>
    dsimp only
    by_cases hi : bucketOf start width n row.1.end_ = i
    · subst hi
      rw [Function.update_self]
      by_cases hm : row.2.model = m
      · subst hm
        rw [Function.update_self,if_pos rfl]
        rfl
      · rw [Function.update_of_ne (Ne.symm hm),if_neg fun h => hm (Prod.ext_iff.mp h).2,add_zero]
    · rw [Function.update_of_ne (Ne.symm hi),if_neg fun h => hi (Prod.ext_iff.mp h).1,add_zero]

theorem foldl_addSpend_getD {width : ℤ} {n : ℕ} (spend : ℕ → ModelKey → Option ℚ) (i : ℕ) (m : ModelKey) :
    (rows.foldl (addSpend start width n) spend i m).getD 0 = (spend i m).getD 0+spentBy start width n rows i m := by
  unfold spentBy
  induction rows generalizing spend with
  | nil => rw [List.foldl_nil,groupSum_nil,add_zero]
  | cons row rows ih => rw [List.foldl_cons,ih,addSpend_getD,groupSum_cons,add_assoc]

theorem sum_byModel {spend : ModelKey → Option ℚ} (h : ∀ m, 0 ≤ (spend m).getD 0) :
    ((byModel models spend).map ModelSpend.cost).sum = (models.map fun m => (spend m.model).getD 0).sum := by
  unfold byModel
  induction models with
  | nil => rfl
  | cons m models ih =>
    have hm := h m.model
    rw [List.filterMap_cons,List.map_cons,List.sum_cons,← ih]
    cases hspend : spend m.model with
    | none =>
      dsimp only
      rw [Option.getD_none,zero_add]
    | some c =>
      rw [hspend,Option.getD_some] at hm
      dsimp only
      rw [Option.getD_some]
      by_cases hpos : 0 < c
      · rw [if_pos hpos,List.map_cons,List.sum_cons]
      · rw [if_neg hpos,le_antisymm (not_lt.mp hpos) hm,zero_add]

theorem spentBy_nonneg {width : ℤ} {n : ℕ} (h : ∀ row ∈ rows, 0 ≤ row.1.cost) (i : ℕ) (m : ModelKey) :
    0 ≤ spentBy start width n rows i m := by
  refine List.sum_nonneg fun c hc => ?_
  obtain ⟨row,hrow,rfl⟩ := List.mem_map.mp hc
  exact h row (List.mem_of_mem_filter hrow)

theorem sum_spentBy {width : ℤ} {n : ℕ} {infos : List AgentInfo} {order : List ModelKey} (horder : Ranges AgentInfo.model infos order)
    (hrows : ∀ row ∈ rows, row.2 ∈ infos) (i : ℕ) :
    ((modelCosts infos rows order).map fun m => spentBy start width n rows i m.model).sum =
      groupSum (fun row => bucketOf start width n row.1.end_) (fun row => row.1.cost) rows i := by
  have hperm := (@modelCosts_perm _ rows _ horder).map fun m => spentBy start width n rows i m.model
  rw [hperm.sum_eq,List.map_map]
  have hgroup : ((fun m : ModelCost => spentBy start width n rows i m.model) ∘ fun model =>
      modelCost model (groupTally AgentInfo.model rows model)) =
      groupSum (fun row : Row => row.2.model) (fun row => row.1.cost) (rows.filter fun row => bucketOf start width n row.1.end_ = i) := by
    funext model
    exact groupSum_prod i model
  rw [hgroup,sum_groupSum horder.1 fun row hrow => (horder.2 _).mpr (List.mem_map_of_mem (hrows row (List.mem_of_mem_filter hrow)))]
  rfl

theorem length_seriesOf : (seriesOf models start asOf rows).buckets.length = bucketCount (Sub asOf start) := by
  unfold seriesOf
  dsimp only
  rw [List.length_map,List.length_range]

section Series

variable {infos : List AgentInfo} {order : List ModelKey} (horder : Ranges AgentInfo.model infos order)
  (hrows : ∀ row ∈ rows, row.2 ∈ infos) (hcost : ∀ row ∈ rows, 0 ≤ row.1.cost)
include horder hrows hcost

theorem map_cost_seriesOf :
    (seriesOf (modelCosts infos rows order) start asOf rows).buckets.map Bucket.cost =
      (List.range (bucketCount (Sub asOf start))).map fun i =>
        groupSum (fun row => bucketOf start (WidthFor (Sub asOf start)) (bucketCount (Sub asOf start)) row.1.end_)
          (fun row => row.1.cost) rows i := by
  unfold seriesOf
  dsimp only
  rw [List.map_map]
  refine List.map_congr_left fun i _ => ?_
  have hspend : ∀ m, (rows.foldl (addSpend start (WidthFor (Sub asOf start)) (bucketCount (Sub asOf start))) (fun _ _ => none) i m).getD 0 =
      spentBy start (WidthFor (Sub asOf start)) (bucketCount (Sub asOf start)) rows i m := fun m =>
    (foldl_addSpend_getD _ i m).trans (zero_add _)
  show ((byModel (modelCosts infos rows order) (rows.foldl (addSpend start (WidthFor (Sub asOf start))
    (bucketCount (Sub asOf start))) (fun _ _ => none) i)).map ModelSpend.cost).sum = _
  rw [sum_byModel fun m => (hspend m).symm ▸ spentBy_nonneg hcost i m]
  simp only [hspend]
  exact sum_spentBy horder hrows i

theorem sum_buckets : ((seriesOf (modelCosts infos rows order) start asOf rows).buckets.map Bucket.cost).sum =
    (rows.map fun row => row.1.cost).sum := by
  rw [map_cost_seriesOf horder hrows hcost]
  refine sum_groupSum List.nodup_range fun row _ => List.mem_range.mpr (bucketOf_lt ?_)
  unfold bucketCount
  omega

theorem bucket_of_seriesOf (hstart : start ≤ asOf) (hends : ∀ row ∈ rows, row.1.end_ ≤ asOf) {i : ℕ} {b : Bucket}
    (hb : (seriesOf (modelCosts infos rows order) start asOf rows).buckets[i]? = some b) :
    b.start = start+i*WidthFor (Sub asOf start) ∧
      b.cost = ((rows.filter fun row => InBucket start (WidthFor (Sub asOf start)) (bucketCount (Sub asOf start)) i row.1.end_).map
        fun row => row.1.cost).sum := by
  have hi : i < bucketCount (Sub asOf start) := length_seriesOf ▸ (List.getElem?_eq_some_iff.mp hb).1
  constructor
  · have hbucket : b.start = start+wrap (i*WidthFor (Sub asOf start)) := by
      unfold seriesOf at hb
      dsimp only at hb
      rw [List.getElem?_map,List.getElem?_range hi] at hb
      rw [← Option.some.inj hb]
    rw [hbucket,start_of_bucket hstart hi]
  · have hcosts : ((seriesOf (modelCosts infos rows order) start asOf rows).buckets.map Bucket.cost)[i]? = _ :=
      congrArg (fun costs : List ℚ => costs[i]?) (map_cost_seriesOf horder hrows hcost)
    rw [List.getElem?_map,hb,List.getElem?_map,List.getElem?_range hi] at hcosts
    rw [Option.some.inj hcosts]
    have hfilter : (rows.filter fun row =>
        bucketOf start (WidthFor (Sub asOf start)) (bucketCount (Sub asOf start)) row.1.end_ = i) =
        rows.filter fun row => InBucket start (WidthFor (Sub asOf start)) (bucketCount (Sub asOf start)) i row.1.end_ := by
      refine List.filter_congr fun row hrow => ?_
      rw [decide_eq_decide]
      exact bucketOf_eq_iff hstart (hends row hrow) hi
    show ((rows.filter _).map _).sum = _
    rw [hfilter]

end Series

/-! ## The view -/

theorem sum_single (es : List Entry) : (es.map fun e => single e.usage).sum =
    ⟨UInt32.ofNat es.length,UInt32.ofNat (es.countP fun e => unpriced e.usage),(es.map Entry.usage).sum⟩ := by
  induction es with
  | nil => rfl
  | cons e es ih =>
    rw [List.map_cons,List.sum_cons,ih,Tally.add_def,List.length_cons,List.countP_cons,List.map_cons,List.sum_cons]
    unfold single
    rw [UInt32.ofNat_add,add_comm (UInt32.ofNat es.length),UInt32.ofNat_add,add_comm (UInt32.ofNat (es.countP _))]
    congr 2
    split <;> rfl

/-- What a view says of the finished turns of a run. Turns and tokens add up as their counters do, modulo `2^32` and
`2^64`. -/
structure Counts (es : List Entry) (run : Orchestrator.Run) (v : View) : Prop where
  turns : v.turns = UInt32.ofNat es.length
  unpriced : v.unpriced = UInt32.ofNat (es.countP fun e => Cost.unpriced e.usage)
  total : v.total = (es.map Entry.usage).sum
  roles : (v.roles.map RoleCost.turns).sum = v.turns ∧ (v.roles.map RoleCost.unpriced).sum = v.unpriced ∧
    (v.roles.map RoleCost.usage).sum = v.total
  models : (v.models.map ModelCost.turns).sum = v.turns ∧ (v.models.map ModelCost.unpriced).sum = v.unpriced ∧
    (v.models.map ModelCost.usage).sum = v.total
  cost : (v.series.buckets.map Bucket.cost).sum = v.total.costUSD.getD 0
  start : v.series.start = run.createdAt
  count : 1 ≤ v.series.buckets.length ∧ (v.series.buckets.length : ℤ) ≤ MaxBuckets
  buckets : ∀ (i : ℕ) (b : Bucket), v.series.buckets[i]? = some b → b.start = v.series.start+i*v.series.width ∧
    b.cost = ((es.filter fun e => InBucket v.series.start v.series.width v.series.buckets.length i e.end_).map Entry.cost).sum

theorem asOf_le {run : Orchestrator.Run} {now : Time} (hsorted : l.entries.Pairwise fun a b => entryOrder a b ≠ .gt) :
    run.createdAt ≤ l.asOf run now ∧ ∀ e ∈ l.entries, e.end_ ≤ l.asOf run now := by
  have hlater : ∀ a b : Time, a ≤ laterOf a b ∧ b ≤ laterOf a b := by
    intro a b
    unfold laterOf
    split_ifs with h
    · exact ⟨h.le,le_rfl⟩
    · exact ⟨le_rfl,not_lt.mp h⟩
  unfold Ledger.asOf
  dsimp only
  refine ⟨(hlater _ _).2,fun e he => le_trans ?_ (hlater _ _).1⟩
  cases hlast : l.entries.getLast? with
  | none =>
    rw [List.getLast?_eq_none_iff.mp hlast] at he
    exact absurd he List.not_mem_nil
  | some last =>
    refine le_trans ?_ (hlater _ _).2
    obtain ⟨before,hbefore⟩ := List.getLast?_eq_some_iff.mp hlast
    rw [hbefore] at he hsorted
    rcases List.mem_append.mp he with he | he
    · have hrank := (entryOrder_ne_gt e last).mp ((List.pairwise_append.mp hsorted).2.2 e he last (List.mem_singleton_self last))
      rcases (Prod.Lex.toLex_le_toLex.mp hrank) with hlt | heq
      · exact le_of_lt hlt
      · exact le_of_eq heq.1
    · rw [List.mem_singleton.mp he]

/-- What a view of a ledger says. -/
theorem view_counts (h : Holds calls l) (hcost : ∀ e ∈ l.entries, 0 ≤ e.cost) {run : Orchestrator.Run} {now : Time}
    {roleOrder : List AgentRole} {modelOrder : List ModelKey} (horders : l.Orders roleOrder modelOrder) :
    ∃ v, l.view run now roleOrder modelOrder = some v ∧ Counts l.sort.entries run v := by
  have hsort := h.sort
  obtain ⟨rows,hrows,hfst,hvalues⟩ := rows_of_known hsort.known
  have hroles : Ranges AgentInfo.role l.sort.agents.values roleOrder := by rw [agents_sort]; exact horders.roles
  have hmodels : Ranges AgentInfo.model l.sort.agents.values modelOrder := by rw [agents_sort]; exact horders.models
  obtain ⟨hstart,hends⟩ : run.createdAt ≤ l.sort.asOf run now ∧ _ := asOf_le (hsort.sorted sorted_sort)
  have hmem : ∀ row ∈ rows, row.1 ∈ l.sort.entries := fun row hrow => hfst ▸ List.mem_map_of_mem hrow
  have hcosts : ∀ row ∈ rows, 0 ≤ row.1.cost := fun row hrow =>
    hcost row.1 ((h.entries row.1).mpr ((hsort.entries row.1).mp (hmem row hrow)))
  have htally : (rows.map rowTally).sum = ⟨UInt32.ofNat l.sort.entries.length,
      UInt32.ofNat (l.sort.entries.countP fun e => unpriced e.usage),(l.sort.entries.map Entry.usage).sum⟩ := by
    rw [← sum_single,← hfst,List.map_map]
    rfl
  have htotal : rows.foldl (fun t row => t.add row.1.usage) ({} : Tally) = (rows.map rowTally).sum :=
    (foldl_add rows {}).trans (zero_add _)
  have hroleSum := sum_roleCosts hroles hvalues
  have hmodelSum := sum_modelCosts hmodels hvalues
  have hbounds := bucketCount_bounds (span_bounds hstart).1 (span_bounds hstart).2
  unfold Ledger.view Ledger.viewSorted
  rw [show l.sort.rows = some rows from hrows]
  refine ⟨_,rfl,?_⟩
  rw [htotal]
  have hlength : (seriesOf (modelCosts l.sort.agents.values rows modelOrder) run.createdAt (l.sort.asOf run now) rows).buckets.length =
      bucketCount (Sub (l.sort.asOf run now) run.createdAt) := length_seriesOf
  refine ⟨?_,?_,?_,⟨?_,?_,?_⟩,⟨?_,?_,?_⟩,?_,rfl,⟨?_,?_⟩,fun i b hb => ?_⟩
  · rw [htally]
  · rw [htally]
  · rw [htally]
  · rw [← hroleSum,turns_sum,List.map_map]
    rfl
  · rw [← hroleSum,unpriced_sum,List.map_map]
    rfl
  · rw [← hroleSum,usage_sum,List.map_map]
    rfl
  · rw [← hmodelSum,turns_sum,List.map_map]
    rfl
  · rw [← hmodelSum,unpriced_sum,List.map_map]
    rfl
  · rw [← hmodelSum,usage_sum,List.map_map]
    rfl
  · show ((seriesOf _ _ _ _).buckets.map Bucket.cost).sum = (rows.map rowTally).sum.usage.costUSD.getD 0
    rw [sum_buckets hmodels hvalues hcosts,usage_sum,List.map_map,cost_sum,List.map_map]
    rfl
  · show 1 ≤ (seriesOf _ _ _ _).buckets.length
    rw [hlength]
    exact hbounds.1
  · show ((seriesOf _ _ _ _).buckets.length : ℤ) ≤ MaxBuckets
    rw [hlength]
    have hmax : MaxBuckets = 48 := rfl
    omega
  · have hbucket := bucket_of_seriesOf hmodels hvalues hcosts hstart (fun row hrow => hends row.1 (hmem row hrow)) hb
    refine ⟨hbucket.1,?_⟩
    show b.cost = ((l.sort.entries.filter fun e => InBucket _ _ (seriesOf _ _ _ _).buckets.length i e.end_).map Entry.cost).sum
    rw [hlength,hbucket.2,← hfst,List.filter_map,List.map_map]
    rfl

/-! ## All calls -/

/-- No turn was given a negative cost. -/
def NoNegative (calls : List Call) : Prop := ∀ c ∈ calls, ∀ e ∈ c.entry, 0 ≤ e.cost

/-- A view depends only on the facts last given, all its sums are over the last of each turn, and the spend of a span
is the spend of its halves. -/
theorem every_dollar_is_counted_once {calls : List Call} (hcosts : NoNegative calls) :
    (∀ calls', SameFacts calls calls' → ∀ run now roleOrder roleOrder' modelOrder modelOrder',
      (Library.run step {} calls).Orders roleOrder modelOrder → (Library.run step {} calls').Orders roleOrder' modelOrder' →
        (Library.run step {} calls).view run now roleOrder modelOrder = (Library.run step {} calls').view run now roleOrder' modelOrder') ∧
      (∃ es : List Entry, (es.map Entry.key).Nodup ∧ (∀ e, e ∈ es ↔ lastTurn calls e.key = some e) ∧
        ∀ run now roleOrder modelOrder, (Library.run step {} calls).Orders roleOrder modelOrder →
          ∃ v, (Library.run step {} calls).view run now roleOrder modelOrder = some v ∧ Counts es run v) ∧
      ∀ a b c, a ≤ b → b ≤ c → ∃ first second whole, (Library.run step {} calls).spend a b = some first ∧
        (Library.run step {} calls).spend b c = some second ∧ (Library.run step {} calls).spend a c = some whole ∧
        whole.tally = first.tally+second.tally ∧ ∀ role, whole.of role = Usage.sum (first.of role) (second.of role) := by
  have hholds := holds_run calls
  have hsort := hholds.sort
  refine ⟨?_,⟨(Library.run step {} calls).sort.entries,hsort.positions.nodup,hsort.entries,?_⟩,?_⟩
  · intro calls' hsame run now roleOrder roleOrder' modelOrder modelOrder' horders horders'
    exact view_eq_of_sameFacts hholds (holds_run calls') hsame horders horders'
  · intro run now roleOrder modelOrder horders
    refine view_counts hholds (fun e he => ?_) horders
    obtain ⟨c,hc,hentry⟩ := List.mem_filterMap.mp (List.mem_reverse.mp (List.mem_of_find?_eq_some ((hholds.entries e).mp he)))
    exact hcosts c hc e hentry
  · intro a b c hab hbc
    obtain ⟨rows,hrows,-,-⟩ := rows_of_known hholds.known
    exact spend_add hrows hab hbc

namespace Sample

def lead : Agent := ⟨"lead",.lead,.claudeCode,"opus"⟩

def worker : Agent := ⟨"worker",.worker,.codex,""⟩

def turn (agent : Orchestrator.AgentID) (cost : ℚ) (endedAt : Time) : Orchestrator.Turn where
  id := "turn"
  agent := agent
  ordinal := 1
  trigger := .brief
  message := ""
  status := .completed
  usage := { outputTokens := some 10, costUSD := some cost }
  startedAt := 0
  endedAt := endedAt

/-- The lead's turn has as many tokens as a count can say, and the worker's one more. -/
def verbose : List Call :=
  [.add { turn "lead" 2 0 with usage := { outputTokens := some (UInt64.ofNat (2^64-1)), costUSD := some 2 } } lead,
    .add { turn "worker" 1 0 with usage := { outputTokens := some 1, costUSD := some 1 } } worker]

/-- The tokens of the total wrap to none, those of the two types of agents do not. -/
theorem total_tokens_wrap : NoNegative verbose ∧
    (Library.run step {} verbose).agents.values = [⟨.lead,⟨.claudeCode,"opus"⟩⟩,⟨.worker,⟨.codex,""⟩⟩] ∧
    ((Library.run step {} verbose).view default 0 [.lead,.worker] [⟨.claudeCode,"opus"⟩,⟨.codex,""⟩]).map
      (fun v => (v.total.outputTokens.elim 0 UInt64.toNat,
        (v.roles.map fun r => r.usage.outputTokens.elim 0 UInt64.toNat).sum)) = some (0,2^64) := by
  refine ⟨?_,by decide +kernel,by decide +kernel⟩
  unfold NoNegative verbose
  decide +kernel

/-- The lead's turn is repeated with another cost after a view. -/
def turns : List Call :=
  [.agent worker,.add (turn "lead" 7 Orchestrator.minute) lead,.view,.add (turn "worker" 3 0) worker,
    .add (turn "lead" 2 (2*Orchestrator.minute)) lead]

theorem every_dollar_is_counted_once_repeated : NoNegative turns ∧
    ((Library.run step {} turns).view default (2*Orchestrator.minute) [.lead,.worker] [⟨.claudeCode,"opus"⟩,⟨.codex,""⟩]).map
      (fun v => (v.total.costUSD,v.series.buckets.map Bucket.cost)) = some (some 5,[3,2]) ∧
    ∃ v, (Library.run step {} turns).view default (2*Orchestrator.minute) [.lead,.worker] [⟨.claudeCode,"opus"⟩,⟨.codex,""⟩] = some v ∧
      (v.series.buckets.map Bucket.cost).sum = v.total.costUSD.getD 0 := by
  have hcosts : NoNegative turns := by
    unfold NoNegative turns
    decide +kernel
  have hvalues : (Library.run step {} turns).agents.values = [⟨.lead,⟨.claudeCode,"opus"⟩⟩,⟨.worker,⟨.codex,""⟩⟩] := by
    decide +kernel
  have horders : (Library.run step {} turns).Orders [.lead,.worker] [⟨.claudeCode,"opus"⟩,⟨.codex,""⟩] := by
    refine ⟨?_,?_⟩
    · rw [hvalues]
      exact ⟨by decide,fun _ => Iff.rfl⟩
    · rw [hvalues]
      exact ⟨by decide,fun _ => Iff.rfl⟩
  obtain ⟨-,⟨es,-,-,hviews⟩,-⟩ := every_dollar_is_counted_once hcosts
  obtain ⟨v,hv,hcounts⟩ := hviews default (2*Orchestrator.minute) _ _ horders
  exact ⟨hcosts,by decide +kernel,v,hv,hcounts.cost⟩

end Sample

end Vibesys.Cost
