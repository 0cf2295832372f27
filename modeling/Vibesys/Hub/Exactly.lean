import Vibesys.Hub.Reader

/-!
# No stored event is lost or repeated

A client that resumes when it was told that it lagged takes the events it wants once each and in order, all that
were published before a take that reports no lag. A take reports a lag exactly if an event was not queued.
-/
namespace Vibesys.Hub

open Library

variable {β S : Type}

/-! ## Views of searches -/

structure Views (everything : Bool) (latest : Table RunID (SearchState S)) (revisions : Table RunID ℕ)
    (published returned : List (SearchState S)) : Prop where
  newest : ∀ run state, latest.find? run = some state →
    state.run = run ∧ revisions.find? run = some state.revision ∧ state ∈ published ∧
      ∀ r ∈ returned, r.run = run → r.revision < state.revision
  old : ∀ r ∈ returned, r ∈ published ∧ r.revision ≤ (revisions.find? r.run).getD 0
  top : ∀ run n, revisions.find? run = some n → (∃ state, latest.find? run = some state ∧ state.revision = n) ∨
    ∃ r ∈ returned, r.run = run ∧ r.revision = n
  kept : everything = true → ∀ p ∈ published, 0 < p.revision ∧ p.revision ≤ (revisions.find? p.run).getD 0
  rising : returned.Pairwise fun a b => a.run = b.run → a.revision < b.revision

namespace Views

variable {everything : Bool} {latest : Table RunID (SearchState S)} {revisions : Table RunID ℕ}
  {published returned : List (SearchState S)}

theorem start : Views everything (∅ : Table RunID (SearchState S)) ∅ [] [] :=
  ⟨fun _ _ h => (by cases h),fun _ h => absurd h List.not_mem_nil,fun _ _ h => (by cases h),
    fun _ _ h => absurd h List.not_mem_nil,List.Pairwise.nil⟩

theorem publish (h : Views everything latest revisions published returned) {state : SearchState S}
    (hnew : state.revision > (revisions.find? state.run).getD 0) :
    Views everything (latest.insert state.run state) (revisions.insert state.run state.revision) (published ++ [state])
      returned := by
  refine ⟨fun run st hst => ?_,fun r hr => ?_,fun run n hn => ?_,fun he p hp => ?_,h.rising⟩
  · rw [Table.find?_insert] at hst ⊢
    split_ifs at hst ⊢ with hrun
    · obtain rfl := Option.some.inj hst
      refine ⟨hrun.symm,rfl,by simp,fun r hr heq => ?_⟩
      have := (h.old r hr).2
      rw [heq,hrun] at this
      omega
    · obtain ⟨hr,hrev,hin,hlt⟩ := h.newest run st hst
      exact ⟨hr,hrev,List.mem_append_left _ hin,hlt⟩
  · obtain ⟨hin,hle⟩ := h.old r hr
    refine ⟨List.mem_append_left _ hin,?_⟩
    rw [Table.find?_insert]
    split_ifs with hrun
    · rw [hrun] at hle
      exact hle.trans hnew.le
    · exact hle
  · rw [Table.find?_insert] at hn ⊢
    split_ifs at hn ⊢ with hrun
    · exact .inl ⟨state,rfl,Option.some.inj hn⟩
    · exact h.top run n hn
  · rw [Table.find?_insert]
    rcases List.mem_append.mp hp with hp | hp
    · obtain ⟨hpos,hle⟩ := h.kept he p hp
      refine ⟨hpos,?_⟩
      split_ifs with hrun
      · rw [hrun] at hle
        exact hle.trans hnew.le
      · exact hle
    · obtain rfl := List.mem_singleton.mp hp
      rw [if_pos rfl]
      exact ⟨Nat.zero_lt_of_lt hnew,le_rfl⟩

theorem ignore (h : Views everything latest revisions published returned) {state : SearchState S}
    (hold : everything = true → state.revision ≤ (revisions.find? state.run).getD 0) (hpos : 0 < state.revision) :
    Views everything latest revisions (published ++ [state]) returned := by
  refine ⟨fun run st hst => ?_,fun r hr => ?_,h.top,fun he p hp => ?_,h.rising⟩
  · obtain ⟨hr,hrev,hin,hlt⟩ := h.newest run st hst
    exact ⟨hr,hrev,List.mem_append_left _ hin,hlt⟩
  · exact ⟨List.mem_append_left _ (h.old r hr).1,(h.old r hr).2⟩
  · rcases List.mem_append.mp hp with hp | hp
    · exact h.kept he p hp
    · obtain rfl := List.mem_singleton.mp hp
      exact ⟨hpos,hold he⟩

theorem take (h : Views everything latest revisions published returned) :
    Views everything ∅ revisions published (returned ++ latest.values) := by
  have hvalue : ∀ state ∈ latest.values, latest.find? state.run = some state := by
    intro state hstate
    obtain ⟨run,hrun⟩ := Table.mem_values.mp hstate
    rw [(h.newest run state hrun).1]
    exact hrun
  refine ⟨fun _ _ hst => (by cases hst),fun r hr => ?_,fun run n hn => .inr ?_,h.kept,?_⟩
  · rcases List.mem_append.mp hr with hr | hr
    · exact h.old r hr
    · obtain ⟨-,hrev,hin,-⟩ := h.newest _ r (hvalue r hr)
      exact ⟨hin,by rw [hrev]; rfl⟩
  · rcases h.top run n hn with ⟨state,hstate,hrev⟩ | ⟨r,hr,hrun,hrev⟩
    · exact ⟨state,List.mem_append_right _ (Table.mem_values.mpr ⟨run,hstate⟩),(h.newest run state hstate).1,hrev⟩
    · exact ⟨r,List.mem_append_left _ hr,hrun,hrev⟩
  · refine List.pairwise_append.mpr ⟨h.rising,?_,fun a ha b hb heq => ?_⟩
    · -- there is one view for each run
      have hdistinct : (latest.items).Pairwise fun a b => a.2.run = b.2.run → a.2.revision < b.2.revision := by
        refine List.Pairwise.imp_of_mem (fun {a b} ha hb hlt heq => ?_) latest.sorted
        have hruna : a.2.run = a.1 := (h.newest a.1 a.2 (Table.find?_eq_some.mpr ha)).1
        have hrunb : b.2.run = b.1 := (h.newest b.1 b.2 (Table.find?_eq_some.mpr hb)).1
        exact absurd (hruna.symm.trans (heq.trans hrunb)) (ne_of_lt hlt)
      exact List.pairwise_map.mpr hdistinct
    · exact (h.newest _ b (hvalue b hb)).2.2.2 a ha heq

end Views

/-! ## The reader -/

structure Reader.Inv (interest : Interest) (w : Reader β S) : Prop where
  wants : w.sub.interest = interest
  lags : w.sub.lagged = true → w.lost = true ∧ w.sub.ready = [] ∧ w.sub.order = [] ∧ w.taken <+: w.since
  queues : w.sub.lagged = false → w.lost = false ∧ w.taken ++ storedOf w.sub.ready = w.since
  plain : searchOf w.sub.ready = []
  views : Views interest.Everything w.sub.latest w.sub.revisions w.published w.returned

namespace Reader

variable {l : Limits} {interest : Interest} {w : Reader β S} {size : Delta β → ℕ}

theorem inv_start (interest : Interest) : (start β S interest).Inv interest :=
  ⟨rfl,fun h => (by cases h),fun _ => ⟨rfl,rfl⟩,rfl,Views.start⟩

theorem Inv.quiet (h : w.Inv interest) {sub : Subscription β S} (hquiet : w.sub.Quiet sub)
    (hempty : w.sub.lagged = true → sub.ready = [] ∧ sub.order = []) :
    ({ w with sub := sub } : Reader β S).Inv interest := by
  refine ⟨hquiet.interest.trans h.wants,fun hlag => ?_,fun hlag => ?_,?_,?_⟩
  · have hwas : w.sub.lagged = true := hquiet.lagged.symm.trans hlag
    obtain ⟨hlost,-,-,hpfx⟩ := h.lags hwas
    exact ⟨hlost,(hempty hwas).1,(hempty hwas).2,hpfx⟩
  · obtain ⟨hlost,heq⟩ := h.queues (hquiet.lagged.symm.trans hlag)
    refine ⟨hlost,?_⟩
    show w.taken ++ storedOf sub.ready = w.since
    rw [hquiet.stored]
    exact heq
  · exact hquiet.searches.trans h.plain
  · show Views interest.Everything sub.latest sub.revisions w.published w.returned
    rw [hquiet.latest,hquiet.revisions]
    exact h.views

theorem Inv.publishStored (h : w.Inv interest) (st : Stored β) :
    (w.step size l (.publishStored st)).Inv interest := by
  simp only [step,Subscription.publishStored]
  split
  · rename_i hwanted
    cases hlag : w.sub.lagged with
    | true =>
      -- the event is not queued, as the client was not resumed yet
      obtain ⟨hlost,hready,horder,hpfx⟩ := h.lags hlag
      have hsame : w.sub.addStored st st.Change.size l = w.sub := by
        unfold Subscription.addStored
        rw [if_pos hlag]
      rw [hsame]
      refine ⟨h.wants,fun _ => ⟨?_,hready,horder,hpfx.trans (List.prefix_append _ _)⟩,fun hno => ?_,h.plain,h.views⟩
      · show (w.lost || _) = true
        rw [hlost,Bool.true_or]
      · exact absurd (hlag.symm.trans hno) Bool.true_eq_false.mp
    | false =>
      obtain ⟨hnot,heq⟩ := h.queues hlag
      obtain ⟨hinterest,hlatest,hrevisions,hcases⟩ := Subscription.addStored_cases w.sub st st.Change.size l hlag
      have hviews : Views interest.Everything (w.sub.addStored st st.Change.size l).latest
          (w.sub.addStored st st.Change.size l).revisions w.published w.returned := by
        rw [hlatest,hrevisions]
        exact h.views
      rcases hcases with ⟨hnow,hready,horder⟩ | ⟨hnow,hqueued,hplain⟩
      · refine ⟨hinterest.trans h.wants,fun _ => ⟨?_,hready,horder,?_⟩,fun hno => ?_,?_,hviews⟩
        · show (w.lost || decide ((storedOf (w.sub.addStored st st.Change.size l).ready).length ≤ _)) = true
          rw [hready]
          simp [storedOf]
        · show w.taken <+: w.since ++ [st]
          rw [← heq,List.append_assoc]
          exact List.prefix_append _ _
        · exact absurd (hnow.symm.trans hno) Bool.true_eq_false.mp
        · show searchOf (w.sub.addStored st st.Change.size l).ready = []
          rw [hready]
          rfl
      · refine ⟨hinterest.trans h.wants,fun hyes => ?_,fun _ => ⟨?_,?_⟩,hplain.trans h.plain,hviews⟩
        · exact absurd (hnow.symm.trans hyes) Bool.false_ne_true
        · show (w.lost || decide ((storedOf (w.sub.addStored st st.Change.size l).ready).length ≤ _)) = false
          rw [hqueued,hnot]
          simp
        · show w.taken ++ storedOf (w.sub.addStored st st.Change.size l).ready = w.since ++ [st]
          rw [hqueued,← heq,List.append_assoc]
  · exact h

theorem Inv.publishLatest (h : w.Inv interest) (run : RunID) (state : SearchState S) :
    (w.step size l (.publishLatest run state)).Inv interest := by
  simp only [step,Subscription.publishLatest]
  by_cases hbad : state.run ≠ run ∨ state.revision = 0
  · rw [if_pos hbad]
    exact h
  obtain ⟨hrun,hrevision⟩ := not_or.mp hbad
  obtain rfl := not_not.mp hrun
  rw [if_neg hbad]
  by_cases hnewer : w.sub.interest.Everything = true ∧ state.revision > (w.sub.revisions.find? state.run).getD 0
  · rw [if_pos hnewer]
    exact ⟨h.wants,h.lags,h.queues,h.plain,h.views.publish hnewer.2⟩
  · rw [if_neg hnewer]
    refine ⟨h.wants,h.lags,h.queues,h.plain,h.views.ignore (fun he => ?_) ?_⟩
    · rw [← h.wants] at he
      exact not_lt.mp fun hlt => hnewer ⟨he,hlt⟩
    · exact Nat.pos_of_ne_zero hrevision

theorem Inv.publishDelta (h : w.Inv interest) (d : Delta β) : (w.step size l (.publishDelta d)).Inv interest := by
  refine h.quiet (Subscription.quiet_publishDelta size w.sub d l) fun hlag => ?_
  obtain ⟨-,hready,horder,-⟩ := h.lags hlag
  rw [Subscription.publishDelta_of_lagged size d l hlag]
  exact ⟨hready,horder⟩

theorem Inv.flush (h : w.Inv interest) : (w.step size l .flush).Inv interest := by
  refine h.quiet (Subscription.quiet_flush size w.sub) fun hlag => ?_
  obtain ⟨-,hready,horder,-⟩ := h.lags hlag
  obtain ⟨hready',horder'⟩ := Subscription.flush_of_order size horder
  exact ⟨hready'.trans hready,horder'⟩

theorem Inv.take (h : w.Inv interest) : (w.step size l .take).Inv interest := by
  simp only [step]
  cases hlag : w.sub.lagged with
  | true =>
    obtain ⟨hlost,hready,horder,hpfx⟩ := h.lags hlag
    rw [Subscription.Take_of_lagged hlag]
    refine ⟨h.wants,fun _ => ⟨hlost,hready,horder,?_⟩,fun hno => ?_,h.plain,?_⟩
    · show w.taken ++ [] <+: w.since
      rw [List.append_nil]
      exact hpfx
    · exact absurd (hlag.symm.trans hno) Bool.true_eq_false.mp
    · show Views interest.Everything w.sub.latest w.sub.revisions w.published (w.returned ++ [])
      rw [List.append_nil]
      exact h.views
  | false =>
    obtain ⟨hnot,heq⟩ := h.queues hlag
    have hnow : w.sub.Take.sub.lagged = false := by
      rw [Subscription.Take_of_queued hlag]
      exact hlag
    refine ⟨?_,fun hyes => ?_,fun _ => ⟨hnot,?_⟩,?_,?_⟩
    · rw [Subscription.Take_of_queued hlag]
      exact h.wants
    · exact absurd (hnow.symm.trans hyes) Bool.false_ne_true
    · rw [Subscription.Take_of_queued hlag]
      show (w.taken ++ storedOf (w.sub.ready ++ w.sub.latest.values.map Message.search)) ++ [] = w.since
      rw [storedOf_append,storedOf_search,List.append_nil,List.append_nil]
      exact heq
    · rw [Subscription.Take_of_queued hlag]
      rfl
    · rw [Subscription.Take_of_queued hlag]
      show Views interest.Everything ∅ w.sub.revisions w.published
        (w.returned ++ searchOf (w.sub.ready ++ w.sub.latest.values.map Message.search))
      rw [searchOf_append,searchOf_search,h.plain,List.nil_append]
      exact h.views.take

theorem Inv.resume (h : w.Inv interest) (hmeets : w.Meets .resume) : (w.step size l .resume).Inv interest := by
  obtain ⟨-,hready,-,-⟩ := h.lags hmeets
  refine ⟨h.wants,fun hyes => (by cases hyes),fun _ => ⟨rfl,?_⟩,h.plain,h.views⟩
  show [] ++ storedOf w.sub.ready = []
  rw [hready]
  rfl

theorem Inv.step (h : w.Inv interest) (op : Op β S) (hmeets : w.Meets op) :
    (w.step size l op).Inv interest := by
  cases op with
  | publishStored st => exact h.publishStored st
  | publishLatest run state => exact h.publishLatest run state
  | publishDelta d => exact h.publishDelta d
  | flush => exact h.flush
  | take => exact h.take
  | resume => exact h.resume hmeets

theorem booked_step (hl : 0 < l.MaxItems) (hbooked : w.sub.Booked) (hfew : w.sub.count ≤ l.MaxItems) (op : Op β S) :
    (w.step size l op).sub.Booked ∧ (w.step size l op).sub.count ≤ l.MaxItems := by
  cases op with
  | publishStored st =>
    have hkept : (w.sub.publishStored st l).Booked ∧ (w.sub.publishStored st l).count ≤ l.MaxItems := by
      unfold Subscription.publishStored
      split
      · exact ⟨hbooked.addStored st _ l,Subscription.addStored_count_le st _ hl hfew⟩
      · exact ⟨hbooked,hfew⟩
    simp only [step]
    split <;> exact hkept
  | publishLatest run state =>
    simp only [step]
    split
    · next sub hsub =>
      unfold Subscription.publishLatest at hsub
      obtain ⟨-,hsub⟩ := Option.ite_none_left_eq_some.mp hsub
      split at hsub <;> cases hsub <;> exact ⟨hbooked,hfew⟩
    · exact ⟨hbooked,hfew⟩
  | publishDelta d =>
    show (w.sub.publishDelta size d l).Booked ∧ (w.sub.publishDelta size d l).count ≤ l.MaxItems
    unfold Subscription.publishDelta
    split
    · exact ⟨hbooked.addDelta size d l,hbooked.addDelta_count_le size d hfew⟩
    · exact ⟨hbooked,hfew⟩
  | flush => exact ⟨hbooked.flush size,(Subscription.count_flush size w.sub).trans_le hfew⟩
  | take =>
    refine ⟨hbooked.take,?_⟩
    show w.sub.Take.sub.count ≤ l.MaxItems
    cases hlag : w.sub.lagged with
    | true =>
      rw [Subscription.Take_of_lagged hlag]
      exact hfew
    | false =>
      rw [Subscription.Take_of_queued hlag]
      exact (Int.sub_le_self _ (Int.natCast_nonneg _)).trans hfew
  | resume => exact ⟨hbooked,hfew⟩

end Reader

/-! ## The counters, over the map of deltas being merged -/

section Books

variable {ready : List (Message β S)} {pending : Table DeltaKey (PendingDelta β)} {order : List DeltaKey} {count bytes : ℤ}

theorem Books.perm_keys (h : Books ready pending order count bytes) : order.Perm pending.keys := by
  refine (List.perm_ext_iff_of_nodup h.nodup pending.nodup_keys).mpr fun k => ?_
  rw [h.mem,Table.mem_keys,Option.isSome_iff_exists]

theorem map_sizeUnder_keys (pending : Table DeltaKey (PendingDelta β)) :
    pending.keys.map (sizeUnder pending) = pending.values.map PendingDelta.size := by
  rw [Table.keys,Table.values,List.keys,List.map_map,List.map_map]
  refine List.map_congr_left fun e he => ?_
  have hfind : pending.find? e.1 = some e.2 := Table.find?_eq_some.mpr he
  show sizeUnder pending e.1 = e.2.size
  rw [sizeUnder,hfind]
  rfl

theorem Books.count_keys (h : Books ready pending order count bytes) : count = ready.length+pending.keys.length := by
  rw [h.count,h.perm_keys.length_eq]

theorem Books.bytes_values (h : Books ready pending order count bytes) :
    bytes = (ready.map Message.size).sum+(pending.values.map PendingDelta.size).sum := by
  rw [h.bytes,(h.perm_keys.map _).sum_eq,map_sizeUnder_keys]

end Books

/-! ## Every run -/

/-- The counters of a subscription are right, and it is not overfull. -/
structure Reader.Counted (l : Limits) (w : Reader β S) : Prop where
  count : w.sub.count = w.sub.ready.length+w.sub.pending.keys.length
  few : w.sub.count ≤ l.MaxItems
  bytes : w.sub.bytes = (w.sub.ready.map Message.size).sum+(w.sub.pending.values.map PendingDelta.size).sum

/-- What a client was given so far and would be given by a take now. -/
structure Reader.Faithful (interest : Interest) (w : Reader β S) : Prop where
  /-- The events taken are the first of those published. -/
  once : w.taken <+: w.since
  all : w.sub.Take.lagged = false → w.taken ++ storedOf w.sub.Take.messages = w.since
  lag : w.sub.Take.lagged = true ↔ w.lost = true
  views : ∀ r ∈ w.returned ++ searchOf w.sub.Take.messages, r ∈ w.published
  rising : (w.returned ++ searchOf w.sub.Take.messages).Pairwise fun a b => a.run = b.run → a.revision < b.revision
  newest : interest.Everything = true → w.sub.Take.lagged = false → ∀ p ∈ w.published,
    ∃ r ∈ w.returned ++ searchOf w.sub.Take.messages, r.run = p.run ∧ p.revision ≤ r.revision

namespace Reader

variable {l : Limits} {interest : Interest} {w : Reader β S}

theorem Inv.faithful (h : w.Inv interest) : w.Faithful interest := by
  cases hlag : w.sub.lagged with
  | true =>
    obtain ⟨hlost,-,-,hpfx⟩ := h.lags hlag
    have htake := Subscription.Take_of_lagged hlag
    have hlagged : w.sub.Take.lagged = true := by rw [htake]
    have hnone : w.returned ++ searchOf w.sub.Take.messages = w.returned := by
      rw [htake]
      exact List.append_nil _
    refine ⟨hpfx,fun hno => ?_,⟨fun _ => hlost,fun _ => hlagged⟩,?_,?_,fun _ hno => ?_⟩
    · exact absurd (hlagged.symm.trans hno) Bool.true_eq_false.mp
    · rw [hnone]
      exact fun r hr => (h.views.old r hr).1
    · rw [hnone]
      exact h.views.rising
    · exact absurd (hlagged.symm.trans hno) Bool.true_eq_false.mp
  | false =>
    obtain ⟨hnot,heq⟩ := h.queues hlag
    have htake := Subscription.Take_of_queued hlag
    have hlagged : w.sub.Take.lagged = false := by rw [htake]
    have hstored : storedOf w.sub.Take.messages = storedOf w.sub.ready := by
      rw [htake,storedOf_append,storedOf_search,List.append_nil]
    have hsearch : searchOf w.sub.Take.messages = w.sub.latest.values := by
      rw [htake,searchOf_append,searchOf_search,h.plain,List.nil_append]
    have hviews := h.views.take
    refine ⟨?_,fun _ => ?_,⟨fun hyes => ?_,fun hyes => ?_⟩,?_,?_,fun he _ p hp => ?_⟩
    · rw [← heq]
      exact List.prefix_append _ _
    · rw [hstored]
      exact heq
    · exact absurd (hlagged.symm.trans hyes) Bool.false_ne_true
    · exact absurd (hnot.symm.trans hyes) Bool.false_ne_true
    · rw [hsearch]
      exact fun r hr => (hviews.old r hr).1
    · rw [hsearch]
      exact hviews.rising
    · -- the run has a revision at least as new, and its view was returned now or before
      obtain ⟨hpos,hle⟩ := hviews.kept he p hp
      rw [hsearch]
      cases hfind : w.sub.revisions.find? p.run with
      | none =>
        rw [hfind,Option.getD_none] at hle
        omega
      | some n =>
        rw [hfind,Option.getD_some] at hle
        rcases hviews.top p.run n hfind with ⟨_,hstate,-⟩ | ⟨r,hr,hrun,hrev⟩
        · cases hstate
        · exact ⟨r,hr,hrun,hle.trans hrev.ge⟩

end Reader

/-- Whatever is published and whenever the client takes and is resumed, the counters are right; and if it is resumed only
while it lags, no event is lost or repeated. -/
theorem no_event_is_lost_or_repeated (size : Delta β → ℕ) (l : Limits) (hitems : 0 < l.MaxItems)
    (interest : Interest) (ops : List (Op β S)) :
    (run (Reader.step size l) (Reader.start β S interest) ops).Counted l ∧
      (Along (Reader.step size l) Reader.Meets (Reader.start β S interest) ops →
        (run (Reader.step size l) (Reader.start β S interest) ops).Faithful interest) := by
  obtain ⟨hbooked,hfew⟩ := @run_invariant _ _ (Reader.step size l) (fun w => w.sub.Booked ∧ w.sub.count ≤ l.MaxItems)
    (fun _ op h => Reader.booked_step hitems h.1 h.2 op) (Reader.start β S interest)
    ⟨Subscription.booked_subscribe interest,hitems.le⟩ ops
  refine ⟨⟨Books.count_keys hbooked,hfew,Books.bytes_values hbooked⟩,fun hmeets => ?_⟩
  exact (hmeets.invariant (fun _ op h hop => h.step op hop) (Reader.inv_start interest)).faithful

def changeOf (sequence : ℕ) : Stored ℕ := { Change := { sequence := sequence, run := "r", size := 1 } }

/-- A client that falls behind, is told, and goes on. -/
def fallsBehind : List (Op ℕ ℕ) :=
  [.publishStored (changeOf 1),.take,.publishStored (changeOf 2),.publishStored (changeOf 3),
    .publishLatest "r" ⟨"r",4,0⟩,.take,.resume,.publishStored (changeOf 4)]

theorem no_event_is_lost_or_repeated_behind :
    (run (Reader.step (fun _ => 1) ⟨1,9⟩) (Reader.start ℕ ℕ { Everything := true }) fallsBehind).Faithful
      { Everything := true } :=
  (no_event_is_lost_or_repeated (fun _ => 1) ⟨1,9⟩ (by decide) { Everything := true } fallsBehind).2 (by decide +kernel)

/-- A client of everything after an event that was not queued. -/
def overflowed : Reader ℕ ℕ :=
  run (Reader.step (fun _ => 1) ⟨1,9⟩) (Reader.start ℕ ℕ { Everything := true })
    [.publishStored (changeOf 1),.publishStored (changeOf 2)]

/-- A client that is resumed while an event is queued for it. -/
def unlagged : Reader ℕ ℕ :=
  run (Reader.step (fun _ => 1) ⟨1,9⟩) (Reader.start ℕ ℕ { Everything := true }) [.publishStored (changeOf 1),.resume]

/-- A client of one agent after a view of a search was published. -/
def unviewed : Reader ℕ ℕ :=
  run (Reader.step (fun _ => 1) ⟨1,9⟩) (Reader.start ℕ ℕ { Agent := "a" }) [.publishLatest "r" ⟨"r",4,0⟩]

/-- A client that resumes without a take is not told that an event was not queued, one that resumes without a lag is given
an event from before, and one that watches a single agent is given no view of a search. -/
theorem resume_before_take_hides_a_lag :
    (overflowed.lost = true ∧ (overflowed.step (fun _ => 1) ⟨1,9⟩ .resume).sub.Take.lagged = false ∧
      storedOf (overflowed.step (fun _ => 1) ⟨1,9⟩ .resume).sub.Take.messages = []) ∧
    (unlagged.since = [] ∧ storedOf unlagged.sub.Take.messages = [changeOf 1]) ∧
    unviewed.published ≠ [] ∧ unviewed.sub.Take.lagged = false ∧ searchOf unviewed.sub.Take.messages = [] := by
  decide +kernel

end Vibesys.Hub
