import Vibesys.Lifecycle.PerJob

/-!
# What the scheduler makes of one job

After every event the machine takes up the parked jobs whose cancel was asked for and carries out
the scheduler's decisions. Each decision names its job by the text of its reference, and no two
references have the same text, so a job sees at most one decision.
-/
namespace Vibesys.Lifecycle
open Vibesys.Core Vibesys.Schedule Vibesys.Library

lemma takeWhile_store (store : StoreID) (job : List Char) :
    (store.text.toList ++ '-' :: job).takeWhile (· ≠ '-') = store.text.toList := by
  rw [List.takeWhile_append_of_pos]
  · simp
  · intro c hc
    simpa using fun h : c = '-' => store.noDash (h ▸ hc)

theorem idOf_injective : Function.Injective idOf := by
  intro a b h
  have hlist : a.store.text.toList ++ '-' :: a.job.toList = b.store.text.toList ++ '-' :: b.job.toList := by
    have := congrArg String.toList h
    simpa [idOf,Ref.String] using this
  have hstore := congrArg (List.takeWhile (· ≠ '-')) hlist
  rw [takeWhile_store,takeWhile_store] at hstore
  rw [hstore,List.append_cancel_left_eq,List.cons.injEq] at hlist
  have hjob := hlist.2
  obtain ⟨⟨astore,ha⟩,ajob⟩ := a
  obtain ⟨⟨bstore,hb⟩,bjob⟩ := b
  obtain rfl : astore = bstore := String.toList_inj.mp hstore
  obtain rfl : ajob = bjob := String.toList_inj.mp hjob
  rfl

@[simp] lemma Entry.decided_ref (cur : Entry) (d : Decision) : (cur.decided d).ref = cur.ref := by
  cases d with
  | start id option => by_cases h : cur.parked = true <;> simp [decided,adopt,h]
  | wait id why => rfl
  | refuse id detail => rfl

namespace State

lemma find?_idOf (s : State) (r : Ref) : s.entries.items.find? (fun e => idOf e.ref = idOf r) = s.find r := by
  simp only [idOf_injective.eq_iff]
  rfl

lemma adoptCancelled_find (s : State) (r : Ref) : s.adoptCancelled.1.find r = (s.find r).map takenUp :=
  Roster.find_map s.entries takenUp takenUp_ref r

lemma adoptCancelled_requests (s : State) (r : Ref) : requestsFor r s.adoptCancelled.2 =
    (s.find r).elim [] fun e => if takesUpCancelled e then [e.adopt.adoptRequest s.resources] else [] := by
  have hfilter : requestsFor r s.adoptCancelled.2 =
      ((s.entries.items.filter fun e => e.ref = r).filter takesUpCancelled).map
        fun e => e.adopt.adoptRequest s.resources := by
    rw [requestsFor,adoptCancelled,List.filter_map,List.filter_filter,List.filter_filter]
    congr 1
    refine List.filter_congr fun e _ => ?_
    exact Bool.and_comm ..
  rw [hfilter,Roster.filter_key]
  change _ = (s.entries.find r).elim [] _
  cases s.entries.find r with
  | none => rfl
  | some e => by_cases h : takesUpCancelled e = true <;> simp [h]

lemma find?_target (s : State) (d : Decision) {cur : Entry}
    (h : s.entries.items.find? (fun e => idOf e.ref = d.Target) = some cur) :
    d.Target = idOf cur.ref ∧ s.find cur.ref = some cur := by
  have hid : idOf cur.ref = d.Target := by simpa using List.find?_some h
  refine ⟨hid.symm,?_⟩
  rw [← find?_idOf,hid]
  exact h

lemma decided_find (x : State × List Request) (d : Decision) (r : Ref) :
    (decided x d).1.find r = if d.Target = idOf r then (x.1.find r).map fun cur => cur.decided d else x.1.find r := by
  unfold decided
  cases hcur : x.1.entries.items.find? (fun e => idOf e.ref = d.Target) with
  | none =>
    split_ifs with hr
    · rw [hr,find?_idOf] at hcur
      simp [hcur]
    · rfl
  | some cur =>
    obtain ⟨hid,hfind⟩ := x.1.find?_target d hcur
    have hput := Roster.find_put x.1.entries (cur.decided d) r
    rw [Entry.decided_ref] at hput
    refine hput.trans ?_
    simp only [hid,idOf_injective.eq_iff]
    split_ifs with hr
    · subst hr
      change (x.1.find cur.ref).map _ = _
      rw [hfind]
      rfl
    · rfl

lemma decidedRequests_target (resources : List Resource) (cur : Entry) (d : Decision) :
    ∀ q ∈ cur.decidedRequests resources d, q.Target = cur.ref := by
  cases d with
  | start id option =>
    by_cases h : cur.parked = true
    · simp [Entry.decidedRequests,h,Entry.adoptRequest,Request.Target]
    · simp [Entry.decidedRequests,h,Request.Target]
  | wait id why => simp [Entry.decidedRequests]
  | refuse id detail => simp [Entry.decidedRequests]

lemma decided_requests (x : State × List Request) (d : Decision) (r : Ref) :
    requestsFor r (decided x d).2 = requestsFor r x.2 ++
      if d.Target = idOf r then (x.1.find r).elim [] fun cur => cur.decidedRequests x.1.resources d else [] := by
  unfold decided
  cases hcur : x.1.entries.items.find? (fun e => idOf e.ref = d.Target) with
  | none =>
    split_ifs with hr
    · rw [hr,find?_idOf] at hcur
      simp [hcur]
    · simp
  | some cur =>
    obtain ⟨hid,hfind⟩ := x.1.find?_target d hcur
    have htarget := decidedRequests_target x.1.resources cur d
    simp only [requestsFor_append,hid,idOf_injective.eq_iff]
    split_ifs with hr
    · subst hr
      rw [requestsFor_of_target htarget,hfind]
      rfl
    · rw [requestsFor_of_ne htarget hr]

@[simp] lemma decided_resources (x : State × List Request) (d : Decision) :
    (decided x d).1.resources = x.1.resources := by
  unfold decided
  split <;> rfl

/-- The decision for a job, if the scheduler made one. -/
def decisionFor (ds : List Decision) (r : Ref) : Option Decision := ds.find? fun d => d.Target = idOf r

lemma foldl_decided (ds : List Decision) (h : (ds.map Decision.Target).Nodup) (x : State × List Request) (r : Ref) :
    (ds.foldl decided x).1.find r =
      (x.1.find r).map (fun cur => (decisionFor ds r).elim cur fun d => cur.decided d) ∧
    requestsFor r (ds.foldl decided x).2 = requestsFor r x.2 ++
      (x.1.find r).elim [] fun cur => (decisionFor ds r).elim [] fun d => cur.decidedRequests x.1.resources d := by
  induction ds generalizing x with
  | nil => cases hx : x.1.find r <;> simp [decisionFor,hx]
  | cons d ds ih =>
    obtain ⟨hnotin,hrest⟩ := List.nodup_cons.mp h
    obtain ⟨hfind,hreqs⟩ := ih hrest (decided x d)
    rw [List.foldl_cons,hfind,hreqs,decided_find,decided_requests,decided_resources]
    by_cases hd : d.Target = idOf r
    · have hnone : decisionFor ds r = none := by
        refine List.find?_eq_none.mpr fun d' hd' htarget => hnotin ?_
        rw [hd]
        exact List.mem_map.mpr ⟨d',hd',by simpa using htarget⟩
      have hsome : decisionFor (d :: ds) r = some d := by simp [decisionFor,hd]
      cases hx : x.1.find r <;> simp [hd,hnone,hsome]
    · have hsame : decisionFor (d :: ds) r = decisionFor ds r := by simp [decisionFor,hd]
      simp [hd,hsame]

lemma candidateOf_id {s : State} {e : Entry} {c : Candidate} (h : s.candidateOf e = some c) : c.id = idOf e.ref := by
  unfold candidateOf at h
  split_ifs at h <;> cases h <;> rfl

lemma mem_candidates {s : State} {c : Candidate} (h : c ∈ s.scheduled.waiting) :
    ∃ e ∈ s.entries.items, s.candidateOf e = some c := by
  simpa [scheduled] using h

lemma candidates_nodup (s : State) : (s.scheduled.waiting.map Candidate.id).Nodup := by
  have hsub : ∀ items : List Entry,
      ((items.filterMap s.candidateOf).map Candidate.id).Sublist ((items.map Entry.ref).map idOf) := by
    intro items
    induction items with
    | nil => exact List.Sublist.slnil
    | cons e items ih =>
      cases hc : s.candidateOf e with
      | none => simpa [hc] using ih.cons _
      | some c =>
        rw [List.filterMap_cons_some hc,List.map_cons,List.map_cons,List.map_cons,candidateOf_id hc]
        exact ih.cons_cons _
  exact (s.entries.nodup.map idOf_injective).sublist (hsub _)

lemma step_targets_perm {st : Schedule.State} (h : (st.waiting.map Candidate.id).Nodup) (rules : Rules) :
    ((Schedule.step st rules).map Decision.Target).Perm (st.waiting.map Candidate.id) := by
  rw [Schedule.step,Book.decideAll_targets]
  exact (considered_perm h rules).map _

def decisions (s : State) : List Decision :=
  if s.recovering then [] else Schedule.step s.adoptCancelled.1.scheduled s.scheduling.rules

lemma schedule_eq (s : State) : s.schedule = s.decisions.foldl decided s.adoptCancelled := by
  unfold schedule decisions
  split_ifs <;> rfl

lemma decisions_nodup (s : State) : (s.decisions.map Decision.Target).Nodup := by
  unfold decisions
  split_ifs
  · exact List.nodup_nil
  · exact (step_targets_perm s.adoptCancelled.1.candidates_nodup _).nodup_iff.mpr s.adoptCancelled.1.candidates_nodup

lemma candidate_of_decision {s : State} {d : Decision} (hd : d ∈ s.decisions) {r : Ref}
    (hr : d.Target = idOf r) : s.recovering = false ∧ ∃ cur c, s.adoptCancelled.1.find r = some cur ∧
      s.adoptCancelled.1.candidateOf cur = some c := by
  unfold decisions at hd
  split_ifs at hd with hrec
  · simp at hd
  have hmem : d.Target ∈ s.adoptCancelled.1.scheduled.waiting.map Candidate.id :=
    (step_targets_perm s.adoptCancelled.1.candidates_nodup _).mem_iff.mp (List.mem_map_of_mem hd)
  obtain ⟨c,hc,hid⟩ := List.mem_map.mp hmem
  obtain ⟨cur,hcur,hcand⟩ := mem_candidates hc
  have href : cur.ref = r := idOf_injective ((candidateOf_id hcand).symm.trans (hid.trans hr))
  exact ⟨by simpa using hrec,cur,c,href ▸ Roster.mem_iff.mp hcur,hcand⟩

/-- What the scheduler can make of a job: nothing, or a job with a parked supervisor is taken up, or
a queued one of a store that does not hold it back is launched. -/
inductive Scheduled (s : State) (cur : Entry) : Entry → List Request → Prop
  | waits (wait : Option WaitReason) (refused : String) (h : takesUpCancelled cur = false) :
      Scheduled s cur { cur with wait := wait, refused := refused } []
  | cancelled (h : takesUpCancelled cur = true) :
      Scheduled s cur cur.adopt.unwaited [cur.adopt.adoptRequest s.resources]
  | adopted (option : JobOption) (hparked : cur.parked = true) (hcancel : cur.cancelAsked = false)
      (hphase : cur.holdsMachine = false) (hrecovered : s.recovering = false)
      (hstart : .start (idOf cur.ref) option ∈ s.decisions) :
      Scheduled s cur ({ cur.unwaited with placed := some option }).adopt
        [({ cur.unwaited with placed := some option }).adopt.adoptRequest s.resources]
  | launched (option : JobOption) (hparked : cur.parked = false) (hphase : cur.phase = .queued)
      (hstore : s.adoptCancelled.1.storeBlocked cur.ref.store = false) (hrecovered : s.recovering = false)
      (hstart : .start (idOf cur.ref) option ∈ s.decisions) :
      Scheduled s cur { cur.unwaited with placed := some option, phase := .launching }
        [.launch cur.ref option.placement (({ cur.unwaited with
          placed := some option, phase := .launching } : Entry).leasesOf s.resources)]

lemma takenUp_of_cancelled {cur : Entry} (h : takesUpCancelled cur = true) : takenUp cur = cur.adopt.unwaited := by
  simp [takenUp,h]

lemma takenUp_of_not {cur : Entry} (h : takesUpCancelled cur = false) : takenUp cur = cur.unwaited := by
  simp [takenUp,h]

/-- What the scheduler makes of a job the machine holds. -/
theorem schedule_some {s : State} {r : Ref} {cur : Entry} (h : s.find r = some cur) :
    ∃ cur' reqs, Scheduled s cur cur' reqs ∧ s.schedule.1.find r = some cur' ∧
      requestsFor r s.schedule.2 = reqs := by
  obtain ⟨hfind,hreqs⟩ := foldl_decided s.decisions s.decisions_nodup s.adoptCancelled r
  have hmid : s.adoptCancelled.1.find r = some (takenUp cur) := by rw [adoptCancelled_find,h]; rfl
  have hresources : s.adoptCancelled.1.resources = s.resources := rfl
  rw [← schedule_eq,hmid] at hfind hreqs
  rw [adoptCancelled_requests,h,hresources] at hreqs
  simp only [Option.map_some,Option.elim_some] at hfind hreqs
  have hcand : ∀ d, decisionFor s.decisions r = some d →
      s.recovering = false ∧ ∃ c, s.adoptCancelled.1.candidateOf (takenUp cur) = some c := by
    intro d hd
    obtain ⟨hrec,cur',c,hcur',hc⟩ :=
      candidate_of_decision (List.mem_of_find?_eq_some hd) (by simpa using List.find?_some hd)
    obtain rfl : takenUp cur = cur' := Option.some.inj (hmid.symm.trans hcur')
    exact ⟨hrec,c,hc⟩
  by_cases hcancel : takesUpCancelled cur = true
  · have hnone : decisionFor s.decisions r = none := by
      cases hd : decisionFor s.decisions r with
      | none => rfl
      | some d =>
        obtain ⟨_,c,hc⟩ := hcand d hd
        simp [takenUp_of_cancelled hcancel,candidateOf,Entry.holdsMachine,Entry.adopt,Entry.unwaited] at hc
    rw [hnone] at hfind hreqs
    refine ⟨_,_,.cancelled hcancel,?_,?_⟩
    · rw [hfind,takenUp_of_cancelled hcancel]
      rfl
    · simpa [hcancel] using hreqs
  · have hcancel : takesUpCancelled cur = false := by simpa using hcancel
    rw [takenUp_of_not hcancel] at hfind hreqs hcand
    simp only [hcancel] at hreqs
    cases hd : decisionFor s.decisions r with
    | none =>
      rw [hd] at hfind hreqs
      exact ⟨_,_,.waits none "" hcancel,hfind,by simpa using hreqs⟩
    | some d =>
      obtain ⟨hrec,c,hc⟩ := hcand d hd
      rw [hd] at hfind hreqs
      cases d with
      | wait id why => exact ⟨_,_,.waits (some why) "" hcancel,hfind,by simpa [Entry.decidedRequests] using hreqs⟩
      | refuse id detail => exact ⟨_,_,.waits none detail hcancel,hfind,by simpa [Entry.decidedRequests] using hreqs⟩
      | start id option =>
        have hstart : Decision.start (idOf cur.ref) option ∈ s.decisions := by
          have htarget : (Decision.start id option).Target = idOf r := by simpa using List.find?_some hd
          rw [ref_of_find h,← htarget]
          exact List.mem_of_find?_eq_some hd
        unfold candidateOf at hc
        split_ifs at hc with hholds hparked hqueued
        · have hparked : cur.parked = true := hparked
          refine ⟨_,_,.adopted option hparked ?_ ?_ hrec hstart,?_,?_⟩
          · simpa [takesUpCancelled,hparked] using hcancel
          · simpa [Entry.holdsMachine,Entry.unwaited] using hholds
          · simpa [Entry.decided,Entry.unwaited,hparked] using hfind
          · simpa [Entry.decidedRequests,Entry.decided,Entry.unwaited,hparked] using hreqs
        · have hparked : cur.parked = false := by simpa [Entry.unwaited] using hparked
          have hstore : s.adoptCancelled.1.storeBlocked cur.ref.store = false := by
            simpa [Entry.unwaited] using hqueued.2
          refine ⟨_,_,.launched option hparked hqueued.1 hstore hrec hstart,?_,?_⟩
          · simpa [Entry.decided,Entry.unwaited,hparked] using hfind
          · simpa [Entry.decidedRequests,Entry.decided,Entry.unwaited,hparked] using hreqs

theorem schedule_none {s : State} {r : Ref} (h : s.find r = none) :
    s.schedule.1.find r = none ∧ requestsFor r s.schedule.2 = [] := by
  obtain ⟨hfind,hreqs⟩ := foldl_decided s.decisions s.decisions_nodup s.adoptCancelled r
  rw [← schedule_eq,adoptCancelled_find,h] at hfind hreqs
  rw [adoptCancelled_requests,h] at hreqs
  exact ⟨hfind,by simpa using hreqs⟩

/-- What the event of a step can make of a job, before the scheduler is asked. -/
inductive Handled (s : State) (e : Event) (r : Ref) : Option Entry × List Request → Prop
  | about (he : e.job = some r) : Handled s e r (Entry.handle s.resources (s.seq+1) (s.find r) e)
  | other (he : e.job ≠ some r) : Handled s e r (s.find r,[])
  | forgotten (f : StoreForgotten) (he : e = .storeForgotten f) (hstore : r.store = f.store) :
      Handled s e r (none,[])
  | left (f : StoreForgotten) (he : e = .storeForgotten f) (hstore : r.store = f.store) {cur : Entry}
      (h : Left r cur) : Handled s e r (some cur,[.armRetry r])

theorem handle_job {s : State} (hs : s.Numbered) (e : Event) (r : Ref) :
    Handled s e r ((s.handle e).1.find r,requestsFor r (s.handle e).2) := by
  cases he : e.job with
  | some r' =>
    obtain ⟨hself,hothers,hreqs⟩ := s.changes_handle he
    have hkeeps : Entry.Keeps r' (Entry.handle s.resources (s.seq+1) (s.find r') e) :=
      Entry.handle_keeps he fun _ h => ref_of_find h
    by_cases hr : r' = r
    · subst hr
      rw [hself,hreqs,requestsFor_of_target hkeeps.2]
      exact .about he
    · rw [hothers r (Ne.symm hr),hreqs,requestsFor_of_ne hkeeps.2 hr]
      exact .other (by simpa [he] using hr)
  | none =>
    cases e with
    | recoveryDone => exact .other (by simp [he])
    | storeUnread store failure =>
      have hfind : (s.handle (.storeUnread store failure)).1.find r = s.find r := by
        simp only [handle]
        split_ifs <;> rfl
      rw [hfind]
      exact .other (by simp [he])
    | storeRead store => exact .other (by simp [he])
    | storeForgotten f =>
      have hforgets := forgets_forgotten hs f r
      unfold Forgets at hforgets
      split_ifs at hforgets with hstore
      · rcases hforgets with ⟨hnone,hreqs⟩ | ⟨cur,hcur,hleft,hreqs⟩
        · rw [handle,hnone,hreqs]
          exact .forgotten f rfl hstore
        · rw [handle,hcur,hreqs]
          exact .left f rfl hstore hleft
      · rw [handle,hforgets.1,hforgets.2]
        exact .other (by simp [he])
    | _ => cases he

/-- What a step can make of a job: what its event does and then the scheduler. -/
inductive Steps (s : State) (e : Event) (r : Ref) : Option Entry → List Request → Prop
  | gone {reqs : List Request} (h : Handled s e r (none,reqs)) : Steps s e r none reqs
  | held {cur cur' : Entry} {reqs started : List Request} (h : Handled s e r (some cur,reqs))
      (hs : Scheduled (s.handle e).1 cur cur' started) : Steps s e r (some cur') (reqs ++ started)

theorem step_steps {s : State} (hs : s.Numbered) (e : Event) (r : Ref) :
    Steps s e r ((Step s e).1.find r) (requestsFor r (Step s e).2) := by
  have h := handle_job hs e r
  rw [Step,requestsFor_append]
  cases hmid : (s.handle e).1.find r with
  | none =>
    obtain ⟨hfind,hreqs⟩ := schedule_none hmid
    rw [hmid] at h
    rw [hfind,hreqs,List.append_nil]
    exact .gone h
  | some cur =>
    obtain ⟨cur',started,hsched,hfind,hreqs⟩ := schedule_some hmid
    rw [hmid] at h
    rw [hfind,hreqs]
    exact .held h hsched

end State
end Vibesys.Lifecycle
