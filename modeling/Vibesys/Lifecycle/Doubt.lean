import Vibesys.Lifecycle.Scheduled

/-!
# Jobs in doubt and jobs given up

A look settles a job as given up only if its store says so, and keeps a running job it can see no run
of in doubt if its store does not.
-/
namespace Vibesys.Lifecycle
open Vibesys.Core Vibesys.Schedule Vibesys.Library

theorem cutAt_ne_givenUpJob (job job' : JobID) (attempt : ℕ) (cut : Cut) (at_ at' : Time) :
    cutAt job attempt cut at_ ≠ givenUpJob job' at' := by
  intro h
  unfold cutAt at h
  split_ifs at h
  · -- The lines differ after their first word.
    have hlog := congrArg (fun st : Settlement => st.log.toList[13]?) h
    simp only [ending,givenUpJob,String.toList_append,List.append_assoc] at hlog
    rw [List.getElem?_append_left (by decide +kernel)] at hlog
    exact absurd hlog (by decide +kernel)
  · have hto := congrArg (fun st : Settlement => st.transition.to_) h
    simp [givenUpJob,ending] at hto

theorem ending_ne_givenUpJob {job job' : JobID} {from_ to_ : JobState} {at_ at' : Time} {log : String}
    (h : log ≠ (givenUpJob "" 0).log) : ending job from_ to_ at_ log ≠ givenUpJob job' at' :=
  fun heq => h (congrArg Settlement.log heq)

theorem CutOff_ne_givenUpJob (job job' : JobID) (policy : Option RerunPolicy) (attempts : ℕ) (proof : DeathProof)
    (start : Option Start) (at_ at' : Time) : CutOff job policy attempts proof start at_ ≠ givenUpJob job' at' := by
  have hcut : ∀ cause, cutBy job policy attempts cause start at_ ≠ givenUpJob job' at' := by
    intro cause
    unfold cutBy
    split_ifs
    · exact cutAt_ne_givenUpJob _ _ _ _ _ _
    · refine ending_ne_givenUpJob ?_
      cases cause <;> decide +kernel
    · exact cutAt_ne_givenUpJob _ _ _ _ _ _
  cases proof with
  | lockFree => exact hcut _
  | rebooted => exact hcut _
  | released => exact ending_ne_givenUpJob (by decide +kernel)
  | nothing => exact ending_ne_givenUpJob (by decide +kernel)

/-- The request that records a job as given up. -/
def Request.GivesUp (q : Request) : Prop := ∃ ref job at_ release, q = .move ref (givenUpJob job at_) release

namespace Entry

variable {resources : List Resource} {fresh : ℕ} {e : Recovered} {kept : Entry}

theorem not_givesUp_unlessCancelled (cur : Entry) (at_ : Time) : ∀ q ∈ (cur.unlessCancelled at_).2, ¬Request.GivesUp q := by
  unfold unlessCancelled cancelQueuedJob
  split_ifs
  · rintro q hq ⟨ref,job,at',release,rfl⟩
    obtain ⟨_,hst,_⟩ := by simpa using hq
    have hto := congrArg (fun st : Settlement => st.transition.to_) hst
    simp [cancelQueued,givenUpJob,ending] at hto
  · simp

theorem not_givesUp_cutOff (cur : Entry) (proof : DeathProof) (start : Option Start) (at_ : Time) :
    ∀ q ∈ (cur.cutOff proof start at_).2, ¬Request.GivesUp q := by
  unfold cutOff settleCut settle
  split_ifs
  · rintro q hq ⟨ref,job,at',release,rfl⟩
    obtain ⟨_,hst,_⟩ := by simpa using hq
    exact ending_ne_givenUpJob (by decide +kernel) hst.symm
  all_goals
    rintro q hq ⟨ref,job,at',release,rfl⟩
    obtain ⟨_,hst,_⟩ := by simpa using hq
    exact CutOff_ne_givenUpJob _ _ _ _ _ _ _ _ hst.symm

theorem not_givesUp_inDoubt : ∀ q ∈ (kept.inDoubt e fresh).2, ¬Request.GivesUp q := by
  rintro q hq ⟨ref,job,at',release,rfl⟩
  unfold inDoubt awaitRetry signalAlive signalOnce at hq
  grind

theorem inDoubt_phase : (kept.inDoubt e fresh).1.phase = .inDoubt ∧ (kept.inDoubt e fresh).1.parked = false := by
  unfold inDoubt signalAlive signalOnce awaitRetry
  grind [doubted,judgeHold,place]

/-- A look gives a job up only if its store did. -/
theorem Look.givesUp {x : Option Entry × List Request} (hx : Look resources fresh e kept x) {q : Request} (hq : q ∈ x.2)
    (hgives : Request.GivesUp q) : ∃ f, e.finding = .jobIn f ∧ f.state = .running ∧ f.givenUp = true := by
  cases hx with
  | unseen => cases hq
  | ended =>
    obtain ⟨ref,job,at',release,rfl⟩ := hgives
    unfold recoverEnded at hq
    grind
  | queued => exact absurd hgives (not_givesUp_unlessCancelled _ _ q hq)
  | discarding =>
    obtain ⟨ref,job,at',release,rfl⟩ := hgives
    simp at hq
  | parked => cases hq
  | running =>
    obtain ⟨ref,job,at',release,rfl⟩ := hgives
    simp [follow,adoptRequest] at hq
  | cut => exact absurd hgives (not_givesUp_cutOff _ _ _ _ q hq)
  | givenUp hfinding hstate hgiven => exact ⟨_,hfinding,hstate,hgiven⟩
  | inDoubt => exact absurd hgives (not_givesUp_inDoubt q hq)

theorem LookedAt.givesUp {cur : Option Entry} {x : Option Entry × List Request} (hx : LookedAt resources fresh e cur x)
    {q : Request} (hq : q ∈ x.2) (hgives : Request.GivesUp q) :
    ∃ f, e.finding = .jobIn f ∧ f.state = .running ∧ f.givenUp = true := by
  cases hx with
  | afresh h => exact h.givesUp hq hgives
  | again _ h => exact h.givesUp hq hgives
  | left =>
    obtain ⟨ref,job,at',release,rfl⟩ := hgives
    unfold recoverLeft awaitRetry at hq
    grind
  | ignored => cases hq

end Entry

namespace State

theorem Scheduled.not_givesUp {s : State} {cur cur' : Entry} {reqs : List Request} (h : Scheduled s cur cur' reqs) :
    ∀ q ∈ reqs, ¬Request.GivesUp q := by
  rintro q hq ⟨ref,job,at',release,rfl⟩
  cases h <;> simp [Entry.adoptRequest] at hq

theorem givesUp_of_step {s : State} {e : Recovered} {q : Request} (hq : q ∈ (Step s (.recovered e)).2)
    (href : q.Target = e.ref) (hgives : Request.GivesUp q) :
    ∃ f, e.finding = .jobIn f ∧ f.state = .running ∧ f.givenUp = true := by
  obtain ⟨hself,_,hreqs⟩ := s.changes_recover e
  rcases List.mem_append.mp hq with hq | hq
  · rw [show (s.handle (.recovered e)).2 = _ from hreqs] at hq
    exact (Entry.lookedAt_cases _ _ e _).givesUp hq hgives
  · have hmine : q ∈ requestsFor e.ref (s.handle (.recovered e)).1.schedule.2 := by
      simpa [requestsFor,href] using hq
    cases hheld : (s.handle (.recovered e)).1.find e.ref with
    | none => simp [(schedule_none hheld).2] at hmine
    | some cur =>
      obtain ⟨cur',started,hsched,_,hstarted⟩ := schedule_some hheld
      rw [hstarted] at hmine
      exact absurd hgives (hsched.not_givesUp q hmine)

theorem inDoubt_of_step {s : State} {e : Recovered} {f : JobIn} (hfinding : e.finding = .jobIn f)
    (hstate : f.state = .running) (hgiven : f.givenUp = false)
    (hrun : e.supervisor = .none_ ∨ ∃ limit, e.supervisor = .unknown limit)
    (hheld : ∀ cur, s.find e.ref = some cur → cur.phase = .inDoubt) :
    ∃ cur, (Step s (.recovered e)).1.find e.ref = some cur ∧ cur.phase = .inDoubt := by
  obtain ⟨hself,_,_⟩ := s.changes_recover e
  have hdoubt : ∀ kept : Entry, kept.recover s.resources e (s.seq+1) = (kept.inDoubt e (s.seq+1)).map some id := by
    intro kept
    have hcannot : kept.doubtUnlessGivenUp e (s.seq+1) = kept.inDoubt e (s.seq+1) := by
      simp [Entry.doubtUnlessGivenUp,hfinding,Finding.job,hgiven]
    rcases hrun with hrun | ⟨limit,hrun⟩ <;>
      simp [Entry.recover,hfinding,hstate,Entry.recoverRunning,hrun,hcannot]
  obtain ⟨kept,hkept⟩ : ∃ kept : Entry,
      Entry.lookedAt s.resources (s.seq+1) e (s.find e.ref) = (kept.inDoubt e (s.seq+1)).map some id := by
    cases hfind : s.find e.ref with
    | none => exact ⟨{},hdoubt {}⟩
    | some cur => exact ⟨cur,by simpa [Entry.lookedAt,hheld cur hfind] using hdoubt cur⟩
  obtain ⟨held,hfound,hphase,hparked⟩ : ∃ held, (s.handle (.recovered e)).1.find e.ref = some held
      ∧ held.phase = .inDoubt ∧ held.parked = false := by
    rw [hkept] at hself
    exact ⟨_,hself,Entry.inDoubt_phase⟩
  obtain ⟨cur,_,hsched,hfind,_⟩ := schedule_some hfound
  refine ⟨cur,hfind,?_⟩
  cases hsched with
  | waits => exact hphase
  | cancelled h => simp [takesUpCancelled,hparked] at h
  | adopted _ h => simp [hparked] at h
  | launched _ _ h => simp [hphase] at h

end State
end Vibesys.Lifecycle
