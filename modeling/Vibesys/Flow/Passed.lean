import Vibesys.Flow.Machine

/-!
# A job passes only by doing all its work

The work of a plan is a list. An event does the work the machine waits for, or it ends the job without a
pass; so a job passed exactly when events did all the work, one after the other.
-/
namespace Vibesys.Flow
open Vibesys.Core
open Benchmark (Bytes Named Reading)

inductive Work
  | checkout | build | candidate | check | before | sample | after
  deriving DecidableEq, Repr

namespace Plan

def workAfterCheck (p : Plan) : List Work :=
  if p.kind = .check then [.after] else .before :: (List.replicate p.samples .sample ++ [.after])

def workAfterCandidate (p : Plan) : List Work := (if p.RunsCheck then [.check] else []) ++ p.workAfterCheck

def workAfterBuild (p : Plan) : List Work := (if p.candidate.isSome then [.candidate] else []) ++ p.workAfterCandidate

def workAfterCheckout (p : Plan) : List Work := (if p.build.isSome then [.build] else []) ++ p.workAfterBuild

def work (p : Plan) : List Work := .checkout :: p.workAfterCheckout

end Plan

/-- The command ran to its end and exited with 0. -/
def Ran.Succeeded (r : Ran) : Prop := r.exec.kind = .exited ∧ r.exec.exitCode = 0

/-- The run left a result that can be read, with a value of every objective. -/
def Plan.Reads (parser : Parser) (p : Plan) (r : Ran) (got : Reading ℚ) : Prop :=
  State.read parser { plan := p } r = .ok got ∧ State.missingObjective { plan := p } got = none

inductive Does (parser : Parser) (p : Plan) : Work → Event → List (Reading ℚ) → Prop
  | checkout (dir scratch : String) (hdir : dir ≠ "") (hscratch : scratch ≠ "") :
    Does parser p .checkout (.checkedOut dir scratch) []
  | build (r : Ran) (h : r.Succeeded) : Does parser p .build (.ran r) []
  | candidate (image : CandidateImage) (h : Fingerprint.isImageDigest image.id = true) :
    Does parser p .candidate (.candidateBuilt image) []
  | check (r : Ran) (h : r.Succeeded) : Does parser p .check (.ran r) []
  | before (machine : MachineFacts) (load : MachineLoad) : Does parser p .before (.observed machine load) []
  | sample (r : Ran) (h : r.Succeeded) (got : Reading ℚ) (hgot : p.Reads parser r got) :
    Does parser p .sample (.ran r) [got]
  | after (machine : MachineFacts) (load : MachineLoad) : Does parser p .after (.observed machine load) []

inductive DoesAll (parser : Parser) (p : Plan) : List Work → List Event → List (Reading ℚ) → Prop
  | nil : DoesAll parser p [] [] []
  | cons {w : Work} {ws : List Work} {e : Event} {es : List Event} {got rest : List (Reading ℚ)}
    (h : Does parser p w e got) (hrest : DoesAll parser p ws es rest) : DoesAll parser p (w :: ws) (e :: es) (got ++ rest)

def Verdict.isPassed : Verdict → Bool
  | .passed _ => true
  | _ => false

namespace State

def left (s : State) : List Work :=
  match s.phase with
  | .checkout => s.plan.work
  | .build => .build :: s.plan.workAfterBuild
  | .candidate => .candidate :: s.plan.workAfterCandidate
  | .check => .check :: s.plan.workAfterCheck
  | .before => .before :: (List.replicate s.plan.samples .sample ++ [.after])
  | .sample => List.replicate (s.plan.samples-s.samples.length) .sample ++ [.after]
  | .after => [.after]
  | .done => []

/-- What holds of a machine that is not done. -/
structure Working (s : State) : Prop where
  going : s.phase ≠ .done
  silent : s.verdict = none
  check : s.plan.kind = .check → s.samples = [] ∧ s.others = [] ∧ s.phase ≠ .before ∧ s.phase ≠ .sample
  fresh : s.phase ≠ .sample → s.phase ≠ .after → s.samples = [] ∧ s.others = []
  more : s.phase = .sample → s.samples.length < s.plan.samples

/-- The readings are added to what was sampled. -/
def Adds (s s' : State) (got : List (Reading ℚ)) : Prop :=
  s'.samples = s.samples ++ got.map Reading.value
    ∧ s'.others = got.foldl (fun others g => g.others.foldl addObservation others) s.others

/-- What a step does to a machine that is not done. -/
inductive Stepped (parser : Parser) (s : State) (e : Event) : State × Option Request → Prop
  | ended (s' : State) (hdone : s'.phase = .done) (hnot : ∀ f, s'.verdict ≠ some (.passed f)) :
    Stepped parser s e (s',none)
  | worked (s' : State) (request : Request) (w : Work) (got : List (Reading ℚ)) (hwork : Does parser s.plan w e got)
    (hleft : s.left = w :: s'.left) (hplan : s'.plan = s.plan) (hworking : s'.Working) (hadds : s.Adds s' got) :
    Stepped parser s e (s',some request)
  | finished (s' : State) (f : Findings) (hwork : Does parser s.plan .after e []) (hleft : s.left = [.after])
    (hdone : s'.phase = .done) (hverdict : s'.verdict = some (.passed f)) (hsamples : f.samples = s.samples)
    (hothers : f.observations = s.others) : Stepped parser s e (s',none)

variable {parser : Parser} {s : State} {e : Event}

theorem Stepped.of_end {v : Verdict} (h : v.isPassed = false) : Stepped parser s e (s.end_ v,none) := by
  refine .ended _ rfl fun f hf => ?_
  rw [Option.some.inj hf] at h
  cases h

theorem Stepped.of_misfit : Stepped parser s e (s.misfit e) := .of_end rfl

theorem succeeded_of_commandEnded {stage : Stage} {r : Ran} (h : s.commandEnded stage r = none) : r.Succeeded := by
  unfold commandEnded at h
  dsimp only at h
  split at h <;> try cases h
  rename_i hkind
  split_ifs at h with hcode
  exact ⟨hkind,hcode⟩

theorem stopped_of_commandEnded {stage : Stage} {r : Ran} {v : Verdict} (h : s.commandEnded stage r = some v) :
    ∃ exec reason, v = .stopped stage exec reason := by
  unfold commandEnded at h
  dsimp only at h
  split at h
  · split_ifs at h
    exact ⟨_,_,(Option.some.inj h).symm⟩
  all_goals exact ⟨_,_,(Option.some.inj h).symm⟩

theorem unrun_isPassed {stage : Stage} {v : Verdict} (h : unrun stage e = some v) : v.isPassed = false := by
  unfold unrun at h
  dsimp only at h
  split at h
  · rw [← Option.some.inj h]
    rfl
  · rw [← Option.some.inj h]
    rfl
  · cases h

theorem Stepped.of_answered {stage : Stage} {next : Ran → State × Option Request}
    (h : ∀ r, e = .ran r → r.Succeeded → Stepped parser s e (next r)) : Stepped parser s e (s.answered stage e next) := by
  unfold answered
  split
  · rename_i r
    split
    · rename_i v hv
      obtain ⟨exec,reason,rfl⟩ := stopped_of_commandEnded hv
      exact .of_end rfl
    · rename_i hv
      exact h r rfl (succeeded_of_commandEnded hv)
  · split
    · rename_i v hv
      exact .of_end (unrun_isPassed hv)
    · exact .of_misfit

/-- The machine asks for the first of the work, with nothing sampled. -/
structure Asks (p : Plan) (ws : List Work) (out : State × Option Request) : Prop where
  request : ∃ request, out.2 = some request
  left : out.1.left = ws
  plan : out.1.plan = p
  working : out.1.Working
  fresh : out.1.samples = [] ∧ out.1.others = []

theorem Stepped.of_asks {w : Work} {ws : List Work} {out : State × Option Request} (hwork : Does parser s.plan w e [])
    (hleft : s.left = w :: ws) (hfresh : s.samples = [] ∧ s.others = []) (h : Asks s.plan ws out) :
    Stepped parser s e out := by
  obtain ⟨request,hrequest⟩ := h.request
  have hadds : s.Adds out.1 [] := by
    refine ⟨?_,?_⟩
    · rw [h.fresh.1,hfresh.1]
      rfl
    · rw [h.fresh.2,hfresh.2]
      rfl
  have hout : out = (out.1,some request) := Prod.ext rfl hrequest
  rw [hout]
  exact .worked _ request w [] hwork (by rw [hleft,h.left]) h.plan h.working hadds

theorem afterCheck_asks (hsilent : s.verdict = none) (hfresh : s.samples = [] ∧ s.others = []) :
    Asks s.plan s.plan.workAfterCheck s.afterCheck := by
  unfold afterCheck
  by_cases hkind : s.plan.kind = .check
  · refine ⟨⟨_,rfl⟩,?_,rfl,⟨?_,hsilent,fun _ => ⟨hfresh.1,hfresh.2,?_,?_⟩,fun _ _ => hfresh,?_⟩,hfresh⟩
    all_goals simp [State.left,Plan.workAfterCheck,hkind]
  · refine ⟨⟨_,rfl⟩,?_,rfl,⟨?_,hsilent,fun hcheck => absurd hcheck hkind,fun _ _ => hfresh,?_⟩,hfresh⟩
    all_goals simp [State.left,Plan.workAfterCheck,hkind]

theorem afterCandidate_asks (hsilent : s.verdict = none) (hfresh : s.samples = [] ∧ s.others = []) :
    Asks s.plan s.plan.workAfterCandidate s.afterCandidate := by
  unfold afterCandidate Plan.workAfterCandidate
  by_cases hruns : s.plan.RunsCheck = true
  · rw [if_pos hruns,if_pos hruns]
    exact ⟨⟨_,rfl⟩,rfl,rfl,⟨nofun,hsilent,fun _ => ⟨hfresh.1,hfresh.2,nofun,nofun⟩,fun _ _ => hfresh,nofun⟩,hfresh⟩
  · rw [if_neg hruns,if_neg hruns]
    exact afterCheck_asks hsilent hfresh

theorem afterBuild_asks (hsilent : s.verdict = none) (hfresh : s.samples = [] ∧ s.others = []) : Asks s.plan s.plan.workAfterBuild s.afterBuild := by
  unfold afterBuild Plan.workAfterBuild
  cases hc : s.plan.candidate with
  | none => simpa using afterCandidate_asks hsilent hfresh
  | some c =>
    exact ⟨⟨_,rfl⟩,by simp [State.left],rfl,
      ⟨nofun,hsilent,fun _ => ⟨hfresh.1,hfresh.2,nofun,nofun⟩,fun _ _ => hfresh,nofun⟩,hfresh⟩

theorem afterCheckout_asks (hsilent : s.verdict = none) (hfresh : s.samples = [] ∧ s.others = []) :
    Asks s.plan s.plan.workAfterCheckout s.afterCheckout := by
  unfold afterCheckout Plan.workAfterCheckout
  cases hc : s.plan.build with
  | none => simpa using afterBuild_asks hsilent hfresh
  | some c =>
    exact ⟨⟨_,rfl⟩,by simp [State.left],rfl,
      ⟨nofun,hsilent,fun _ => ⟨hfresh.1,hfresh.2,nofun,nofun⟩,fun _ _ => hfresh,nofun⟩,hfresh⟩

theorem before_asks (hsilent : s.verdict = none) (hsamples : s.plan.samples ≠ 0) (hkind : s.plan.kind ≠ .check)
    (hfresh : s.samples = [] ∧ s.others = []) (machine : MachineFacts) :
    Asks s.plan (List.replicate s.plan.samples .sample ++ [.after]) (s.observe machine).nextSample := by
  have hplan : (s.observe machine).plan = s.plan := by
    unfold observe
    split_ifs <;> rfl
  have hnone : (s.observe machine).samples = [] ∧ (s.observe machine).others = [] := by
    unfold observe
    split_ifs <;> exact hfresh
  have hquiet : (s.observe machine).verdict = none := by
    unfold observe
    split_ifs <;> exact hsilent
  refine ⟨⟨_,rfl⟩,?_,hplan,⟨nofun,hquiet,?_,fun hne => absurd rfl hne,fun _ => ?_⟩,hnone⟩
  · simp [State.left,nextSample,hplan,hnone.1]
  · exact fun hcheck => absurd (hplan ▸ hcheck) hkind
  · simp only [nextSample,hplan,hnone.1,List.length_nil]
    omega

theorem Stepped.of_sampled {r : Ran} (hw : s.Working) (hphase : s.phase = .sample) :
    Stepped parser s (.ran r) (s.sampled parser r) := by
  have hmore := hw.more hphase
  have hkind : s.plan.kind ≠ .check := fun hcheck => (hw.check hcheck).2.2.2 hphase
  unfold sampled
  dsimp only
  split
  · rename_i v hv
    obtain ⟨exec,reason,rfl⟩ := stopped_of_commandEnded hv
    refine .of_end ?_
    dsimp only
    split_ifs <;> rfl
  · rename_i hended
    split
    · exact .of_end rfl
    · rename_i got hgot
      split
      · exact .of_end rfl
      · rename_i hmissing
        have hdoes : Does parser s.plan .sample (.ran r) [got] :=
          .sample r (succeeded_of_commandEnded hended) got ⟨hgot,hmissing⟩
        have hleft : s.left = .sample :: (List.replicate (s.plan.samples-(s.samples.length+1)) .sample ++ [.after]) := by
          rw [State.left,hphase]
          dsimp only
          rw [show s.plan.samples-s.samples.length = (s.plan.samples-(s.samples.length+1))+1 by omega,
            List.replicate_succ]
          rfl
        split_ifs with hlast
        · refine .worked _ _ .sample [got] hdoes ?_ rfl ⟨nofun,hw.silent,fun hcheck => absurd hcheck hkind,
            fun hne => absurd rfl hne,fun _ => hlast⟩ ⟨rfl,rfl⟩
          rw [hleft]
          simp [State.left]
        · refine .worked _ _ .sample [got] hdoes ?_ rfl ⟨nofun,hw.silent,fun hcheck => absurd hcheck hkind,
            fun _ hne => absurd rfl hne,nofun⟩ ⟨rfl,rfl⟩
          have hnone : s.plan.samples-(s.samples.length+1) = 0 := by
            simp only [List.length_append,List.length_singleton] at hlast
            omega
          rw [hleft,hnone]
          rfl

/-- The step of a machine that is not done: the event does the work that is waited for, or it ends the job. -/
theorem step_cases (hvalid : s.plan.Valid) (hw : s.Working) : Stepped parser s e (s.Step parser e) := by
  unfold Step
  rw [if_neg hw.going]
  by_cases hcancelled : e = .cancelled
  · rw [if_pos hcancelled]
    exact .of_end rfl
  rw [if_neg hcancelled]
  cases hphase : s.phase with
  | checkout =>
    have hfresh := hw.fresh (by simp [hphase]) (by simp [hphase])
    have hleft : s.left = .checkout :: s.plan.workAfterCheckout := by rw [State.left,hphase]; rfl
    dsimp only
    split
    · rename_i dir scratch
      split_ifs with hempty
      · exact .of_end rfl
      · obtain ⟨hdir,hscratch⟩ := not_or.mp hempty
        exact .of_asks (.checkout dir scratch hdir hscratch) hleft hfresh
          (afterCheckout_asks (s := { s with phase := .checkout, dir := dir, scratch := scratch }) hw.silent hfresh)
    · exact .of_end rfl
    · exact .of_misfit
  | build =>
    have hfresh := hw.fresh (by simp [hphase]) (by simp [hphase])
    have hleft : s.left = .build :: s.plan.workAfterBuild := by rw [State.left,hphase]
    refine .of_answered fun r hr hok => ?_
    subst hr
    exact .of_asks (.build r hok) hleft hfresh (afterBuild_asks hw.silent hfresh)
  | candidate =>
    have hfresh := hw.fresh (by simp [hphase]) (by simp [hphase])
    have hleft : s.left = .candidate :: s.plan.workAfterCandidate := by rw [State.left,hphase]
    dsimp only
    split
    · rename_i image
      split_ifs with hdigest
      · exact .of_end rfl
      · exact .of_asks (.candidate image (by simpa using hdigest)) hleft hfresh
          (afterCandidate_asks (s := { s with phase := .candidate, candidate := image }) hw.silent hfresh)
    · exact .of_end rfl
    · exact .of_misfit
  | check =>
    have hfresh := hw.fresh (by simp [hphase]) (by simp [hphase])
    have hleft : s.left = .check :: s.plan.workAfterCheck := by rw [State.left,hphase]
    refine .of_answered fun r hr hok => ?_
    subst hr
    exact .of_asks (.check r hok) hleft hfresh
      (afterCheck_asks (s := { s with phase := .check, checkTook := max 0 (r.ended-r.started) }) hw.silent hfresh)
  | before =>
    have hfresh := hw.fresh (by simp [hphase]) (by simp [hphase])
    have hkind : s.plan.kind ≠ .check := fun hcheck => (hw.check hcheck).2.2.1 hphase
    have hsamples : s.plan.samples ≠ 0 := by
      rcases hvalid.kind with ⟨hcheck,_⟩ | ⟨_,hsome,_⟩
      · exact absurd hcheck hkind
      · exact hsome
    have hleft : s.left = .before :: (List.replicate s.plan.samples .sample ++ [.after]) := by rw [State.left,hphase]
    dsimp only
    split
    · rename_i machine load
      exact .of_asks (.before machine load) hleft hfresh (before_asks hw.silent hsamples hkind hfresh machine)
    · exact .of_misfit
  | sample =>
    dsimp only
    split
    · exact .of_sampled hw hphase
    · rename_i hnot
      exact .of_answered fun r hr _ => absurd hr (hnot r)
  | after =>
    have hleft : s.left = [.after] := by rw [State.left,hphase]
    dsimp only
    split
    · rename_i machine load
      have hkept : (s.observe machine).plan = s.plan ∧ (s.observe machine).samples = s.samples
          ∧ (s.observe machine).others = s.others := by
        unfold observe
        split_ifs <;> exact ⟨rfl,rfl,rfl⟩
      have hnone : s.plan.kind ≠ .measure → s.samples = [] ∧ s.others = [] := fun hne => by
        rcases hvalid.kind with ⟨hcheck,_⟩ | ⟨hmeasure,_⟩
        · exact ⟨(hw.check hcheck).1,(hw.check hcheck).2.1⟩
        · exact absurd hmeasure hne
      refine .finished _ _ (.after machine load) hleft rfl rfl ?_ ?_
      · dsimp only
        rw [hkept.1,hkept.2.1]
        by_cases hmeasure : s.plan.kind = .measure
        · simp [hmeasure]
        · simp [hmeasure,(hnone hmeasure).1]
      · dsimp only
        rw [hkept.1,hkept.2.2]
        by_cases hmeasure : s.plan.kind = .measure
        · simp [hmeasure]
        · simp [hmeasure,(hnone hmeasure).2]
    · exact .of_misfit
  | done => exact absurd hphase hw.going

end State
end Vibesys.Flow
