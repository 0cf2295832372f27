import Vibesys.Flow.Passed

/-!
# Whole runs of the machine

From the step of a machine that is not done, by induction on the events: what a job that passed was fed, what
it found, and when it is done.
-/
namespace Vibesys.Flow
open Vibesys.Core
open Benchmark (Bytes Named Reading)

def valuesOf (os : List Observation) (name : String) : List Sample :=
  (os.find? fun o => o.name = name).elim [] Observation.values

/-- The observations are ordered by name, each name once. -/
def Ordered (os : List Observation) : Prop := os.Pairwise fun o o' => o.name < o'.name

/-- What a reading says of a metric. -/
def Reading.of (got : Reading ℚ) (name : String) : List Sample :=
  (got.others.filter fun v => v.name = name).map fun v => .finite v.value

theorem mem_addObservation {os : List Observation} {v : Named ℚ} {o : Observation} (h : o ∈ addObservation os v) :
    o.name = v.name ∨ ∃ o' ∈ os, o.name = o'.name := by
  induction os with
  | nil => exact .inl (by rw [List.mem_singleton.mp h])
  | cons first os ih =>
    unfold addObservation at h
    split_ifs at h with hless hsame
    · rcases List.mem_cons.mp h with rfl | h
      · exact .inr ⟨o,List.mem_cons_self,rfl⟩
      · rcases ih h with hname | ⟨o',ho',hname⟩
        · exact .inl hname
        · exact .inr ⟨o',List.mem_cons_of_mem _ ho',hname⟩
    · rcases List.mem_cons.mp h with rfl | h
      · exact .inl hsame
      · exact .inr ⟨o,List.mem_cons_of_mem _ h,rfl⟩
    · rcases List.mem_cons.mp h with rfl | h
      · exact .inl rfl
      · exact .inr ⟨o,h,rfl⟩

theorem ordered_addObservation {os : List Observation} (h : Ordered os) (v : Named ℚ) : Ordered (addObservation os v) := by
  induction os with
  | nil => exact List.pairwise_singleton _ _
  | cons first os ih =>
    obtain ⟨hfirst,hos⟩ := List.pairwise_cons.mp h
    unfold addObservation
    split_ifs with hless hsame
    · refine List.pairwise_cons.mpr ⟨fun o ho => ?_,ih hos⟩
      rcases mem_addObservation ho with hname | ⟨o',ho',hname⟩
      · rwa [hname]
      · rw [hname]
        exact hfirst o' ho'
    · exact List.pairwise_cons.mpr ⟨hfirst,hos⟩
    · have hmore : v.name < first.name := lt_of_le_of_ne (not_lt.mp hless) (Ne.symm hsame)
      refine List.pairwise_cons.mpr ⟨fun o ho => ?_,h⟩
      rcases List.mem_cons.mp ho with rfl | ho
      · exact hmore
      · exact hmore.trans (hfirst o ho)

theorem valuesOf_cons (o : Observation) (os : List Observation) (name : String) :
    valuesOf (o :: os) name = if o.name = name then o.values else valuesOf os name := by
  unfold valuesOf
  rw [List.find?_cons]
  split_ifs with h <;> simp [h]

theorem valuesOf_eq_nil {os : List Observation} {name : String} (h : ∀ o ∈ os, o.name ≠ name) : valuesOf os name = [] := by
  unfold valuesOf
  rw [List.find?_eq_none.mpr (by simpa using h)]
  rfl

theorem valuesOf_addObservation {os : List Observation} (h : Ordered os) (v : Named ℚ) (name : String) :
    valuesOf (addObservation os v) name = valuesOf os name ++ if v.name = name then [.finite v.value] else [] := by
  induction os with
  | nil =>
    rw [addObservation,valuesOf_cons]
    rfl
  | cons first os ih =>
    obtain ⟨hfirst,hos⟩ := List.pairwise_cons.mp h
    unfold addObservation
    by_cases hless : first.name < v.name
    · rw [if_pos hless,valuesOf_cons,valuesOf_cons,ih hos]
      by_cases hname : first.name = name
      · rw [if_pos hname,if_pos hname,if_neg (fun hv => absurd hless (by rw [hname,hv]; exact lt_irrefl _)),
          List.append_nil]
      · rw [if_neg hname,if_neg hname]
    rw [if_neg hless]
    by_cases hsame : first.name = v.name
    · rw [if_pos hsame,valuesOf_cons,valuesOf_cons,← hsame]
      by_cases hname : first.name = name
      · rw [if_pos hname,if_pos hname,if_pos hname]
      · rw [if_neg hname,if_neg hname,if_neg hname,List.append_nil]
    · rw [if_neg hsame,valuesOf_cons]
      by_cases hname : v.name = name
      · -- The name is before the first, so nothing was observed of it.
        have hmore : name < first.name := hname ▸ lt_of_le_of_ne (not_lt.mp hless) (Ne.symm hsame)
        have hnone : valuesOf (first :: os) name = [] := by
          refine valuesOf_eq_nil fun o ho => ?_
          rcases List.mem_cons.mp ho with rfl | ho
          · exact hmore.ne'
          · exact (hmore.trans (hfirst o ho)).ne'
        rw [if_pos hname,if_pos hname,hnone]
        rfl
      · rw [if_neg hname,if_neg hname,List.append_nil]

theorem addAll_ordered {vs : List (Named ℚ)} {os : List Observation} (h : Ordered os) :
    Ordered (vs.foldl addObservation os)
    ∧ ∀ name, valuesOf (vs.foldl addObservation os) name =
      valuesOf os name ++ (vs.filter fun v => v.name = name).map fun v => .finite v.value := by
  induction vs generalizing os with
  | nil => exact ⟨h,fun name => (List.append_nil _).symm⟩
  | cons v vs ih =>
    obtain ⟨hordered,hvalues⟩ := ih (ordered_addObservation h v)
    refine ⟨hordered,fun name => ?_⟩
    rw [List.foldl_cons,hvalues name,valuesOf_addObservation h,List.append_assoc,List.filter_cons]
    by_cases hname : v.name = name <;> simp [hname]

def observed (got : List (Reading ℚ)) (os : List Observation) : List Observation :=
  got.foldl (fun others g => g.others.foldl addObservation others) os

theorem observed_ordered {got : List (Reading ℚ)} {os : List Observation} (h : Ordered os) :
    Ordered (observed got os) ∧ ∀ name, valuesOf (observed got os) name = valuesOf os name ++ got.flatMap (Reading.of · name) := by
  induction got generalizing os with
  | nil => exact ⟨h,fun name => (List.append_nil _).symm⟩
  | cons g got ih =>
    obtain ⟨hordered,hvalues⟩ := @addAll_ordered g.others os h
    obtain ⟨hall,hrest⟩ := ih hordered
    refine ⟨hall,fun name => ?_⟩
    rw [observed,List.foldl_cons]
    exact (hrest name).trans (by rw [hvalues name,List.append_assoc]; rfl)

theorem Plan.Reads.one {parser : Parser} {p : Plan} (hp : p.Valid) (hkind : p.kind = .measure) {r : Ran} {got : Reading ℚ}
    (h : p.Reads parser r got) {m : Metric} (hm : m ∈ p.objectives.metrics) (hname : m.name ≠ p.metric.name) :
    (Reading.of got m.name).length = 1 := by
  obtain ⟨hread,hmissing⟩ := h
  have hstream : p.result.protocol2 = true := hp.stream hkind (List.ne_nil_of_mem hm)
  have hnodup : (got.others.map Named.name).Nodup := by
    unfold State.read at hread
    dsimp only at hread
    split_ifs at hread
    cases hstreamed : parser.Protocol2 r.output p.metric.name with
    | error why =>
      rw [hstreamed] at hread
      cases hread
    | ok reading =>
      rw [hstreamed] at hread
      obtain rfl := Except.ok.inj hread
      exact Parser.Protocol2_others hstreamed
  have hthere : m.name ∈ got.others.map Named.name := by
    have hfind := List.find?_eq_none.mp (Option.map_eq_none_iff.mp hmissing) m hm
    simpa [hname] using hfind
  rw [Reading.of,List.length_map,← List.countP_eq_length_filter]
  have hcount := List.count_eq_one_of_mem hnodup hthere
  rw [List.count,List.countP_map] at hcount
  rw [← hcount]
  exact List.countP_congr fun v _ => by simp

theorem DoesAll.reads {parser : Parser} {p : Plan} {ws : List Work} {es : List Event} {got : List (Reading ℚ)}
    (h : DoesAll parser p ws es got) : got.length = ws.count .sample ∧ ∀ g ∈ got, ∃ r, p.Reads parser r g := by
  induction h with
  | nil => exact ⟨rfl,nofun⟩
  | cons hdoes _ ih =>
    rw [List.length_append,List.count_cons,ih.1]
    cases hdoes
    case sample r hr g hg =>
      refine ⟨Nat.add_comm _ _,fun g' hg' => ?_⟩
      rcases List.mem_cons.mp hg' with rfl | hg'
      · exact ⟨r,hg⟩
      · exact ih.2 g' hg'
    all_goals exact ⟨by simp,ih.2⟩

theorem Plan.Valid.count_work {p : Plan} (h : p.Valid) : p.work.count .sample = p.samples := by
  have hcheck : p.workAfterCheck.count .sample = p.samples := by
    unfold workAfterCheck
    rcases h.kind with ⟨hkind,hnone⟩ | ⟨hkind,_⟩
    · simp [hkind,hnone]
    · simp [hkind,List.count_append]
  have hskip : ∀ (b : Bool) (w : Work) (ws : List Work), w ≠ .sample →
      ((if b then [w] else []) ++ ws).count .sample = ws.count .sample := by
    intro b w ws hw
    cases b <;> simp [hw]
  unfold work workAfterCheckout workAfterBuild workAfterCandidate
  rw [List.count_cons_of_ne (by decide),hskip _ _ _ (by decide),hskip _ _ _ (by decide),hskip _ _ _ (by decide),hcheck]

theorem Plan.length_work (p : Plan) : p.work.length ≤ p.samples+6 := by
  have hcheck : p.workAfterCheck.length ≤ p.samples+2 := by
    unfold workAfterCheck
    split_ifs <;> simp
  have hadd : ∀ (b : Bool) (w : Work) (ws : List Work), ((if b then [w] else []) ++ ws).length ≤ ws.length+1 := by
    intro b w ws
    cases b <;> simp
  have hcandidate : p.workAfterCandidate.length ≤ p.workAfterCheck.length+1 := hadd ..
  have hbuild : p.workAfterBuild.length ≤ p.workAfterCandidate.length+1 := hadd ..
  have hcheckout : p.workAfterCheckout.length ≤ p.workAfterBuild.length+1 := hadd ..
  rw [work,List.length_cons]
  omega

section Runs
variable {parser : Parser} {s : State}

theorem feed_cons (s : State) (e : Event) (es : List Event) : feed parser s (e :: es) = feed parser (s.Step parser e).1 es := rfl

theorem step_done (h : s.phase = .done) (e : Event) : s.Step parser e = (s,none) := by
  unfold State.Step
  rw [if_pos h]

theorem feed_done (h : s.phase = .done) (es : List Event) : feed parser s es = s := by
  induction es with
  | nil => rfl
  | cons e es ih => rw [feed_cons,step_done h,ih]

/-- A machine that is not done and then passed, was fed events that did the work that was left. -/
theorem feed_passed (hvalid : s.plan.Valid) (hw : s.Working) {es : List Event} {f : Findings}
    (h : (feed parser s es).verdict = some (.passed f)) :
    ∃ pre later got, es = pre ++ later ∧ DoesAll parser s.plan s.left pre got
      ∧ f.samples = s.samples ++ got.map Reading.value ∧ f.observations = observed got s.others := by
  induction es generalizing s with
  | nil =>
    rw [feed,List.foldl_nil,hw.silent] at h
    cases h
  | cons e es ih =>
    rw [feed_cons] at h
    have hstep := @State.step_cases parser s e hvalid hw
    generalize hout : s.Step parser e = out at h hstep
    cases hstep with
    | ended s' hdone hnot =>
      rw [feed_done hdone] at h
      exact absurd h (hnot f)
    | worked s' request w got hwork hleft hplan hworking hadds =>
      obtain ⟨pre,later,rest,rfl,hall,hsamples,hothers⟩ := ih (hplan ▸ hvalid) hworking h
      refine ⟨e :: pre,later,got ++ rest,rfl,?_,?_,?_⟩
      · rw [hleft]
        exact .cons hwork (hplan ▸ hall)
      · rw [hsamples,hadds.1,List.map_append,List.append_assoc]
      · rw [hothers,hadds.2,observed,observed,List.foldl_append]
    | finished s' found hwork hleft hdone hverdict hsamples hothers =>
      rw [feed_done hdone,hverdict] at h
      obtain rfl := Verdict.passed.inj (Option.some.inj h)
      refine ⟨[e],es,[],rfl,?_,?_,?_⟩
      · rw [hleft]
        exact .cons hwork .nil
      · rw [hsamples,List.map_nil,List.append_nil]
      · exact hothers

theorem feed_ends (hvalid : s.plan.Valid) (hw : s.Working) {es : List Event} (h : s.left.length ≤ es.length) :
    (feed parser s es).phase = .done := by
  induction es generalizing s with
  | nil =>
    have hnone : s.left = [] := List.length_eq_zero_iff.mp (Nat.le_zero.mp h)
    have hgoing := hw.going
    cases hphase : s.phase <;> simp_all [State.left,Plan.work]
  | cons e es ih =>
    rw [feed_cons]
    have hstep := @State.step_cases parser s e hvalid hw
    generalize s.Step parser e = out at hstep
    cases hstep with
    | ended s' hdone hnot => rw [feed_done hdone,hdone]
    | worked s' request w got hwork hleft hplan hworking hadds =>
      rw [hleft,List.length_cons,List.length_cons] at h
      exact ih (hplan ▸ hvalid) hworking (Nat.le_of_succ_le_succ h)
    | finished s' found hwork hleft hdone hverdict hsamples hothers => rw [feed_done hdone,hdone]

theorem feed_working (hvalid : s.plan.Valid) (hw : s.Working) (es : List Event) :
    (feed parser s es).phase = .done ∨ (feed parser s es).plan = s.plan ∧ (feed parser s es).Working := by
  induction es generalizing s with
  | nil => exact .inr ⟨rfl,hw⟩
  | cons e es ih =>
    rw [feed_cons]
    have hstep := @State.step_cases parser s e hvalid hw
    generalize s.Step parser e = out at hstep
    cases hstep with
    | ended s' hdone hnot => exact .inl (by rw [feed_done hdone,hdone])
    | worked s' request w got hwork hleft hplan hworking hadds =>
      rw [← hplan]
      exact ih (hplan ▸ hvalid) hworking
    | finished s' found hwork hleft hdone hverdict hsamples hothers => exact .inl (by rw [feed_done hdone,hdone])

/-- A machine that is not done asks for one thing more, unless the event ends it. -/
theorem asks_until_done (hvalid : s.plan.Valid) (hw : s.Working) (e : Event) :
    (s.Step parser e).2.isSome = true ↔ (s.Step parser e).1.phase ≠ .done := by
  have hstep := @State.step_cases parser s e hvalid hw
  generalize s.Step parser e = out at hstep
  cases hstep with
  | ended s' hdone hnot => simp [hdone]
  | worked s' request w got hwork hleft hplan hworking hadds => simpa using hworking.going
  | finished s' found hwork hleft hdone hverdict hsamples hothers => simp [hdone]

end Runs

theorem Plan.Valid.objectives {parser : Parser} {p : Plan} (hp : p.Valid) (hkind : p.kind = .measure) {es : List Event}
    {got : List (Reading ℚ)} (h : DoesAll parser p p.work es got) {m : Metric} (hm : m ∈ p.objectives.metrics)
    (hname : m.name ≠ p.metric.name) : (valuesOf (observed got []) m.name).length = p.samples := by
  obtain ⟨hlength,hreads⟩ := h.reads
  rw [(observed_ordered List.Pairwise.nil).2,← hp.count_work,← hlength]
  have hone : ∀ g ∈ got, (Reading.of g m.name).length = 1 := fun g hg => by
    obtain ⟨r,hr⟩ := hreads g hg
    exact hr.one hp hkind hm hname
  rw [List.length_append,List.length_flatMap,List.map_congr_left hone]
  simp [valuesOf]

theorem of_Start {p : Plan} {s₀ : State} {request : Request} (h : Start p = .ok (s₀,request)) :
    p.Validate = none ∧ s₀ = { plan := p } := by
  unfold Start at h
  split at h
  · cases h
  · rename_i hnone
    exact ⟨hnone,(Prod.mk.inj (Except.ok.inj h)).1.symm⟩

/-- A job passes only by doing all its work: the events that led to the pass did the work of the plan in
order; the samples are those the runs left, in order, as many as the plan has, with as many values of every
objective besides the scored one; the machine is done after at most six events more than samples, ignores what
comes later, and asks for one thing at each event until then; and the result of the pass is accepted. -/
theorem passes_by_doing_all (parser : Parser) (p : Plan) {s₀ : State} {request : Request}
    (hstart : Start p = .ok (s₀,request)) (es : List Event) :
    (∀ f, (feed parser s₀ es).verdict = some (.passed f) → ∃ pre later got, es = pre ++ later
      ∧ DoesAll parser p p.work pre got
      ∧ f.samples = got.map Reading.value ∧ f.samples.length = p.samples
      ∧ (p.kind = .measure → ∀ m ∈ p.objectives.metrics, m.name ≠ p.metric.name →
        (valuesOf f.observations m.name).length = p.samples)
      ∧ ∀ (j : Job) (at_ : Time) (exitCode : Option ℤ), j.id ≠ "" → j.state = .running → j.spec.settings = some p.kind →
        j.key = p.key → j.environment = some p.environment → at_ ≠ 0 →
        j.Apply (p.succeeds j f at_ exitCode) = .ok (j.moved (p.succeeds j f at_ exitCode)))
    ∧ (p.samples+6 ≤ es.length → (feed parser s₀ es).Done = true)
    ∧ (∀ e, (feed parser s₀ es).Done = true → (feed parser s₀ es).Step parser e = (feed parser s₀ es,none))
    ∧ ∀ e, (feed parser s₀ es).Done = false →
      (((feed parser s₀ es).Step parser e).2.isSome = true ↔ ((feed parser s₀ es).Step parser e).1.Done = false) := by
  obtain ⟨hvalidate,rfl⟩ := of_Start hstart
  have hvalid := Plan.valid_of_Validate hvalidate
  have hw : State.Working { plan := p } := ⟨nofun,rfl,fun _ => ⟨rfl,rfl,nofun,nofun⟩,fun _ _ => ⟨rfl,rfl⟩,nofun⟩
  refine ⟨fun f hf => ?_,fun hlength => ?_,fun e hdone => ?_,fun e hgoing => ?_⟩
  · obtain ⟨pre,later,got,hes,hall,hsamples,hothers⟩ := feed_passed hvalid hw hf
    have hlength : f.samples.length = p.samples := by
      rw [hsamples,List.nil_append,List.length_map,hall.reads.1]
      exact hvalid.count_work
    refine ⟨pre,later,got,hes,hall,hsamples,hlength,fun hkind m hm hname => ?_,?_⟩
    · rw [hothers]
      exact hvalid.objectives hkind hall hm hname
    · intro j at_ exitCode hid hstate hkind hkey henvironment hat
      exact hvalid.accepted hlength hid hstate hkind hkey henvironment hat exitCode
  · have hends := @feed_ends parser { plan := p } hvalid hw es (p.length_work.trans hlength)
    simpa [State.Done] using hends
  · exact step_done (by simpa [State.Done] using hdone) e
  · rcases @feed_working parser { plan := p } hvalid hw es with hdone | ⟨hplan,hworking⟩
    · simp [State.Done,hdone] at hgoing
    · simpa [State.Done] using @asks_until_done parser _ (hplan ▸ hvalid) hworking e

/-- A plan of two samples that links a pass, and a parser of documents that say seven. -/
def twoSamples : Plan where
  kind := .measure
  task := "sort"
  taskVersion := "1"
  key := "k"
  environment := ⟨.host,.cpu,"",∅⟩
  benchmark := ⟨["bench"],1⟩
  result := ⟨false,"--out","score"⟩
  metric := ⟨"score",.maximize,""⟩
  samples := 2
  checkPass := "j1"

def sevens : Parser where
  parseLine _ _ := .error ⟨.malformedLine,""⟩
  decode _ := .ok (.object [("score",.number "7")],false)
  number _ := some 7

def sampleRun : Event := .ran { exec := ⟨.exited,0⟩, output := [55], found := true }

def measuring : Job where
  id := "j2"
  spec := ⟨"c",some .measure⟩
  state := .running
  key := "k"
  environment := some ⟨.host,.cpu,"",∅⟩
  startedAt := some 1
  finishedAt := none
  cancelReason := ""
  exitCode := none
  resultJob := ""
  checkJob := ""
  attempts := []

theorem passes_by_doing_all_two :
    let es : List Event := [.checkedOut "d" "t",.observed {} {},sampleRun,sampleRun,.observed {} {}]
    ∃ f, (feed sevens { plan := twoSamples } es).verdict = some (.passed f) ∧ f.samples.length = 2
      ∧ measuring.Apply (twoSamples.succeeds measuring f 5 none) = .ok (measuring.moved (twoSamples.succeeds measuring f 5 none)) := by
  intro es
  have hpassed : (feed sevens { plan := twoSamples } es).verdict = some (.passed { samples := [7,7] }) := by decide +kernel
  obtain ⟨hfindings,_⟩ := @passes_by_doing_all sevens twoSamples { plan := twoSamples } .checkout rfl es
  obtain ⟨_,_,_,_,_,_,hlength,_,haccepted⟩ := hfindings _ hpassed
  exact ⟨_,hpassed,hlength,haccepted measuring 5 none (by decide) rfl rfl rfl rfl (by decide)⟩

end Vibesys.Flow
