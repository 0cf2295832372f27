import Vibesys.Core.Life
import Vibesys.Lifecycle.Doubt
import Vibesys.Store.Fence

/-!
# The user's word on a running job

A file store's place with its jobs and the daemons that opened it, each with the jobs as its store
shows them and its lifecycle machine. Daemons commit moves of jobs while they pass the check, look at
jobs and settle those their record gives up. A history keeps the attempts that were running when the
record was removed: the user's word was given for these.
-/
namespace Vibesys.Store
open Vibesys.Core Vibesys.Library Vibesys.Lifecycle

abbrev Jobs := Roster Job.id

def runningJobs (jobs : Jobs) : List JobID := (jobs.items.filter fun j => j.state = .running).map Job.id

/-- The attempts that are running, each as its job and the attempts before it. -/
def runningAttempts (jobs : Jobs) : List (JobID × ℕ) :=
  (jobs.items.filter fun j => j.state = .running).map fun j => (j.id,j.attempts.length)

structure Daemon where
  ledger : Jobs
  machine : State

structure Place (Bytes : Type) where
  site : Site Bytes
  jobs : Jobs := ∅
  daemons : List Daemon := []
  removed : List (JobID × ℕ) := []

/-- How the store answers a look; `tries` are its answers to the reclaims, which are tried again. -/
structure LookAnswers where
  found : Bool := true
  read : Bool := true
  given : Bool := true
  tries : List (Option String × Publish) := []

/-- What a look reads of a job besides its state. -/
structure JobDetails where
  submittedAt : Time := 0
  work : Work := {}

/-- What a store has of a job whose run was found as `presence`, and whether the job is taken back
first. A running job the user gave up is given up only when no run of it is found here. -/
def jobIn (job : Job) (details : JobDetails) (presence : Presence) (given : List JobID) : JobIn × Bool :=
  let found : JobIn :=
    { state := job.state, submittedAt := details.submittedAt, givenUp := false, attempts := job.attempts.length
      policy := job.spec.settings.map rerunPolicyOf, work := details.work }
  if job.state ≠ .running ∨ job.id ∉ given then (found,false)
  else if Entry.aliveIn presence then (found,true)
  else ({ found with givenUp := true },false)

/-- What a store says of a job. A store that cannot say what it gave up gives up nothing. -/
def lookInStore (ledger : Jobs) (givenUp : List JobID) (job : JobID) (details : JobDetails) (presence : Presence)
    (answers : LookAnswers) : Finding × Bool :=
  if !answers.found || !answers.read then (.storeAway,false)
  else match ledger.find job with
    | none => (.noSuchJob,false)
    | some j => (jobIn j details presence (if j.state = .running ∧ answers.given then givenUp else [])).map .jobIn id

variable {Bytes : Type}

/-- Reclaims a job, trying again while the store refuses. -/
def retryReclaim [DecidableEq Bytes] (codec : Codec Bytes) (root : String) (s : Site Bytes) (store : ℕ) (job : JobID) :
    List (Option String × Publish) → Site Bytes
  | [] => s
  | (read,publish) :: tries =>
    match s.reclaim codec root store job read publish with
    | (s,none) => s
    | (s,some _) => retryReclaim codec root s store job tries

inductive PlaceAct
  | open_ (owner : Owner) (answers : OpenAnswers) (scheduling : Scheduling)
  | remove
  | close (store : ℕ)
  | submit (store : ℕ) (submission : Submission) (n : ℕ) (publish : Publish)
  | move (store : ℕ) (t : Transition) (publish : Publish)
  | reload (store : ℕ)
  | event (store : ℕ) (e : Event)
  | look (store : ℕ) (job : JobID) (details : JobDetails) (presence : Presence) (at_ : Time) (answers : LookAnswers)

namespace Place

/-- Makes a job durable, if the store still belongs to the daemon. A commit that fails may be
durable all the same. -/
def commit [DecidableEq Bytes] (codec : Codec Bytes) (root : String) (p : Place Bytes) (store : ℕ) (g : Guard Bytes) (d : Daemon) (job : Job)
    (publish : Publish) : Place Bytes :=
  if g.check codec root p.site.owner none = none then
    match publish with
    | .done => { p with jobs := p.jobs.push job, daemons := p.daemons.set store { d with ledger := d.ledger.push job } }
    | .failed _ => p
    | .failedAfter _ => { p with jobs := p.jobs.push job }
  else p

/-- What an open store is asked, by its guard and its daemon. -/
def onStore {α : Type} (p : Place Bytes) (store : ℕ) (none_ : α) (f : Guard Bytes → Daemon → α) : α :=
  match p.site.guards[store]?,p.daemons[store]? with
  | some g,some d => f g d
  | _,_ => none_

/-- An open is a daemon's start: it has the jobs from the store and a machine that recovers. -/
def open_ (codec : Codec Bytes) (root : String) (p : Place Bytes) (owner : Owner) (answers : OpenAnswers)
    (scheduling : Scheduling) : Place Bytes :=
  match ({ p.site with running := runningJobs p.jobs } : Site Bytes).open_ codec root owner answers with
  | (site,some _) => { p with site := site }
  | (site,none) => { p with site := site, daemons := p.daemons ++ [⟨p.jobs,RecoveringWith scheduling⟩] }

/-- A look at a job of the store, which the machine is told at once. -/
def look [DecidableEq Bytes] (codec : Codec Bytes) (root : String) (id : StoreID) (p : Place Bytes) (store : ℕ) (job : JobID)
    (details : JobDetails) (presence : Presence) (at_ : Time) (answers : LookAnswers) : Place Bytes × List Request :=
  p.onStore store (p,[]) fun g d =>
    let found := lookInStore d.ledger g.rec_.givenUp job details presence answers
    let stepped := Step d.machine (.recovered ⟨⟨id,job⟩,found.1,presence,at_⟩)
    ({ p with
        site := if found.2 then retryReclaim codec root p.site store job answers.tries else p.site
        daemons := p.daemons.set store { d with machine := stepped.1 } },stepped.2)

/-- A look at a job of this store comes only from the store. -/
def lookedElsewhere (id : StoreID) : Event → Bool
  | .recovered e => e.ref.store ≠ id
  | _ => true

def step [DecidableEq Bytes] (codec : Codec Bytes) (root : String) (id : StoreID) (p : Place Bytes) : PlaceAct → Place Bytes
  | .open_ owner answers scheduling => p.open_ codec root owner answers scheduling
  | .remove => { p with site := p.site.remove, removed := p.removed ++ runningAttempts p.jobs }
  | .close store => { p with site := p.site.close store }
  | .submit store submission n publish => p.onStore store p fun g d =>
    match submission.create n with
    | .ok job => if (d.ledger.find job.id).isSome then p else p.commit codec root store g d job publish
    | .error _ => p
  | .move store t publish => p.onStore store p fun g d =>
    match d.ledger.find t.job with
    | none => p
    | some j =>
      match j.Apply t with
      | .ok job => p.commit codec root store g d job publish
      | .error _ => p
  | .reload store => p.onStore store p fun g d =>
    if g.check codec root p.site.owner none = none then
      { p with daemons := p.daemons.set store { d with ledger := p.jobs } }
    else p
  | .event store e => p.onStore store p fun _ d =>
    if lookedElsewhere id e then { p with daemons := p.daemons.set store { d with machine := (Step d.machine e).1 } }
    else p
  | .look store job details presence at_ answers =>
    (p.look codec root id store job details presence at_ answers).1

/-- No daemon queues a job again that its record gives up. -/
def KeepsWord (p : Place Bytes) : PlaceAct → Prop
  | .move store t _ => ∀ g, p.site.guards[store]? = some g → t.to_ = .queued → t.job ∉ g.rec_.givenUp
  | _ => True

/-- A job that is given up is not queued, and if it runs, the record was removed while this attempt
of it did. -/
def Given (removed : List (JobID × ℕ)) (jobs : Jobs) (job : JobID) : Prop :=
  ∃ j, jobs.find job = some j ∧ j.state ≠ .queued ∧ (j.state = .running → (job,j.attempts.length) ∈ removed)

structure Kept (codec : Codec Bytes) (p : Place Bytes) : Prop where
  wrote : p.site.Wrote codec
  daemons : p.daemons.length = p.site.guards.length
  held : ∀ (i : ℕ) (g : Guard Bytes) (d : Daemon), p.site.guards[i]? = some g → p.daemons[i]? = some d →
    ∀ job ∈ g.rec_.givenUp, Given p.removed d.ledger job
  written : ∀ data r, p.site.owner = some data → codec.decode data = .ok r →
    ∀ job ∈ r.givenUp, Given p.removed p.jobs job
  gone : p.site.owner = none → ∀ j ∈ p.jobs.items, j.state = .running → (j.id,j.attempts.length) ∈ p.removed

theorem Kept.start (codec : Codec Bytes) : Kept codec { site := { owner := none, running := [] } } where
  wrote := by simp [Site.Wrote]
  daemons := rfl
  held := by simp
  written := by simp
  gone _ j hj := absurd hj (List.not_mem_nil)

theorem onStore_eq {α : Type} {p : Place Bytes} {store : ℕ} {none_ : α} {f : Guard Bytes → Daemon → α} {g : Guard Bytes}
    {d : Daemon} (hg : p.site.guards[store]? = some g) (hd : p.daemons[store]? = some d) :
    p.onStore store none_ f = f g d := by
  simp [onStore,hg,hd]

theorem onStore_cases {α : Type} (p : Place Bytes) (store : ℕ) (none_ : α) (f : Guard Bytes → Daemon → α) :
    p.onStore store none_ f = none_
      ∨ ∃ g d, p.site.guards[store]? = some g ∧ p.daemons[store]? = some d ∧ p.onStore store none_ f = f g d := by
  unfold onStore
  cases hg : p.site.guards[store]? with
  | none => exact .inl rfl
  | some g =>
    cases hd : p.daemons[store]? with
    | none => exact .inl rfl
    | some d => exact .inr ⟨g,d,rfl,rfl,rfl⟩

theorem Given.mono {removed removed' : List (JobID × ℕ)} {jobs : Jobs} {job : JobID} (h : Given removed jobs job)
    (hsub : removed ⊆ removed') : Given removed' jobs job := by
  obtain ⟨j,hj,hqueued,hrunning⟩ := h
  exact ⟨j,hj,hqueued,fun hrun => hsub (hrunning hrun)⟩

theorem Given.push {removed : List (JobID × ℕ)} {jobs : Jobs} {job : JobID} (h : Given removed jobs job) {j : Job}
    (hj : j.id = job → j.state.Final = true) : Given removed (jobs.push j) job := by
  obtain ⟨j₀,hj₀,hqueued,hrunning⟩ := h
  by_cases hid : j.id = job
  · obtain ⟨hnotQueued,hnotRunning⟩ := JobState.final_cases (hj hid)
    exact ⟨j,by rw [Roster.find_push,if_pos hid],hnotQueued,fun hrun => absurd hrun hnotRunning⟩
  · exact ⟨j₀,by rw [Roster.find_push,if_neg hid]; exact hj₀,hqueued,hrunning⟩

theorem Kept.set {codec : Codec Bytes} {p : Place Bytes} (h : Kept codec p) {store : ℕ} {g : Guard Bytes}
    (hg : p.site.guards[store]? = some g) {d : Daemon} (hd : ∀ job ∈ g.rec_.givenUp, Given p.removed d.ledger job) :
    Kept codec { p with daemons := p.daemons.set store d } where
  wrote := h.wrote
  daemons := by simpa using h.daemons
  held i g' d' hg' hd' := by
    rcases getElem?_set_cases hd' with ⟨rfl,rfl⟩ | hd'
    · obtain rfl : g = g' := Option.some.inj (hg.symm.trans hg')
      exact hd
    · exact h.held i g' d' hg' hd'
  written := h.written
  gone := h.gone

theorem Kept.record [DecidableEq Bytes] {codec : Codec Bytes} {root : String} {p : Place Bytes} (h : Kept codec p) {store : ℕ} {g : Guard Bytes}
    (hg : p.site.guards[store]? = some g) (hcheck : g.check codec root p.site.owner none = none) :
    p.site.owner = some g.mine ∧ codec.decode g.mine = .ok g.rec_ := by
  obtain ⟨hmine,hvalid⟩ := h.wrote store g hg
  refine ⟨(Guard.check_eq_none.mp hcheck).2.2,?_⟩
  rw [hmine]
  exact codec.decode_marshal _ hvalid

theorem Kept.commit [DecidableEq Bytes] {codec : Codec Bytes} {root : String} {p : Place Bytes} (h : Kept codec p) {store : ℕ} {g : Guard Bytes}
    {d : Daemon} (hg : p.site.guards[store]? = some g) (hd : p.daemons[store]? = some d) {job : Job}
    (hjob : job.id ∈ g.rec_.givenUp → job.state.Final = true) (publish : Publish) :
    Kept codec (p.commit codec root store g d job publish) := by
  unfold Place.commit
  split_ifs with hcheck
  · obtain ⟨howner,hdecode⟩ := h.record hg hcheck
    have hdurable : Kept codec { p with jobs := p.jobs.push job } := by
      refine ⟨h.wrote,h.daemons,h.held,fun data r hdata hr given hgiven => ?_,fun hnone => ?_⟩
      · obtain rfl : g.mine = data := Option.some.inj (howner.symm.trans hdata)
        obtain rfl : g.rec_ = r := Except.ok.inj (hdecode.symm.trans hr)
        exact (h.written _ _ howner hdecode given hgiven).push fun hid => hjob (hid ▸ hgiven)
      · exact absurd (howner.symm.trans hnone) (by simp)
    cases publish with
    | done =>
      refine hdurable.set hg fun given hgiven => ?_
      exact (h.held store g d hg hd given hgiven).push fun hid => hjob (hid ▸ hgiven)
    | failed => exact h
    | failedAfter => exact hdurable
  · exact h

theorem Kept.rewrite {codec : Codec Bytes} {p : Place Bytes} (h : Kept codec p) {site : Site Bytes}
    (hwrote : site.Wrote codec) (hlength : site.guards.length = p.site.guards.length)
    (hguards : ∀ (i : ℕ) (g : Guard Bytes), site.guards[i]? = some g →
      ∃ g₀, p.site.guards[i]? = some g₀ ∧ g.rec_.givenUp ⊆ g₀.rec_.givenUp)
    (howner : site.owner = p.site.owner ∨ ∃ r r₀ data, site.owner = some (codec.marshal r) ∧ r.generation ≠ 0
      ∧ p.site.owner = some data ∧ codec.decode data = .ok r₀ ∧ r.givenUp ⊆ r₀.givenUp) :
    Kept codec { p with site := site } where
  wrote := hwrote
  daemons := h.daemons.trans hlength.symm
  held i g d hg hd job hjob := by
    obtain ⟨g₀,hg₀,hsub⟩ := hguards i g hg
    exact h.held i g₀ d hg₀ hd job (hsub hjob)
  written data r hdata hr job hjob := by
    rcases howner with howner | ⟨r',r₀,data₀,hnew,hvalid,hold,hread,hsub⟩
    · exact h.written data r (howner ▸ hdata) hr job hjob
    · obtain rfl : codec.marshal r' = data := Option.some.inj (hnew.symm.trans hdata)
      obtain rfl : r' = r := Except.ok.inj ((codec.decode_marshal r' hvalid).symm.trans hr)
      exact h.written data₀ r₀ hold hread job (hsub hjob)
  gone hnone := by
    rcases howner with howner | ⟨r,r₀,data,hnew,_⟩
    · exact h.gone (howner ▸ hnone)
    · exact absurd (hnew.symm.trans hnone) (by simp)

theorem Kept.reclaim [DecidableEq Bytes] {codec : Codec Bytes} {p : Place Bytes} (h : Kept codec p) (root : String) (store : ℕ)
    (job : JobID) (read : Option String) (publish : Publish) :
    Kept codec { p with site := (p.site.reclaim codec root store job read publish).1 } := by
  have hless : ∀ r : OwnerRec, (r.without job).givenUp ⊆ r.givenUp := fun r => List.filter_subset_self _
  have hwrote := h.wrote.reclaim root store job read publish
  rcases Site.reclaim_cases codec root p.site store job read publish with heq | ⟨g,hg,howner,heq | heq⟩
  · rw [heq]
    exact h
  · obtain ⟨hmine,hvalid⟩ := h.wrote store g hg
    refine h.rewrite hwrote (by rw [heq]) ?_ (.inr ⟨g.rec_.without job,g.rec_,g.mine,by rw [heq],hvalid,howner,?_,hless _⟩)
    · rw [heq]
      exact fun i g' hg' => ⟨g',hg',List.Subset.refl _⟩
    · rw [hmine]
      exact codec.decode_marshal _ hvalid
  · obtain ⟨hmine,hvalid⟩ := h.wrote store g hg
    refine h.rewrite hwrote (by rw [heq]; simp) ?_ (.inr ⟨g.rec_.without job,g.rec_,g.mine,by rw [heq],hvalid,howner,?_,hless _⟩)
    · rw [heq]
      intro i g' hg'
      rcases getElem?_set_cases hg' with ⟨rfl,rfl⟩ | hg'
      · exact ⟨g,hg,hless _⟩
      · exact ⟨g',hg',List.Subset.refl _⟩
    · rw [hmine]
      exact codec.decode_marshal _ hvalid

theorem Kept.retryReclaim [DecidableEq Bytes] {codec : Codec Bytes} {p : Place Bytes} (h : Kept codec p) (root : String)
    (store : ℕ) (job : JobID) (tries : List (Option String × Publish)) :
    Kept codec { p with site := retryReclaim codec root p.site store job tries } := by
  induction tries generalizing p with
  | nil => exact h
  | cons try_ tries ih =>
    have hone := h.reclaim root store job try_.1 try_.2
    unfold Store.retryReclaim
    cases hreclaim : p.site.reclaim codec root store job try_.1 try_.2 with
    | mk site why =>
      rw [hreclaim] at hone
      cases why with
      | none => exact hone
      | some e => exact ih hone

/-- The jobs an open gives up: those its place finds running with no record, and those given up
before that still run. -/
theorem Kept.given_claim {codec : Codec Bytes} {root : String} {p : Place Bytes} (h : Kept codec p) {owner : Owner}
    {answers : OpenAnswers} {r : OwnerRec}
    (hr : claim codec root p.site.owner owner (runningJobs p.jobs) answers = .ok r) :
    ∀ job ∈ r.givenUp, Given p.removed p.jobs job := by
  obtain ⟨last,hread,htake⟩ := claim_ok hr
  obtain ⟨running,hsub,rfl⟩ : ∃ running, running ⊆ runningJobs p.jobs ∧ r = nextRecord last owner running := by
    rcases takeRecord_ok htake with ⟨_,hr,_⟩ | ⟨_,hr⟩
    · exact ⟨_,List.Subset.refl _,hr⟩
    · exact ⟨_,List.nil_subset _,hr⟩
  have hfound : ∀ job ∈ runningJobs p.jobs, ∃ j ∈ p.jobs.items, j.state = .running ∧ j.id = job := by
    intro job hjob
    obtain ⟨j,hj,rfl⟩ := List.mem_map.mp hjob
    obtain ⟨hmem,hstate⟩ := List.mem_filter.mp hj
    exact ⟨j,hmem,by simpa using hstate,rfl⟩
  intro job hjob
  cases last with
  | none =>
    obtain ⟨j,hmem,hstate,rfl⟩ := hfound job (hsub hjob)
    have hgone : p.site.owner = none := by
      cases howner : p.site.owner with
      | none => rfl
      | some data =>
        rw [howner,readOwner] at hread
        cases hdecode : codec.decode data <;> simp [hdecode,Except.map] at hread
    exact ⟨j,Roster.mem_iff.mp hmem,by simp [hstate],fun _ => h.gone hgone j hmem hstate⟩
  | some l =>
    obtain ⟨hjob,hgiven⟩ := List.mem_filter.mp hjob
    obtain ⟨data,howner,hdecode⟩ : ∃ data, p.site.owner = some data ∧ codec.decode data = .ok l := by
      cases howner : p.site.owner with
      | none => rw [howner,readOwner] at hread; cases hread
      | some data =>
        refine ⟨data,rfl,?_⟩
        rw [howner,readOwner] at hread
        cases hdecode : codec.decode data with
        | error e => simp [hdecode,Except.map] at hread
        | ok l' => simpa [hdecode,Except.map] using hread
    exact h.written data l howner hdecode job (by simpa using hgiven)

theorem Kept.recorded {codec : Codec Bytes} {root : String} {p : Place Bytes} (h : Kept codec p) {owner : Owner}
    {answers : OpenAnswers} {r : OwnerRec}
    (hr : claim codec root p.site.owner owner (runningJobs p.jobs) answers = .ok r) (hvalid : r.generation ≠ 0)
    (running : List JobID) :
    Kept codec { p with site := { p.site with running := running, owner := some (codec.marshal r), writer := none } } where
  wrote := h.wrote
  daemons := h.daemons
  held := h.held
  written data r' hdata hr' := by
    obtain rfl : codec.marshal r = data := Option.some.inj hdata
    obtain rfl : r = r' := Except.ok.inj ((codec.decode_marshal r hvalid).symm.trans hr')
    exact h.given_claim hr
  gone := nofun

theorem Kept.open_ {codec : Codec Bytes} {p : Place Bytes} (h : Kept codec p) (root : String) (owner : Owner)
    (answers : OpenAnswers) (scheduling : Scheduling) : Kept codec (p.open_ codec root owner answers scheduling) := by
  unfold Place.open_
  rcases Site.open_cases codec root { p.site with running := runningJobs p.jobs } owner answers with
    ⟨e,heq⟩ | ⟨r,hr,hvalid,⟨e,heq⟩ | heq⟩ <;> rw [heq]
  · exact ⟨h.wrote,h.daemons,h.held,h.written,h.gone⟩
  · exact h.recorded hr hvalid _
  · have hgiven := h.given_claim hr
    refine ⟨?_,by simpa using h.daemons,fun i g d hg hd => ?_,(h.recorded hr hvalid []).written,nofun⟩
    · intro i g hg
      rcases getElem?_append_singleton hg with hg | ⟨_,rfl⟩
      · exact h.wrote i g hg
      · exact ⟨rfl,hvalid⟩
    · rcases getElem?_append_singleton hg with hg | ⟨rfl,rfl⟩ <;>
        rcases getElem?_append_singleton hd with hd | ⟨hi,rfl⟩
      · exact h.held i g d hg hd
      · have hlt : i < p.site.guards.length := (List.getElem?_eq_some_iff.mp hg).1
        have := h.daemons
        omega
      · have hlt : p.site.guards.length < p.daemons.length := (List.getElem?_eq_some_iff.mp hd).1
        have := h.daemons
        omega
      · exact hgiven

theorem Kept.step [DecidableEq Bytes] {codec : Codec Bytes} {root : String} {id : StoreID} (p : Place Bytes) (a : PlaceAct)
    (h : Kept codec p) (hword : p.KeepsWord a) : Kept codec (p.step codec root id a) := by
  cases a with
  | open_ owner answers scheduling => exact h.open_ root owner answers scheduling
  | remove =>
    refine ⟨h.wrote,h.daemons,fun i g d hg hd job hjob => ?_,nofun,fun _ j hj hstate => ?_⟩
    · exact (h.held i g d hg hd job hjob).mono (List.subset_append_left _ _)
    · refine List.mem_append_right _ (List.mem_map.mpr ⟨j,List.mem_filter.mpr ⟨hj,by simpa using hstate⟩,rfl⟩)
  | close store =>
    refine h.rewrite (h.wrote.close store) (by simp [Site.close]) (fun i g hg => ?_) (.inl rfl)
    obtain ⟨g₀,hg₀,hrec,_⟩ := Site.getElem?_close hg
    exact ⟨g₀,hg₀,by rw [hrec]; exact List.Subset.refl _⟩
  | submit store submission n publish =>
    rcases onStore_cases p store p _ with heq | ⟨g,d,hg,hd,heq⟩ <;> rw [Place.step,heq]
    · exact h
    · split
      · rename_i job hcreate
        split_ifs with hknown
        · exact h
        · refine h.commit hg hd (fun hgiven => ?_) publish
          obtain ⟨j,hj,_⟩ := h.held store g d hg hd job.id hgiven
          exact absurd (by rw [hj]; rfl) hknown
      · exact h
  | move store t publish =>
    rcases onStore_cases p store p _ with heq | ⟨g,d,hg,hd,heq⟩ <;> rw [Place.step,heq]
    · exact h
    · split
      · exact h
      · rename_i j hj
        split
        · rename_i job happly
          obtain ⟨rfl,_,hmove⟩ := Job.of_apply happly
          refine h.commit hg hd (fun hgiven => ?_) publish
          rw [Job.moved_id,Roster.key_of_find hj] at hgiven
          obtain ⟨j',hj',hqueued,_⟩ := h.held store g d hg hd t.job hgiven
          obtain rfl : j = j' := Option.some.inj (hj.symm.trans hj')
          rw [Job.moved_state]
          rcases JobState.of_canMoveTo hmove with ⟨hstate,_⟩ | ⟨_,hto | hfinal⟩
          · exact absurd hstate hqueued
          · exact absurd hgiven (hword g hg hto)
          · exact hfinal
        · exact h
  | reload store =>
    rcases onStore_cases p store p _ with heq | ⟨g,d,hg,hd,heq⟩ <;> rw [Place.step,heq]
    · exact h
    · split_ifs with hcheck
      · obtain ⟨howner,hdecode⟩ := h.record hg hcheck
        exact h.set hg fun job hjob => h.written _ _ howner hdecode job hjob
      · exact h
  | event store e =>
    rcases onStore_cases p store p _ with heq | ⟨g,d,hg,hd,heq⟩ <;> rw [Place.step,heq]
    · exact h
    · split_ifs
      · exact h.set hg (h.held store g d hg hd)
      · exact h
  | look store job details presence at_ answers =>
    rw [Place.step,Place.look]
    rcases onStore_cases p store (p,[]) _ with heq | ⟨g,d,hg,hd,heq⟩ <;> rw [heq]
    · exact h
    · have hset := h.set (d := { d with machine := (Step d.machine (.recovered ⟨⟨id,job⟩,
        (lookInStore d.ledger g.rec_.givenUp job details presence answers).1,presence,at_⟩)).1 }) hg (h.held store g d hg hd)
      dsimp only
      split_ifs
      · exact hset.retryReclaim root store job answers.tries
      · exact hset

/-- What is right about a look: a job is settled as given up only if the record was removed while the
attempt its store has running was running, and a running job whose attempt was never given up stays in
doubt while its run is out of sight. -/
def Rightly [DecidableEq Bytes] (codec : Codec Bytes) (root : String) (id : StoreID) (p : Place Bytes) : PlaceAct → Prop
  | .look store job details presence at_ answers =>
    ((∃ q ∈ (p.look codec root id store job details presence at_ answers).2, q.Target = ⟨id,job⟩ ∧ q.GivesUp) →
      ∃ d j, p.daemons[store]? = some d ∧ d.ledger.find job = some j ∧ j.state = .running
        ∧ (job,j.attempts.length) ∈ p.removed)
    ∧ ∀ d j, p.daemons[store]? = some d → d.ledger.find job = some j → j.state = .running →
      (job,j.attempts.length) ∉ p.removed → answers.found = true → answers.read = true →
      (presence = .none_ ∨ ∃ limit, presence = .unknown limit) →
      (∀ cur, d.machine.find ⟨id,job⟩ = some cur → cur.phase = .inDoubt) →
      ∃ d' cur, (p.look codec root id store job details presence at_ answers).1.daemons[store]? = some d'
        ∧ d'.machine.find ⟨id,job⟩ = some cur ∧ cur.phase = .inDoubt
  | _ => True

theorem jobIn_givenUp (j : Job) (details : JobDetails) (presence : Presence) (given : List JobID) :
    (jobIn j details presence given).1.state = j.state
      ∧ ((jobIn j details presence given).1.givenUp = true → j.id ∈ given) := by
  unfold jobIn
  dsimp only
  split_ifs with hnot
  · exact ⟨rfl,nofun⟩
  · exact ⟨rfl,nofun⟩
  · exact ⟨rfl,fun _ => not_not.mp (not_or.mp hnot).2⟩

theorem lookInStore_jobIn {ledger : Jobs} {job : JobID} {j : Job} (hj : ledger.find job = some j) (givenUp : List JobID)
    (details : JobDetails) (presence : Presence) {answers : LookAnswers} (hfound : answers.found = true)
    (hread : answers.read = true) :
    ∃ f, (lookInStore ledger givenUp job details presence answers).1 = .jobIn f ∧ f.state = j.state
      ∧ (f.givenUp = true → job ∈ givenUp) := by
  obtain ⟨hstate,hgiven⟩ :=
    jobIn_givenUp j details presence (if j.state = .running ∧ answers.given then givenUp else [])
  refine ⟨_,by simp [lookInStore,hfound,hread,hj],hstate,fun h => ?_⟩
  have hmem := hgiven h
  rw [Roster.key_of_find hj] at hmem
  split_ifs at hmem
  · exact hmem
  · cases hmem

theorem Kept.rightly [DecidableEq Bytes] {codec : Codec Bytes} {root : String} {id : StoreID} {p : Place Bytes}
    (h : Kept codec p) (a : PlaceAct) : p.Rightly codec root id a := by
  cases a with
  | look store job details presence at_ answers =>
    rw [Rightly,Place.look]
    constructor
    · rintro ⟨q,hq,href,hgives⟩
      rcases onStore_cases p store (p,[]) _ with heq | ⟨g,d,hg,hd,heq⟩ <;> rw [heq] at hq
      · cases hq
      · obtain ⟨f,hfinding,hstate,hgiven⟩ := State.givesUp_of_step hq href hgives
        obtain ⟨j,hj,hfound,hread⟩ : ∃ j, d.ledger.find job = some j ∧ answers.found = true ∧ answers.read = true := by
          simp only [lookInStore] at hfinding
          split_ifs at hfinding with haway
          cases hj : d.ledger.find job with
          | none => simp [hj] at hfinding
          | some j => exact ⟨j,rfl,by simpa using haway⟩
        obtain ⟨f',hf',hstate',hmem⟩ := lookInStore_jobIn hj g.rec_.givenUp details presence hfound hread
        obtain rfl : f' = f := Finding.jobIn.inj (hf'.symm.trans hfinding)
        obtain ⟨j',hj',_,hremoved⟩ := h.held store g d hg hd job (hmem hgiven)
        obtain rfl : j = j' := Option.some.inj (hj.symm.trans hj')
        have hrunning : j.state = .running := hstate'.symm.trans hstate
        exact ⟨d,j,hd,hj,hrunning,hremoved hrunning⟩
    · intro d j hd hj hrunning hnever hfound hread hpresence hheld
      have hlt : store < p.daemons.length := (List.getElem?_eq_some_iff.mp hd).1
      obtain ⟨g,hg⟩ : ∃ g, p.site.guards[store]? = some g := ⟨_,List.getElem?_eq_getElem (h.daemons ▸ hlt)⟩
      rw [onStore_eq hg hd]
      obtain ⟨f,hf,hstate,hmem⟩ := lookInStore_jobIn hj g.rec_.givenUp details presence hfound hread
      have hgiven : f.givenUp = false := by
        by_contra hgiven
        obtain ⟨j',hj',_,hremoved⟩ := h.held store g d hg hd job (hmem (by simpa using hgiven))
        obtain rfl : j = j' := Option.some.inj (hj.symm.trans hj')
        exact hnever (hremoved hrunning)
      obtain ⟨cur,hcur,hphase⟩ := State.inDoubt_of_step (e := ⟨⟨id,job⟩,_,presence,at_⟩) hf (hstate.trans hrunning) hgiven
        hpresence hheld
      exact ⟨_,cur,List.getElem?_set_self hlt,hcur,hphase⟩
  | _ => trivial

/-- In a history in which no daemon queues a job again that its record gives up, the user's word covers
only the attempts it was given for. -/
theorem given_up_for_attempt [DecidableEq Bytes] (codec : Codec Bytes) (root : String) (id : StoreID)
    (acts : List PlaceAct)
    (h : Along (Place.step codec root id) Place.KeepsWord { site := { owner := none, running := [] } } acts) :
    Along (Place.step codec root id) (Place.Rightly codec root id) { site := { owner := none, running := [] } } acts :=
  Along.ensures (fun p a hp hword => ⟨hp.step p a hword,hp.rightly a⟩) (Kept.start codec) h

/-- A store with a job that runs its first attempt, given up by the removal of the record and taken
over by the next daemon of the same place. -/
def takenOver : List PlaceAct :=
  [.open_ ⟨"a","/run/a",7⟩ {} OneAtATime,.submit 0 ⟨⟨"c",some .check⟩,"k"⟩ 0 .done,
    .move 0 { job := "j1", from_ := .queued, to_ := .running, at_ := 1, environment := some ⟨.host,.cpu,"",∅⟩ } .done,
    .remove,.open_ ⟨"a","/run/a",8⟩ {} OneAtATime]

/-- The daemon that takes the store over finds no run of the job and settles it as given up. -/
theorem given_up_for_attempt_takenOver :
    let id : StoreID := ⟨"s",by decide⟩
    let p := run (Place.step Codec.plain "/store" id) { site := { owner := none, running := [] } } takenOver
    .move ⟨id,"j1"⟩ (givenUpJob "j1" 2) true ∈ (p.look Codec.plain "/store" id 1 "j1" {} .none_ 2 {}).2
      ∧ ∃ d j, p.daemons[1]? = some d ∧ d.ledger.find "j1" = some j ∧ j.state = .running
        ∧ ("j1",j.attempts.length) ∈ p.removed := by
  intro id p
  have hgives : .move ⟨id,"j1"⟩ (givenUpJob "j1" 2) true ∈ (p.look Codec.plain "/store" id 1 "j1" {} .none_ 2 {}).2 := by
    decide +kernel
  have hright := given_up_for_attempt Codec.plain "/store" id (takenOver ++ [.look 1 "j1" {} .none_ 2 {}])
    (by
      unfold takenOver
      exact ⟨trivial,trivial,fun _ _ hto => (by cases hto),trivial,trivial,trivial,trivial⟩)
  obtain ⟨_,_,_,_,_,hlook,_⟩ := hright
  exact ⟨hgives,hlook.1 ⟨_,hgives,rfl,_,_,_,_,rfl⟩⟩

/-- The daemon that takes the store over finds the job's supervisor dead, queues the job again and
launches it anew. The second attempt goes out of sight, and the machine settles it as given up,
though the record was removed during the first. -/
theorem given_up_for_another_attempt :
    let id : StoreID := ⟨"s",by decide⟩
    let ref : Ref := ⟨id,"j1"⟩
    let requeue : Transition :=
      { job := "j1", from_ := .running, to_ := .queued, at_ := 2, cut := some (.midCommand .rebooted) }
    let p := run (Place.step Codec.plain "/store" id) { site := { owner := none, running := [] } } takenOver
    let dead := p.look Codec.plain "/store" id 1 "j1" {} (.dead .rebooted (some .mayHaveStarted)) 2 {}
    let p' := run (Place.step Codec.plain "/store" id) dead.1
      [.move 1 requeue .done,.event 1 (.requeued ref),.event 1 (.discarded ref 2),.event 1 .recoveryDone,
        .move 1 { job := "j1", from_ := .queued, to_ := .running, at_ := 3
                  environment := some ⟨.host,.cpu,"",∅⟩ } .done,
        .event 1 (.launched ref),.event 1 (.followFailed ⟨ref,.supervisorSilent,⟨.unavailable,"no answer"⟩,4⟩),
        .event 1 (.stopFailed ref ⟨.unavailable,"no answer"⟩)]
    .move ref (cutAt "j1" 1 (.midCommand .rebooted) 2) false ∈ dead.2
      ∧ (cutAt "j1" 1 (.midCommand .rebooted) 2).transition = requeue
      ∧ .move ref (givenUpJob "j1" 5) true ∈ (p'.look Codec.plain "/store" id 1 "j1" {} .none_ 5 {}).2
      ∧ ((p'.daemons[1]?.bind fun d => d.ledger.find "j1").map fun j => (j.state,j.attempts.length)) = some (.running,1)
      ∧ p'.removed = [("j1",0)] := by
  decide +kernel

end Place
end Vibesys.Store
