import Vibesys.Outbox.Calls

/-!
# The daemon and its outbox

The loop claims effects, carries them out in order and settles their rows. It is cut at every call of the store
and of the world, so that commits fall between any two of them and the daemon may die at any of them. Its lists
`done` and `retry` are in memory and hold the ids that are still to be completed or released.
-/
namespace Vibesys.Delivery

open Library Orchestrator Outbox

/-- The session an effect is for, the zero session if it is for none. -/
def effectSession : Effect → Session
  | .launchSession session _ _ _ _ => session
  | .startTurn session _ _ => session
  | .steer session _ _ => session
  | .interrupt session _ => session
  | .closeSession session _ => session
  | .releaseCheckouts _ => ⟨"",0⟩
  | .computeWindowFacts _ _ _ _ => ⟨"",0⟩
  | .armTimer _ => ⟨"",0⟩

theorem runAfter_of_session {e : Effect} (h : effectSession e ≠ ⟨"",0⟩) : runAfter e = 0 := by
  cases e with
  | armTimer timer => exact absurd rfl h
  | launchSession session run role spec token => rfl
  | startTurn session turn message => rfl
  | steer session turn message => rfl
  | interrupt session turn => rfl
  | closeSession session force => rfl
  | releaseCheckouts run => rfl
  | computeWindowFacts checkIn run since until_ => rfl

/-- What follows a `settle`: the claim of `runEffects`, or the end of `deliver`. -/
inductive Next
  | claim
  | idle

/-- Where the loop stands. `delivering` holds what is left of the claimed effects and the sessions held back. -/
inductive Point
  | down
  | idle
  | completing (next : Next)
  | releasing (next : Next)
  | claiming (limit : ℤ)
  | delivering (claimed : List (Claimed (Queued Effect))) (held : List Session)

structure Daemon where
  world : World Effect := { closed := true }
  point : Point := .down
  done : List ℕ := []
  retry : List ℕ := []
  /-- Every effect that was committed. -/
  committed : List (Queued Effect) := []
  /-- What was carried out, in order, and whether it went without error. -/
  carried : List (Queued Effect × Bool) := []

/-- What happens next: a commit from anywhere, the start of a `Step` or `Reattach`, the next call of the loop with
how it ends, or the death and start of the daemon. -/
inductive Move
  | commit (effects : List Effect) (o : Outcome)
  | runEffects
  | reattach
  | settle (o : Outcome)
  | claim (now : ℤ) (o : Outcome)
  | carryOut (ok : Bool)
  | crash
  | start (o : Outcome)

def maxInt32 : ℤ := 2147483647

def batchOf (batch : ℤ) : ℤ := if batch ≤ 0 then 64 else batch

namespace Daemon

def push (d : Daemon) (effect : Effect) : Daemon :=
  { d with world := d.world.push runAfter effect, committed := d.committed ++ [⟨d.world.next,effect⟩] }

def commit (d : Daemon) (effects : List Effect) (o : Outcome) : Daemon :=
  if d.world.closed || !o.written then d else effects.foldl push d

/-- The first half of `settle`. A failed completion leaves its ids listed. -/
def completeDone (d : Daemon) (o : Outcome) (next : Next) : Daemon :=
  if d.done = [] then { d with point := .releasing next }
  else
    { d with
      world := d.world.write o { d.world with rows := complete d.done d.world.rows }
      done := if o.answered then [] else d.done
      point := .releasing next }

def afterSettle (batch : ℤ) : Next → Point
  | .claim => .claiming (batchOf batch)
  | .idle => .idle

/-- The second half of `settle`. The loop goes on whether or not it went well. -/
def releaseRetry (batch : ℤ) (d : Daemon) (o : Outcome) (next : Next) : Daemon :=
  if d.retry = [] then { d with point := afterSettle batch next }
  else
    { d with
      world := d.world.write o { d.world with rows := release d.retry d.world.rows }
      retry := if o.answered then [] else d.retry
      point := afterSettle batch next }

def claim (d : Daemon) (limit now : ℤ) (o : Outcome) : Daemon :=
  { d with
    world := d.world.step runAfter (.claim now limit o)
    point := if o.answered then .delivering (queryClaim now limit d.world.rows) [] else .idle }

/-- One round of `deliver`: an effect of a session that is held back is not attempted. -/
def deliver (d : Daemon) (c : Claimed (Queued Effect)) (rest : List (Claimed (Queued Effect))) (held : List Session)
    (ok : Bool) : Daemon :=
  let session := effectSession c.effect.effect
  if session ≠ ⟨"",0⟩ ∧ session ∈ held then { d with retry := d.retry ++ [c.id], point := .delivering rest held }
  else if ok then
    { d with
      done := d.done ++ [c.id]
      carried := d.carried ++ [(c.effect,true)]
      point := .delivering rest held }
  else
    { d with
      retry := d.retry ++ [c.id]
      carried := d.carried ++ [(c.effect,false)]
      point := .delivering rest (if session ≠ ⟨"",0⟩ then session :: held else held) }

/-- A move that does not fit the point changes nothing. -/
def step (batch : ℤ) (d : Daemon) : Move → Daemon
  | .commit effects o => d.commit effects o
  | .runEffects =>
    match d.point with
    | .idle => { d with point := .completing .claim }
    | _ => d
  | .reattach =>
    match d.point with
    | .idle => { d with point := .claiming maxInt32 }
    | _ => d
  | .settle o =>
    match d.point with
    | .completing next => d.completeDone o next
    | .releasing next => d.releaseRetry batch o next
    | _ => d
  | .claim now o =>
    match d.point with
    | .claiming limit => d.claim limit now o
    | _ => d
  | .carryOut ok =>
    match d.point with
    | .delivering [] _ => { d with point := .completing .idle }
    | .delivering (c :: rest) held => d.deliver c rest held ok
    | _ => d
  | .crash => { d with world := { d.world with closed := true }, point := .down, done := [], retry := [] }
  | .start o =>
    match d.point with
    | .down =>
      { d with world := d.world.step runAfter (.reopen o), point := if o.answered then .idle else .down }
    | _ => d

end Daemon

/-!
## What the loop keeps between batches

Every committed effect is in the outbox or was carried out without error. While the daemon runs, a marked row is
listed: its id is still to be completed or released, or it is left of the batch. Commits add rows, and `settle`
takes away rows that were carried out and marks of those that were not.
-/

def SameSession (q q' : Queued Effect) : Prop :=
  effectSession q.effect = effectSession q'.effect ∧ effectSession q'.effect ≠ ⟨"",0⟩

/-- Whatever was carried out of a session came after each earlier effect of it had been carried out without error. -/
def InOrder (d : Daemon) : Prop :=
  ∀ past q ok rest, d.carried = past ++ (q,ok) :: rest → ∀ e ∈ d.committed, SameSession e q → e.ticket < q.ticket →
    (e,true) ∈ past

/-- A claim is made with nothing left to release and no effect waiting under an id still to be completed, and its
reply is not lost. -/
def Clear (d : Daemon) : Move → Prop
  | .claim _ o => o ≠ .lostReply ∧ d.retry = [] ∧ ∀ r ∈ d.world.rows, r.claimed = false → r.id ∉ d.done
  | _ => True

instance (d : Daemon) (m : Move) : Decidable (Clear d m) := by
  cases m <;> unfold Clear <;> infer_instance

namespace Point

def claimed : Point → List (Claimed (Queued Effect))
  | .delivering claimed _ => claimed
  | _ => []

def held : Point → List Session
  | .delivering _ held => held
  | _ => []

end Point

structure Inv (d : Daemon) : Prop where
  outbox : Outbox.Inv runAfter d.world
  opened : d.point ≠ .down → d.world.closed = false
  drawn : ∀ q ∈ d.committed, q.ticket < d.world.next
  past : ∀ p ∈ d.carried, p.1.ticket < d.world.next
  kept : ∀ q ∈ d.committed, (∃ r ∈ d.world.rows, r.effect = q) ∨ (q,true) ∈ d.carried
  completed : ∀ r ∈ d.world.rows, r.claimed = true → r.id ∈ d.done → (r.effect,true) ∈ d.carried
  listed : d.point ≠ .down → ∀ r ∈ d.world.rows, r.claimed = true →
    r.id ∈ d.done ∨ r.id ∈ d.retry ∨ r.entry ∈ d.point.claimed
  marked : ∀ c ∈ d.point.claimed, ∃ r ∈ d.world.rows, r.entry = c ∧ r.claimed = true
  sorted : (d.point.claimed.map fun c => c.effect.ticket).Pairwise (· < ·)
  ahead : ∀ c ∈ d.point.claimed, ∀ q ∈ d.committed, SameSession q c.effect → q.ticket < c.effect.ticket →
    (q,true) ∈ d.carried ∨ (∃ c' ∈ d.point.claimed, c'.effect = q) ∨ effectSession q.effect ∈ d.point.held
  order : InOrder d

namespace Inv

variable {d : Daemon}

theorem start : Inv {} where
  outbox := Outbox.Inv.start.shrink (List.Sublist.refl _) (by simp) true
  opened h := absurd rfl h
  drawn := by simp
  past := by simp
  kept := by simp
  completed := by simp
  listed h := absurd rfl h
  marked := by simp [Point.claimed]
  sorted := List.Pairwise.nil
  ahead := by simp [Point.claimed]
  order := by
    intro past q ok rest h
    have : ([] : List (Queued Effect × Bool)) = past ++ (q,ok) :: rest := h
    simp at this

theorem goto (h : Inv d) {p : Point} (hp : p.claimed = []) (hd : d.point.claimed = []) (hdown : d.point ≠ .down) :
    Inv { d with point := p } := by
  refine { h with opened := fun _ => h.opened hdown, listed := fun _ r hr hclaimed => ?_, marked := ?_, sorted := ?_, ahead := ?_ }
  · have hlisted := h.listed hdown r hr hclaimed
    rw [hd] at hlisted
    simpa [hp] using hlisted
  · simp [hp]
  · simp [hp]
  · simp [hp]

theorem push (h : Inv d) (effect : Effect) : Inv (d.push effect) := by
  have hrow : ∀ r ∈ (d.push effect).world.rows, r.claimed = true → r ∈ d.world.rows := by
    intro r hr hclaimed
    rcases List.mem_append.mp hr with hr | hr
    · exact hr
    · rw [List.mem_singleton.mp hr] at hclaimed
      cases hclaimed
  have hclaimed : ∀ c ∈ d.point.claimed, c.effect.ticket < d.world.next := by
    intro c hc
    obtain ⟨r,hr,rfl,-⟩ := h.marked c hc
    exact h.outbox.below _ (List.mem_map_of_mem hr)
  refine ⟨h.outbox.push effect,h.opened,?_,?_,?_,?_,?_,?_,h.sorted,?_,?_⟩
  · intro q hq
    rcases List.mem_append.mp hq with hq | hq
    · exact Nat.lt_succ_of_lt (h.drawn q hq)
    · rw [List.mem_singleton.mp hq]
      exact Nat.lt_succ_self _
  · exact fun p hp => Nat.lt_succ_of_lt (h.past p hp)
  · intro q hq
    rcases List.mem_append.mp hq with hq | hq
    · rcases h.kept q hq with ⟨r,hr,heff⟩ | hcarried
      · exact Or.inl ⟨r,List.mem_append_left _ hr,heff⟩
      · exact Or.inr hcarried
    · exact Or.inl ⟨_,List.mem_append_right _ (List.mem_singleton_self _),(List.mem_singleton.mp hq).symm⟩
  · exact fun r hr hc => h.completed r (hrow r hr hc) hc
  · exact fun hdown r hr hc => h.listed hdown r (hrow r hr hc) hc
  · intro c hc
    obtain ⟨r,hr,hentry,hmark⟩ := h.marked c hc
    exact ⟨r,List.mem_append_left _ hr,hentry,hmark⟩
  · intro c hc q hq hsame hlt
    rcases List.mem_append.mp hq with hq | hq
    · exact h.ahead c hc q hq hsame hlt
    · rw [List.mem_singleton.mp hq] at hlt
      exact absurd hlt (Nat.lt_asymm (hclaimed c hc))
  · intro past q ok rest hsplit e he hsame hlt
    rcases List.mem_append.mp he with he | he
    · exact h.order past q ok rest hsplit e he hsame hlt
    · have hq := h.past (q,ok) (by
        have hcarried : d.carried = past ++ (q,ok) :: rest := hsplit
        rw [hcarried]
        simp)
      rw [List.mem_singleton.mp he] at hlt
      exact absurd hlt (Nat.lt_asymm hq)

theorem pushes (h : Inv d) (effects : List Effect) : Inv (effects.foldl Daemon.push d) := by
  induction effects generalizing d with
  | nil => exact h
  | cons effect effects ih => exact ih (h.push effect)

theorem commit (h : Inv d) (effects : List Effect) (o : Outcome) : Inv (d.commit effects o) := by
  rw [Daemon.commit]
  split
  · exact h
  · exact h.pushes effects

theorem settle (h : Inv d) (hdown : d.point ≠ .down)
    {rows : List (Row (Queued Effect))} {done retry : List ℕ} {p : Point} (hp : p.claimed = [])
    (hentries : (rows.map Row.entry).Sublist (d.world.rows.map Row.entry))
    (hrows : ∀ r ∈ rows, ∃ old ∈ d.world.rows, r.entry = old.entry ∧ r.runAfter = old.runAfter ∧
      (r.claimed = true → old.claimed = true))
    (hgone : ∀ r ∈ d.world.rows, (∃ r' ∈ rows, r'.effect = r.effect) ∨ (r.effect,true) ∈ d.carried)
    (hdone : ∀ id ∈ done, id ∈ d.done)
    (hlisted : ∀ r ∈ rows, r.claimed = true → r.id ∈ done ∨ r.id ∈ retry) :
    Inv { d with world := { d.world with rows := rows }, done := done, retry := retry, point := p } := by
  refine ⟨h.outbox.shrink hentries hrows _,fun _ => h.opened hdown,h.drawn,h.past,?_,?_,?_,?_,?_,?_,h.order⟩
  · intro q hq
    rcases h.kept q hq with ⟨r,hr,rfl⟩ | hcarried
    · exact hgone r hr
    · exact Or.inr hcarried
  · intro r hr hclaimed hid
    obtain ⟨old,hold,hentry,-,hmark⟩ := hrows r hr
    have heff : r.effect = old.effect := congrArg Claimed.effect hentry
    have hsame : r.id = old.id := congrArg Claimed.id hentry
    rw [heff]
    exact h.completed old hold (hmark hclaimed) (hsame ▸ hdone r.id hid)
  · intro _ r hr hclaimed
    rcases hlisted r hr hclaimed with hid | hid
    · exact Or.inl hid
    · exact Or.inr (Or.inl hid)
  · simp [hp]
  · simp [hp]
  · simp [hp]

theorem unsettled (h : Inv d) (hd : d.point.claimed = []) (hdown : d.point ≠ .down) {r : Row (Queued Effect)}
    (hr : r ∈ d.world.rows) (hclaimed : r.claimed = true) : r.id ∈ d.done ∨ r.id ∈ d.retry := by
  rcases h.listed hdown r hr hclaimed with hid | hid | hin
  · exact Or.inl hid
  · exact Or.inr hid
  · rw [hd] at hin
    cases hin

theorem completeDone (h : Inv d) (o : Outcome) {next : Next} (hpoint : d.point = .completing next) :
    Inv (d.completeDone o next) := by
  have hd : d.point.claimed = [] := by rw [hpoint]; rfl
  have hdown : d.point ≠ .down := by rw [hpoint]; exact fun hne => by cases hne
  rw [Daemon.completeDone]
  split
  · exact h.goto rfl hd hdown
  have hsame : ∀ r ∈ complete d.done d.world.rows, ∃ old ∈ d.world.rows, r.entry = old.entry ∧
      r.runAfter = old.runAfter ∧ (r.claimed = true → old.claimed = true) :=
    fun r hr => ⟨r,(mem_complete.mp hr).1,rfl,rfl,id⟩
  have hsub : ((complete d.done d.world.rows).map Row.entry).Sublist (d.world.rows.map Row.entry) := by
    rw [complete_eq]
    exact List.filter_sublist.map _
  have hgone : ∀ r ∈ d.world.rows,
      (∃ r' ∈ complete d.done d.world.rows, r'.effect = r.effect) ∨ (r.effect,true) ∈ d.carried := by
    intro r hr
    by_cases hout : r.claimed = true ∧ r.id ∈ d.done
    · exact Or.inr (h.completed r hr hout.1 hout.2)
    · exact Or.inl ⟨r,mem_complete.mpr ⟨hr,hout⟩,rfl⟩
  cases o with
  | undone =>
    rw [World.write,Outcome.written,Bool.not_false,Bool.or_true,if_pos rfl]
    exact h.goto rfl hd hdown
  | ok =>
    rw [World.write,h.opened hdown]
    refine h.settle hdown rfl hsub hsame hgone (fun id hid => by cases hid) ?_
    intro r hr hclaimed
    obtain ⟨hold,hnot⟩ := mem_complete.mp hr
    rcases h.unsettled hd hdown hold hclaimed with hid | hid
    · exact absurd ⟨hclaimed,hid⟩ hnot
    · exact Or.inr hid
  | lostReply =>
    rw [World.write,h.opened hdown]
    exact h.settle hdown rfl hsub hsame hgone (fun id hid => hid)
      fun r hr hclaimed => h.unsettled hd hdown (mem_complete.mp hr).1 hclaimed

theorem releaseRetry (h : Inv d) (batch : ℤ) (o : Outcome) {next : Next} (hpoint : d.point = .releasing next) :
    Inv (d.releaseRetry batch o next) := by
  have hd : d.point.claimed = [] := by rw [hpoint]; rfl
  have hdown : d.point ≠ .down := by rw [hpoint]; exact fun hne => by cases hne
  have hafter : (Daemon.afterSettle batch next).claimed = [] := by
    cases next with
    | claim => rfl
    | idle => rfl
  rw [Daemon.releaseRetry]
  split
  · exact h.goto hafter hd hdown
  have hsame : ∀ r ∈ release d.retry d.world.rows, ∃ old ∈ d.world.rows, r.entry = old.entry ∧
      r.runAfter = old.runAfter ∧ (r.claimed = true → old.claimed = true ∧ old.id ∉ d.retry) := by
    intro r hr
    rw [release_eq] at hr
    obtain ⟨old,hold,rfl⟩ := mem_setState.mp hr
    refine ⟨old,hold,?_⟩
    by_cases hp : (old.claimed && d.retry.contains old.id) = true
    · rw [if_pos hp]
      exact ⟨rfl,rfl,fun hclaimed => by cases hclaimed⟩
    · rw [if_neg hp]
      refine ⟨rfl,rfl,fun hclaimed => ⟨hclaimed,fun hid => hp ?_⟩⟩
      rw [hclaimed,Bool.true_and,List.contains_iff_mem]
      exact hid
  have hrows : ∀ r ∈ release d.retry d.world.rows, ∃ old ∈ d.world.rows, r.entry = old.entry ∧
      r.runAfter = old.runAfter ∧ (r.claimed = true → old.claimed = true) := by
    intro r hr
    obtain ⟨old,hold,hentry,htime,hmark⟩ := hsame r hr
    exact ⟨old,hold,hentry,htime,fun hclaimed => (hmark hclaimed).1⟩
  have hentries : (release d.retry d.world.rows).map Row.entry = d.world.rows.map Row.entry := by
    rw [release_eq,map_entry_setState]
  have hgone : ∀ r ∈ d.world.rows,
      (∃ r' ∈ release d.retry d.world.rows, r'.effect = r.effect) ∨ (r.effect,true) ∈ d.carried := by
    intro r hr
    have hin : r.entry ∈ (release d.retry d.world.rows).map Row.entry := hentries ▸ List.mem_map_of_mem hr
    obtain ⟨r',hr',hentry⟩ := List.mem_map.mp hin
    exact Or.inl ⟨r',hr',congrArg Claimed.effect hentry⟩
  have hsub : ((release d.retry d.world.rows).map Row.entry).Sublist (d.world.rows.map Row.entry) := by
    rw [hentries]
  have hid : ∀ r ∈ release d.retry d.world.rows, r.claimed = true → r.id ∈ d.done := by
    intro r hr hclaimed
    obtain ⟨old,hold,hentry,-,hmark⟩ := hsame r hr
    obtain ⟨hold',hnot⟩ := hmark hclaimed
    have hsameid : r.id = old.id := congrArg Claimed.id hentry
    rw [hsameid]
    exact (h.unsettled hd hdown hold hold').resolve_right hnot
  cases o with
  | undone =>
    rw [World.write,Outcome.written,Bool.not_false,Bool.or_true,if_pos rfl]
    exact h.goto hafter hd hdown
  | ok =>
    rw [World.write,h.opened hdown]
    exact h.settle hdown hafter hsub hrows hgone (fun _ hin => hin) fun r hr hclaimed => Or.inl (hid r hr hclaimed)
  | lostReply =>
    rw [World.write,h.opened hdown]
    exact h.settle hdown hafter hsub hrows hgone (fun _ hin => hin) fun r hr hclaimed => Or.inl (hid r hr hclaimed)

end Inv
end Vibesys.Delivery
