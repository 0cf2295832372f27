import Vibesys.Core.Job
import Vibesys.Library.Int64

/-!
# The scheduler

`step` decides, for every waiting job, whether it starts now and where. A policy orders the
waiting jobs, a placer ranks the options of each and filters may hold one back; all three are
arbitrary functions here. Amounts are added up in integers of 64 bits, which wrap; the fractions
that `LeastLoaded` compares are exact. The stable sorts of the source are insertion sorts.
-/
namespace Vibesys.Schedule
open Vibesys.Core Vibesys.Library

abbrev ResourceID := String
abbrev ID := String

def DefaultPlacement : ResourceID := "placement:default"

structure Resource where
  id : ResourceID
  capacity : ℤ
  deriving DecidableEq, Repr

structure Claim where
  resource : ResourceID
  amount : ℤ
  exclusive : Bool
  deriving DecidableEq, Repr

/-- One place a job may run (`Option` in the source) and what it claims there. -/
structure JobOption where
  placement : String
  claims : List Claim
  deriving DecidableEq, Repr

def Only (claims : List Claim) : List JobOption := [⟨"",claims⟩]

structure Holding where
  id : ID
  claims : List Claim
  run : RunID
  deriving DecidableEq, Repr

structure LeaseHolder where
  user : String := ""
  host : String := ""
  pid : ℤ := 0
  job : JobID := ""
  since : Time := 0
  deriving DecidableEq, Repr

structure LeasedOut where
  resource : ResourceID
  holder : LeaseHolder
  detail : String
  deriving DecidableEq, Repr

structure Candidate where
  id : ID
  options : List JobOption
  run : RunID
  submitted : Time
  seq : ℕ
  first : Bool
  leased : Option LeasedOut
  deriving DecidableEq, Repr

structure Grant where
  run : RunID
  claims : List Claim
  deriving DecidableEq, Repr

def RecentGrants : ℕ := 32

structure State where
  resources : List Resource
  holdings : List Holding
  waiting : List Candidate
  recent : List Grant
  deriving DecidableEq, Repr

/-- The recent grants with the started ones added, keeping the last `RecentGrants`. -/
def Remember (recent started : List Grant) : List Grant :=
  let out := recent ++ started
  out.drop (out.length-RecentGrants)

abbrev Usage := RunID → ResourceID → ℤ

def addUse (u : Usage) (run : RunID) (claims : List Claim) : Usage :=
  claims.foldl (fun u c =>
    Function.update u run (Function.update (u run) c.resource (wrap (u run c.resource + max c.amount 1)))) u

def UsageOf (s : State) : Usage :=
  let held := s.holdings.foldl (fun u h => addUse u h.run h.claims) (fun _ _ => 0)
  s.recent.foldl (fun u g => addUse u g.run g.claims) held

abbrev Policy := List Candidate → Usage → List Candidate
abbrev Filter := Candidate → JobOption → List Holding → Bool × String
abbrev Load := ResourceID → ℤ × ℤ
abbrev Placer := List JobOption → Load → List JobOption

/-- The fullest resource of an option, as the pair of what is used of it and its capacity. -/
def fullest (load : Load) (o : JobOption) : ℤ × ℤ :=
  o.claims.foldl (fun best c =>
    let used := (load c.resource).1
    let capacity := max (load c.resource).2 1
    if best.1*capacity < used*best.2 then (used,capacity) else best) (0,1)

/-- The order of `LeastLoaded`: the least full first, ties by the placement's name. -/
def lessLoaded (load : Load) (a b : JobOption) : Bool :=
  let x := (fullest load a).1*(fullest load b).2
  let y := (fullest load b).1*(fullest load a).2
  x < y || (x == y && a.placement ≤ b.placement)

def LeastLoaded : Placer := fun options load => options.insertionSort (fun a b => lessLoaded load a b)

structure Rules where
  policy : Option Policy := none
  placer : Option Placer := none
  filters : List Filter := []

inductive WaitKind
  | full | heldExclusively | inUse | behind | held | trouble | leased
  deriving DecidableEq, Repr

structure WaitReason where
  kind : WaitKind
  resource : ResourceID := ""
  blockers : List ID := []
  detail : String := ""
  elsewhere : Option LeaseHolder := none
  deriving DecidableEq, Repr

inductive Decision
  | start (id : ID) (option : JobOption)
  | wait (id : ID) (reason : WaitReason)
  | refuse (id : ID) (detail : String)
  deriving DecidableEq, Repr

def Decision.Target : Decision → ID
  | .start id _ => id
  | .wait id _ => id
  | .refuse id _ => id

def arrivesBefore (a b : Candidate) : Bool :=
  a.submitted < b.submitted || (a.submitted == b.submitted && a.seq ≤ b.seq)

def ArrivalOrder (cs : List Candidate) : List Candidate := cs.insertionSort (fun a b => arrivesBefore a b)

section Permutation
variable {α κ : Type*} [DecidableEq κ]

/-- One item of a policy's or a placer's answer: taken, as it was given, if it was given and not
taken before. -/
def pick (key : α → κ) (given : List α) (out : List α) (c : α) : List α :=
  match given.reverse.find? (fun g => key g = key c) with
  | some have_ => if key c ∈ out.map key then out else out ++ [have_]
  | none => out

/-- What a policy or a placer ordered, held to being the items it was given: each once, any it
dropped after the rest in the given order, and any it made up left out. -/
def permutation (key : α → κ) (given ordered : List α) : List α :=
  let out := ordered.foldl (pick key given) []
  out ++ given.filter (fun c => key c ∉ out.map key)

end Permutation

/-- A job's claims on one resource, merged. -/
structure Need where
  resource : ResourceID
  amount : ℤ
  exclusive : Bool
  deriving DecidableEq, Repr

def mergeClaim (c : Claim) : List Need → List Need
  | [] => [⟨c.resource,wrap (max c.amount 1),c.exclusive⟩]
  | n :: ns =>
    if n.resource = c.resource then
      { n with amount := wrap (n.amount + max c.amount 1), exclusive := n.exclusive || c.exclusive } :: ns
    else n :: mergeClaim c ns

/-- A job's claims merged by resource, in the order of their first claim. -/
def needs (claims : List Claim) : List Need := claims.foldl (fun out c => mergeClaim c out) []

/-- What is held of each resource while `step` decides. -/
structure Book where
  capacity : ResourceID → Option ℤ
  used : ResourceID → ℤ
  holders : ResourceID → List ID
  exclusive : ResourceID → List ID
  reserved : ResourceID → List ID
  held : List Holding

namespace Book

def holdNeed (id : ID) (b : Book) (n : Need) : Book :=
  { b with
    used := Function.update b.used n.resource (wrap (b.used n.resource + n.amount))
    holders := Function.update b.holders n.resource (b.holders n.resource ++ [id])
    exclusive :=
      if n.exclusive then Function.update b.exclusive n.resource (b.exclusive n.resource ++ [id])
      else b.exclusive }

def hold (b : Book) (id : ID) (claims : List Claim) : Book := (needs claims).foldl (holdNeed id) b

/-- Why claims with these needs can never be granted. -/
def impossible (b : Book) : List Need → Option String
  | [] => none
  | n :: ns =>
    match b.capacity n.resource with
    | none => some s!"no resource {n.resource.quote}"
    | some capacity =>
      if capacity < n.amount then
        some s!"it claims {n.amount} of {n.resource}, which has {capacity}"
      else b.impossible ns

/-- The options the resources can ever grant, in the job's order and one for each placement,
with what to say if there is none. `before` is the options already seen. -/
def grantable (b : Book) (before : List JobOption) :
    List JobOption → List JobOption → String → List JobOption × String
  | [],options,refusal => (options,refusal)
  | o :: rest,options,refusal =>
    if before.any (fun p => p.placement = o.placement) then
      b.grantable (before ++ [o]) rest options refusal
    else match b.impossible (needs o.claims) with
      | some why => b.grantable (before ++ [o]) rest options (if options = [] then why else refusal)
      | none => b.grantable (before ++ [o]) rest (options ++ [o]) refusal

def load (b : Book) : Load := fun r => (b.used r,(b.capacity r).getD 0)

/-- What the holdings keep a job with these needs from. -/
def blocked (b : Book) : List Need → Option WaitReason
  | [] => none
  | n :: ns =>
    let holders := b.holders n.resource
    if b.exclusive n.resource ≠ [] then
      some { kind := .heldExclusively, resource := n.resource, blockers := b.exclusive n.resource }
    else if n.exclusive ∧ holders ≠ [] then
      some { kind := .inUse, resource := n.resource, blockers := holders }
    else if (b.capacity n.resource).getD 0 < wrap (b.used n.resource + n.amount) then
      some { kind := .full, resource := n.resource, blockers := holders }
    else b.blocked ns

def behind (b : Book) (ns : List Need) : Option WaitReason :=
  (ns.find? fun n => b.reserved n.resource ≠ []).map fun n =>
    { kind := .behind, resource := n.resource, blockers := b.reserved n.resource }

def leasedOut (c : Candidate) (ns : List Need) : Option WaitReason :=
  c.leased.bind fun l =>
    if ns.any (fun n => n.resource = l.resource) then
      some { kind := .leased, resource := l.resource, elsewhere := some l.holder, detail := l.detail }
    else none

def heldBack (b : Book) (c : Candidate) (o : JobOption) (filters : List Filter) : Option WaitReason :=
  (filters.find? fun f => !(f c o b.held).1).map fun f =>
    { kind := .held, detail := (f c o b.held).2 }

/-- Why the job may not start on the option now, or `none` when it may. -/
def mayStart (b : Book) (c : Candidate) (o : JobOption) (filters : List Filter) : Option WaitReason :=
  let ns := needs o.claims
  (b.blocked ns).or <| (b.behind ns).or <| (leasedOut c ns).or (b.heldBack c o filters)

def reserveNeed (id : ID) (b : Book) (n : Need) : Book :=
  { b with reserved := Function.update b.reserved n.resource (b.reserved n.resource ++ [id]) }

def reserve (b : Book) (id : ID) (ns : List Need) : Book := ns.foldl (reserveNeed id) b

def start (b : Book) (c : Candidate) (o : JobOption) : Book :=
  { b.hold c.id o.claims with held := b.held ++ [⟨c.id,o.claims,c.run⟩] }

/-- The book after a job is made to wait: it keeps its turn on every option that could ever be
granted, unless a filter held it back. -/
def keepTurn (b : Book) (c : Candidate) (options : List JobOption) (why : WaitReason) : Book :=
  if why.kind = .held then b
  else options.foldl (fun b o => b.reserve c.id (needs o.claims)) b

def noPlacement : String := "it may run on no placement that gives what its task needs"

def options (b : Book) (c : Candidate) : List JobOption := (b.grantable [] c.options [] noPlacement).1

def refusal (b : Book) (c : Candidate) : String := (b.grantable [] c.options [] noPlacement).2

/-- The options in the order the job is tried on them. -/
def ranked (b : Book) (c : Candidate) (rules : Rules) : List JobOption :=
  permutation JobOption.placement (b.options c) ((rules.placer.getD LeastLoaded) (b.options c) b.load)

/-- One decision, and the book after it. The reason a job waits is that of its first option. -/
def decide (b : Book) (c : Candidate) (rules : Rules) : Book × Decision :=
  if b.options c = [] then (b,.refuse c.id (b.refusal c))
  else match (b.ranked c rules).find? (fun o => b.mayStart c o rules.filters = none) with
    | some o => (b.start c o,.start c.id o)
    | none =>
      let why := ((b.ranked c rules).head?.bind fun o => b.mayStart c o rules.filters).getD { kind := .full }
      (b.keepTurn c (b.options c) why,.wait c.id why)

def decideAll (rules : Rules) (b : Book) : List Candidate → List Decision
  | [] => []
  | c :: cs => (b.decide c rules).2 :: decideAll rules (b.decide c rules).1 cs

end Book

/-- The capacity of a resource; of two entries for one resource the later counts. -/
def capacityOf (resources : List Resource) : ResourceID → Option ℤ :=
  resources.foldl (fun m r => Function.update m r.id (some r.capacity)) (fun _ => none)

def newBook (s : State) : Book :=
  s.holdings.foldl (fun b h => b.hold h.id h.claims)
    { capacity := capacityOf s.resources, used := fun _ => 0, holders := fun _ => []
      exclusive := fun _ => [], reserved := fun _ => [], held := s.holdings }

/-- The order jobs are considered in: the first ones in arrival order, then the rest in the
policy's order. -/
def considered (s : State) (rules : Rules) : List Candidate :=
  let arrived := ArrivalOrder s.waiting
  let first := arrived.filter (fun c => c.first)
  let rest := arrived.filter (fun c => !c.first)
  first ++ match rules.policy with
    | some order => if rest = [] then rest else permutation Candidate.id rest (order rest (UsageOf s))
    | none => rest

def step (s : State) (rules : Rules) : List Decision :=
  Book.decideAll rules (newBook s) (considered s rules)

end Vibesys.Schedule
