import Vibesys.Pareto.Frontier

/-!
# A frontier stays a frontier

Decisions are made against any revision of the frontier and offered to the ledger at any time after. Each says
what the next revision is relative to the one it was made against, and the ledger takes it only if that is the
present one. So along the revisions a frontier grows by one commit at a time, the commits that stay are tradeoffs
with the new one, and those that leave are beaten by it.
-/
namespace Vibesys.Pareto

open Vibesys.Core (Result Commit Time Failure)
open Library
open Promotion (Measurement VerdictKind measurementsOf)

/-- The frontier of a ledger, its earlier revisions with the newest first, and the admissions decided so far. -/
structure Board where
  frontier : Frontier := {}
  history : List Frontier := []
  made : List FrontierAdmission := []

def Board.revisions (b : Board) : List Frontier := b.frontier :: b.history

inductive Act
  | decide (candidate : Commit) (back : ℕ) (at_ : Time)
  | offer (i : ℕ) (held : Bool)

section

variable (compareMeasurements : Comparison) (results : List Result) (version : String)

def Board.decide (b : Board) (candidate : Commit) (back : ℕ) (at_ : Time) : Board :=
  match b.revisions[back]? with
  | none => b
  | some f =>
    match DecideFrontier compareMeasurements ⟨candidate,f,results,version,at_⟩ with
    | .ok (.admitted a) => { b with made := b.made ++ [a] }
    | _ => b

def Board.offer (b : Board) (i : ℕ) (held : Bool) : Board :=
  match b.made[i]? with
  | none => b
  | some a =>
    match UpdateFrontier b.frontier a held with
    | .ok (some f,_) => { b with frontier := f, history := b.frontier :: b.history }
    | _ => b

def Board.act (b : Board) : Act → Board
  | .decide candidate back at_ => b.decide compareMeasurements results version candidate back at_
  | .offer i held => b.offer i held

def measured (c : Commit) : List Measurement :=
  measurementsOf c (results.filter fun r => r.taskVersion = version)

def placed (c member : Commit) : Option VerdictKind :=
  match compareMeasurements (measured results version c) (measured results version member) 0 with
  | .error _ => none
  | .ok compared => if compared.mixedEnvironments.isNone then some compared.verdict.kind else none

/-- What a frontier is: no commit twice, each later member a tradeoff with the earlier ones, and all measured. -/
structure Frontier.Sound (f : Frontier) : Prop where
  nodup : (f.members.map FrontierMember.commit).Nodup
  tradeoff : f.members.Pairwise fun earlier later =>
    placed compareMeasurements results version later.commit earlier.commit = some .tradeoff
  measured : ∀ m ∈ f.members, measured results version m.commit ≠ []

/-- The members that follow on a frontier: some stay, one is new, and the new one beats all that leave. -/
structure Follows (f : Frontier) (added : FrontierMember) (members : List FrontierMember) : Prop where
  new : added.commit ∉ f.members.map FrontierMember.commit
  measured : measured results version added.commit ≠ []
  kept : ∃ kept, members = kept ++ [added] ∧ kept.Sublist f.members ∧
    (∀ m ∈ kept, placed compareMeasurements results version added.commit m.commit = some .tradeoff) ∧
    ∀ m ∈ f.members, m ∉ kept → placed compareMeasurements results version added.commit m.commit = some .better

/-- An admission that was decided against a frontier. -/
structure Decided (f : Frontier) (a : FrontierAdmission) : Prop where
  from_ : a.from_ = f.revision
  again : a.already = true ↔ a.added.commit ∈ f.members.map FrontierMember.commit
  follows : a.already = false → Follows compareMeasurements results version f a.added a.members

/-- One revision comes right after another. -/
structure Next (older newer : Frontier) : Prop where
  revision : newer.revision = older.revision+1
  follows : ∃ added, Follows compareMeasurements results version older added newer.members

structure Board.Inv (b : Board) : Prop where
  sound : ∀ f ∈ b.revisions, f.Sound compareMeasurements results version
  chain : b.revisions.IsChain fun newer older => Next compareMeasurements results version older newer
  made : ∀ a ∈ b.made, ∃ f ∈ b.revisions, Decided compareMeasurements results version f a

end

section Decisions

variable {compareMeasurements : Comparison} {results : List Result} {version : String}

theorem judgeAgainst_verdict {commit member : Commit} {kind : VerdictKind}
    (h : judgeAgainst compareMeasurements commit (measured results version commit) member
      (results.filter fun r => r.taskVersion = version) = .ok (.verdict kind)) :
    placed compareMeasurements results version commit member = some kind ∧ (kind = .better ∨ kind = .tradeoff) := by
  have hmember : measurementsOf member (results.filter fun r => r.taskVersion = version) = measured results version member :=
    rfl
  unfold judgeAgainst at h
  rw [hmember] at h
  dsimp only at h
  split at h
  · cases h
  cases hcompared : compareMeasurements (measured results version commit) (measured results version member) 0 with
  | error f =>
    rw [hcompared] at h
    cases h
  | ok compared =>
    rw [hcompared] at h
    dsimp only at h
    cases hmixed : compared.mixedEnvironments with
    | some mix =>
      rw [hmixed] at h
      cases h
    | none =>
      rw [hmixed] at h
      have hplaced : placed compareMeasurements results version commit member = some compared.verdict.kind := by
        simp [placed,hcompared,hmixed]
      dsimp only at h
      split at h
      · cases h
      · cases h
      · cases h
      · cases h
        refine ⟨hplaced,?_⟩
        cases hkind : compared.verdict.kind <;> simp_all

/-- What one member adds to the tally: a reason to refuse, itself as one that stays, or nothing if it is beaten. -/
theorem count_cases {commit : Commit} {member : FrontierMember} {t t' : Tally}
    (hmeasured : measured results version member.commit ≠ [])
    (h : t.count compareMeasurements commit (measured results version commit) results
      (results.filter fun r => r.taskVersion = version) member = .ok t') :
    (∃ reason, t'.reasons = t.reasons ++ [reason]) ∨
      t'.reasons = t.reasons ∧ t'.kept = t.kept ++ [member] ∧
        placed compareMeasurements results version commit member.commit = some .tradeoff ∨
      t'.reasons = t.reasons ∧ t'.kept = t.kept ∧
        placed compareMeasurements results version commit member.commit = some .better := by
  have hmember : measurementsOf member.commit (results.filter fun r => r.taskVersion = version) =
      measured results version member.commit := rfl
  unfold Tally.count at h
  rw [hmember,if_neg (by simp [hmeasured])] at h
  cases hjudged : judgeAgainst compareMeasurements commit (measured results version commit) member.commit
      (results.filter fun r => r.taskVersion = version) with
  | error f =>
    rw [hjudged] at h
    cases h
  | ok judgement =>
    rw [hjudged] at h
    cases judgement with
    | refuses reason =>
      cases h
      exact Or.inl ⟨reason,rfl⟩
    | verdict kind =>
      obtain ⟨hplaced,rfl | rfl⟩ := judgeAgainst_verdict hjudged
      · cases h
        exact Or.inr (Or.inr ⟨rfl,rfl,hplaced⟩)
      · cases h
        exact Or.inr (Or.inl ⟨rfl,rfl,hplaced⟩)

/-- A tally with no reason to refuse keeps the members that are tradeoffs, and the candidate beats the others. -/
theorem foldlM_count {commit : Commit} {members : List FrontierMember} {t t' : Tally}
    (hmeasured : ∀ m ∈ members, measured results version m.commit ≠ [])
    (h : members.foldlM (Tally.count compareMeasurements commit (measured results version commit) results
      (results.filter fun r => r.taskVersion = version)) t = .ok t') (hnone : t'.reasons = []) :
    t.reasons = [] ∧ ∃ kept, t'.kept = t.kept ++ kept ∧ kept.Sublist members ∧
      (∀ m ∈ kept, placed compareMeasurements results version commit m.commit = some .tradeoff) ∧
      ∀ m ∈ members, m ∉ kept → placed compareMeasurements results version commit m.commit = some .better := by
  induction members generalizing t with
  | nil =>
    cases h
    exact ⟨hnone,[],(List.append_nil _).symm,List.Sublist.slnil,by simp,by simp⟩
  | cons m members ih =>
    rw [List.foldlM_cons] at h
    cases hcount : t.count compareMeasurements commit (measured results version commit) results
        (results.filter fun r => r.taskVersion = version) m with
    | error f =>
      rw [hcount] at h
      cases h
    | ok t₁ =>
      rw [hcount] at h
      obtain ⟨hnone₁,kept,hkept,hsub,htradeoff,hbetter⟩ := ih (fun x hx => hmeasured x (List.mem_cons_of_mem m hx)) h
      rcases count_cases (hmeasured m List.mem_cons_self) hcount with ⟨reason,hreasons⟩ | ⟨hsame,hk,hm⟩ | ⟨hsame,hk,hm⟩
      · rw [hnone₁] at hreasons
        simp at hreasons
      · refine ⟨hsame ▸ hnone₁,m :: kept,by rw [hkept,hk,List.append_assoc]; rfl,hsub.cons_cons m,?_,?_⟩
        · intro x hx
          rcases List.mem_cons.mp hx with rfl | hx
          · exact hm
          · exact htradeoff x hx
        · intro x hx hnot
          rcases List.mem_cons.mp hx with rfl | hx
          · exact absurd List.mem_cons_self hnot
          · exact hbetter x hx fun hin => hnot (List.mem_cons_of_mem m hin)
      · refine ⟨hsame ▸ hnone₁,kept,by rw [hkept,hk],hsub.cons m,htradeoff,?_⟩
        intro x hx hnot
        rcases List.mem_cons.mp hx with rfl | hx
        · exact hm
        · exact hbetter x hx hnot

theorem DecideFrontier_decided {candidate : Commit} {f : Frontier} {at_ : Time} {a : FrontierAdmission}
    (hf : f.Sound compareMeasurements results version)
    (h : DecideFrontier compareMeasurements ⟨candidate,f,results,version,at_⟩ = .ok (.admitted a)) :
    Decided compareMeasurements results version f a := by
  unfold DecideFrontier at h
  dsimp only at h
  split at h
  · cases h
  split at h
  · cases h
  cases hfind : f.members.find? fun m => m.commit = candidate with
  | some added =>
    rw [hfind] at h
    cases h
    have hmem := List.mem_of_find?_eq_some hfind
    exact ⟨rfl,⟨fun _ => List.mem_map_of_mem hmem,fun _ => rfl⟩,fun hnot => by cases hnot⟩
  | none =>
    have hnew : candidate ∉ f.members.map FrontierMember.commit := by
      intro hin
      obtain ⟨m,hm,heq⟩ := List.mem_map.mp hin
      exact absurd (List.find?_eq_none.mp hfind m hm) (by simp [heq])
    rw [hfind] at h
    dsimp only at h
    split at h
    · cases h
    · split at h
      · cases h
      split at h
      · cases h
      next hempty =>
      split at h
      · cases h
      · next t ht =>
        have hdecide := Except.ok.inj h
        unfold Tally.decide at hdecide
        split_ifs at hdecide with hreasons
        obtain rfl := FrontierDecision.admitted.inj hdecide
        have hmeasured : measured results version candidate ≠ [] := by
          intro hnil
          exact hempty (by rw [List.isEmpty_iff]; exact hnil)
        obtain ⟨-,kept,hkept,hsub,htradeoff,hbetter⟩ := foldlM_count hf.measured ht (List.isEmpty_iff.mp hreasons)
        rw [List.nil_append] at hkept
        refine ⟨rfl,⟨fun hnot => (by cases hnot),fun hin => absurd hin hnew⟩,fun _ => ⟨hnew,hmeasured,kept,?_,hsub,htradeoff,
          hbetter⟩⟩
        rw [hkept]

end Decisions

section Revisions

variable {compareMeasurements : Comparison} {results : List Result} {version : String}

theorem Follows.sound {f : Frontier} {added : FrontierMember} {members : List FrontierMember}
    (h : Follows compareMeasurements results version f added members) (hf : f.Sound compareMeasurements results version)
    (revision : ℕ) : Frontier.Sound compareMeasurements results version ⟨revision,members⟩ := by
  obtain ⟨kept,rfl,hsub,htradeoff,-⟩ := h.kept
  refine ⟨?_,?_,?_⟩
  · rw [List.map_append,List.nodup_append]
    refine ⟨hf.nodup.sublist (hsub.map _),List.nodup_singleton _,?_⟩
    intro c hc c' hc' heq
    rw [List.map_singleton,List.mem_singleton] at hc'
    exact h.new (hc' ▸ heq ▸ (hsub.map _).subset hc)
  · rw [List.pairwise_append]
    refine ⟨hf.tradeoff.sublist hsub,List.pairwise_singleton _ _,fun m hm m' hm' => ?_⟩
    rw [List.mem_singleton.mp hm']
    exact htradeoff m hm
  · intro m hm
    rcases List.mem_append.mp hm with hm | hm
    · exact hf.measured m (hsub.subset hm)
    · rw [List.mem_singleton.mp hm]
      exact h.measured

theorem revision_lt {f : Frontier} {l : List Frontier}
    (h : (f :: l).IsChain fun newer older => Next compareMeasurements results version older newer) {g : Frontier}
    (hg : g ∈ l) : g.revision < f.revision := by
  have hlt : (f :: l).IsChain fun newer older => older.revision < newer.revision :=
    h.imp fun newer older hnext => by rw [hnext.revision]; omega
  have htrans : IsTrans Frontier fun newer older => older.revision < newer.revision := ⟨fun _ _ _ hab hbc => hbc.trans hab⟩
  exact List.rel_of_pairwise_cons (List.isChain_iff_pairwise.mp hlt) hg

theorem beaten_of_left {f : Frontier} {l : List Frontier}
    (h : (f :: l).IsChain fun newer older => Next compareMeasurements results version older newer) {g : Frontier}
    (hg : g ∈ l) {c : Commit} (hc : c ∈ g.members.map FrontierMember.commit)
    (hleft : c ∉ f.members.map FrontierMember.commit) :
    ∃ newer older, [newer,older] <:+: f :: l ∧ c ∈ older.members.map FrontierMember.commit ∧
      ∃ added ∈ newer.members, added.commit ∉ older.members.map FrontierMember.commit ∧
        placed compareMeasurements results version added.commit c = some .better := by
  induction l generalizing f with
  | nil => cases hg
  | cons f' l ih =>
    obtain ⟨hnext,hrest⟩ := List.isChain_cons_cons.mp h
    by_cases hin : c ∈ f'.members.map FrontierMember.commit
    · obtain ⟨m,hm,rfl⟩ := List.mem_map.mp hin
      obtain ⟨added,hfollows⟩ := hnext.follows
      obtain ⟨kept,hmembers,-,-,hbetter⟩ := hfollows.kept
      have hnot : m ∉ kept := fun hkept =>
        hleft (List.mem_map_of_mem (by rw [hmembers]; exact List.mem_append_left _ hkept))
      refine ⟨f,f',⟨[],l,rfl⟩,hin,added,?_,hfollows.new,hbetter m hm hnot⟩
      rw [hmembers]
      exact List.mem_append_right _ (List.mem_singleton_self added)
    · rcases List.mem_cons.mp hg with rfl | hg
      · exact absurd hc hin
      · obtain ⟨newer,older,⟨pre,post,hifx⟩,hbeaten⟩ := ih hrest hg hin
        exact ⟨newer,older,⟨f :: pre,post,by rw [← hifx]; rfl⟩,hbeaten⟩

theorem UpdateFrontier_change {fr f answer : Frontier} {a : FrontierAdmission} {held : Bool}
    (h : UpdateFrontier fr a held = .ok (some f,answer)) :
    a.from_ = fr.revision ∧ a.already = false ∧ f = ⟨fr.revision+1,a.members⟩ := by
  unfold UpdateFrontier at h
  split_ifs at h with _ hfrom halready
  · cases h
  · split at h
    · cases h
    · cases h
      exact ⟨not_not.mp hfrom,by simpa using halready,rfl⟩

namespace Board

variable {b : Board}

theorem Inv.start : ({} : Board).Inv compareMeasurements results version := by
  refine ⟨fun f hf => ?_,List.isChain_singleton _,fun a ha => (by cases ha)⟩
  rw [show f = {} from List.mem_singleton.mp hf]
  exact ⟨List.nodup_nil,List.Pairwise.nil,fun m hm => (by cases hm)⟩

theorem Inv.current (h : b.Inv compareMeasurements results version) {a : FrontierAdmission} (ha : a ∈ b.made)
    (hfrom : a.from_ = b.frontier.revision) : Decided compareMeasurements results version b.frontier a := by
  obtain ⟨f,hf,hdecided⟩ := h.made a ha
  rcases List.mem_cons.mp hf with rfl | hf
  · exact hdecided
  · have := revision_lt h.chain hf
    rw [← hdecided.from_,hfrom] at this
    omega

theorem Inv.decide (h : b.Inv compareMeasurements results version) (candidate : Commit) (back : ℕ) (at_ : Time) :
    (b.decide compareMeasurements results version candidate back at_).Inv compareMeasurements results version := by
  unfold Board.decide
  split
  · exact h
  · next f hf =>
    have hmem := List.mem_of_getElem? hf
    split
    · next a hadmitted =>
      refine ⟨h.sound,h.chain,fun a' ha' => ?_⟩
      rcases List.mem_append.mp ha' with ha' | ha'
      · exact h.made a' ha'
      · rw [List.mem_singleton.mp ha']
        exact ⟨f,hmem,DecideFrontier_decided (h.sound f hmem) hadmitted⟩
    · exact h

theorem Inv.offer (h : b.Inv compareMeasurements results version) (i : ℕ) (held : Bool) :
    (b.offer i held).Inv compareMeasurements results version := by
  unfold Board.offer
  split
  · exact h
  · next a ha =>
    split
    · next f answer hchange =>
      obtain ⟨hfrom,hnew,rfl⟩ := UpdateFrontier_change hchange
      have hfollows := (h.current (List.mem_of_getElem? ha) hfrom).follows hnew
      have hpresent := h.sound b.frontier List.mem_cons_self
      refine ⟨fun f hf => ?_,List.isChain_cons_cons.mpr ⟨⟨rfl,_,hfollows⟩,h.chain⟩,fun a' ha' => ?_⟩
      · rcases List.mem_cons.mp hf with rfl | hf
        · exact hfollows.sound hpresent _
        · exact h.sound f hf
      · obtain ⟨f,hf,hdecided⟩ := h.made a' ha'
        exact ⟨f,List.mem_cons_of_mem _ hf,hdecided⟩
    · exact h

theorem Inv.act (h : b.Inv compareMeasurements results version) (e : Act) :
    (b.act compareMeasurements results version e).Inv compareMeasurements results version := by
  cases e with
  | decide candidate back at_ => exact h.decide candidate back at_
  | offer i held => exact h.offer i held

theorem offer_eq {i : ℕ} {held : Bool} {a : FrontierAdmission} (ha : b.made[i]? = some a)
    (hnot : ¬ (a.from_ = b.frontier.revision ∧ a.already = false)) : b.offer i held = b := by
  unfold Board.offer
  rw [ha]
  dsimp only
  split
  · next f answer hchange =>
    obtain ⟨hfrom,hnew,-⟩ := UpdateFrontier_change hchange
    exact absurd ⟨hfrom,hnew⟩ hnot
  · rfl

end Board

end Revisions

/-- Over every sequence of decisions against any revision and of admissions offered at any time, with any comparison:
no commit is twice in a revision, and each member is a tradeoff with every one admitted before it; a commit that
left was beaten by one admitted after it; and neither an admission decided against another revision nor one of
a member changes anything. -/
theorem frontier_stays_frontier (compareMeasurements : Comparison) (results : List Result) (version : String)
    (acts : List Act) :
    let b := run (Board.act compareMeasurements results version) {} acts
    (∀ f ∈ b.revisions, (f.members.map FrontierMember.commit).Nodup ∧ f.members.Pairwise fun earlier later =>
      placed compareMeasurements results version later.commit earlier.commit = some .tradeoff) ∧
    (∀ f ∈ b.history, ∀ c ∈ f.members.map FrontierMember.commit, c ∉ b.frontier.members.map FrontierMember.commit →
      ∃ newer older, [newer,older] <:+: b.revisions ∧ c ∈ older.members.map FrontierMember.commit ∧
        ∃ added ∈ newer.members, added.commit ∉ older.members.map FrontierMember.commit ∧
          placed compareMeasurements results version added.commit c = some .better) ∧
    ∀ i a held, b.made[i]? = some a →
      a.from_ ≠ b.frontier.revision ∨ a.added.commit ∈ b.frontier.members.map FrontierMember.commit →
      b.act compareMeasurements results version (.offer i held) = b := by
  intro b
  have hinv : b.Inv compareMeasurements results version := run_invariant (fun _ e h => h.act e) Board.Inv.start acts
  refine ⟨fun f hf => ⟨(hinv.sound f hf).nodup,(hinv.sound f hf).tradeoff⟩,fun f hf c hc hleft => ?_,?_⟩
  · exact beaten_of_left hinv.chain hf hc hleft
  · intro i a held ha hkind
    refine Board.offer_eq ha fun hchanges => ?_
    rcases hkind with hold | hmember
    · exact hold hchanges.1
    · have hagain := (hinv.current (List.mem_of_getElem? ha) hchanges.1).again.mpr hmember
      rw [hchanges.2] at hagain
      cases hagain

end Vibesys.Pareto
