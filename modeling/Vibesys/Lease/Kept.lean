import Vibesys.Lease.Cluster
import Vibesys.Library.Slots

/-!
# What a lease of a cluster rests on

Every write that took effect is the ground of what its agent knows: as long as its lease was not
released, the object is still held under its token, renewed no earlier than the write says, or the
duration has passed since. Nothing an agent does by itself changes that.
-/
namespace Vibesys.Lease
open Vibesys.Library

/-- A duration of whole seconds that the object can hold. -/
def Cluster.Fits (c : Cluster) : Prop := c.duration%Second = 0 ∧ c.duration < 2^31*Second

instance (c : Cluster) : Decidable c.Fits := inferInstanceAs (Decidable (_ ∧ _))

def Act.Fits : Act → Prop
  | .acquire cluster _ _ => cluster.Fits
  | _ => True

instance (a : Act) : Decidable a.Fits := by
  cases a
  case acquire cluster _ _ => exact inferInstanceAs (Decidable cluster.Fits)
  all_goals exact inferInstanceAs (Decidable True)

theorem Cluster.duration_pos (c : Cluster) : 0 < c.duration := by
  unfold Cluster.duration
  split_ifs with h
  · decide
  · omega

theorem Cluster.Fits.seconds {c : Cluster} (h : c.Fits) : toInt32 (c.duration/Second)*Second = c.duration := by
  obtain ⟨hwhole,hbound⟩ := h
  have hpos := c.duration_pos
  unfold toInt32 Second at *
  omega

theorem MicroTime_of_whole {t : ℤ} (h : t%1000 = 0) : MicroTime t = t := by
  rw [MicroTime,h,sub_zero]

namespace Phase

def seen : Phase → Option Object
  | .found _ cur => cur
  | .looked cur => cur
  | .leaving _ cur => cur
  | _ => none

def Gone : Phase → Bool
  | .releasing _ | .leaving _ _ | .clearing _ _ | .ended => true
  | _ => false

end Phase

/-- What is known of a write: it was made by its agent from an object the agent had read. -/
structure Request.Sound (s : System) (q : Request) (a : Agent) : Prop where
  past : q.now ≤ s.clock
  whole : q.now%1000 = 0
  acquire : q.kind = .acquire → ∃ cur, q.verb = (if cur.isNone then .create else .replace)
    ∧ q.object = acquired a.cluster a.token a.record q.now cur
    ∧ ∀ o, cur = some o → o ∈ s.history ∧ a.cluster.held o q.now = false
  renew : q.kind = .renew → q.verb = .replace ∧ ∃ cur ∈ s.history, cur.holderIdentity = a.token
    ∧ q.object = renewed q.now cur ∧ ∃ last, cur.renewTime = some last ∧ last ≤ q.now
  release : q.kind = .release → q.verb = .replace ∧ a.phase.Gone = true
    ∧ ∃ cur ∈ s.history, cur.holderIdentity = a.token ∧ q.object = cleared q.now cur

/-- The object is held under the agent's token, renewed at `now` or later. -/
def System.Held (s : System) (a : Agent) (now : ℤ) : Prop :=
  ∃ o, s.history.getLast? = some o ∧ o.holderIdentity = a.token ∧ ∃ last, o.renewTime = some last ∧ now ≤ last

/-- What a write that took effect is worth to its agent. -/
def System.Worth (s : System) (a : Agent) (now : ℤ) : Prop :=
  a.phase.Gone = true ∨ now+a.cluster.duration ≤ s.clock ∨ s.Held a now

/-- An agent waits for a write of its own, made when it remembers. -/
def System.Awaited (s : System) (i : ℕ) (a : Agent) : Prop :=
  (∀ left r now, a.phase = .claiming left r now →
    ∃ q, s.requests[r]? = some q ∧ q.agent = i ∧ q.kind ≠ .release ∧ q.now = now)
  ∧ ∀ r now, a.phase = .renewing r now → ∃ q, s.requests[r]? = some q ∧ q.agent = i ∧ q.kind ≠ .release ∧ q.now = now

/-- The lease was renewed last, or taken, by a write that took effect. -/
def System.Grounded (s : System) (i : ℕ) (a : Agent) : Prop :=
  ∃ q ∈ s.requests, q.agent = i ∧ q.status = .landed ∧ q.kind ≠ .release ∧ q.now = a.renewed

structure System.Kept (s : System) : Prop where
  whole : s.clock%1000 = 0
  versions : ∀ k o, s.history[k]? = some o → o.resourceVersion = k+1
  fits : ∀ (i : ℕ) (a : Agent), s.agents[i]? = some a → a.cluster.Fits ∧ a.token ≠ ""
  tokens : ∀ (i j : ℕ) (a b : Agent), s.agents[i]? = some a → s.agents[j]? = some b → a.token = b.token → i = j
  signed : ∀ o ∈ s.history, ∀ (i : ℕ) (a : Agent), s.agents[i]? = some a → o.holderIdentity = a.token →
    o.leaseDurationSeconds*Second = a.cluster.duration ∧ ∃ last, o.renewTime = some last ∧ last ≤ s.clock
  seen : ∀ (i : ℕ) (a : Agent), s.agents[i]? = some a → ∀ o, a.phase.seen = some o → o ∈ s.history
  sent : ∀ q ∈ s.requests, ∃ a, s.agents[q.agent]? = some a ∧ q.Sound s a
  landed : ∀ q ∈ s.requests, q.status = .landed → q.kind ≠ .release → ∀ a, s.agents[q.agent]? = some a → s.Worth a q.now
  returned : ∀ (i : ℕ) (a : Agent), s.agents[i]? = some a → a.Returned = true → s.Grounded i a
  awaited : ∀ (i : ℕ) (a : Agent), s.agents[i]? = some a → s.Awaited i a

namespace System

theorem Kept.eq_of_version {s : System} (h : s.Kept) {o last : Object} (ho : o ∈ s.history)
    (hlast : s.history.getLast? = some last) (heq : last.resourceVersion = o.resourceVersion) : o = last := by
  obtain ⟨k,hk⟩ := List.mem_iff_getElem?.mp ho
  rw [List.getLast?_eq_getElem?] at hlast
  have hversion := h.versions k o hk
  have hlastVersion := h.versions _ last hlast
  have hindex : s.history.length-1 = k := by omega
  rw [hindex,hk] at hlast
  exact Option.some.inj hlast

theorem Kept.one_holder {s : System} (h : s.Kept) {i j : ℕ} {a b : Agent} (ha : s.agents[i]? = some a)
    (hb : s.agents[j]? = some b) (hai : a.HoldsAt s.clock) (hbj : b.HoldsAt s.clock) : i = j := by
  have hheld : ∀ (i : ℕ) (a : Agent), s.agents[i]? = some a → a.HoldsAt s.clock → s.Held a a.renewed := by
    intro i a ha hholds
    obtain ⟨q,hq,rfl,hlanded,hkind,hnow⟩ := h.returned i a ha hholds.1
    rcases h.landed q hq hlanded hkind a ha with hgone | hpassed | hheld
    · have hreturned := hholds.1
      unfold Agent.Returned at hreturned
      unfold Phase.Gone at hgone
      cases hphase : a.phase <;> simp [hphase] at hreturned hgone
    · rw [hnow] at hpassed
      exact absurd hholds.2 (not_lt.mpr hpassed)
    · exact hnow ▸ hheld
  obtain ⟨o,ho,htoken,_⟩ := hheld i a ha hai
  obtain ⟨o',ho',htoken',_⟩ := hheld j b hb hbj
  obtain rfl : o = o' := Option.some.inj (ho.symm.trans ho')
  exact h.tokens i j a b ha hb (htoken.symm.trans htoken')

/-- What the change of one agent must keep. -/
structure Keeps (s : System) (i : ℕ) (a a' : Agent) : Prop where
  same : a'.cluster = a.cluster ∧ a'.token = a.token ∧ a'.record = a.record
  seen : ∀ o, a'.phase.seen = some o → o ∈ s.history
  gone : a.phase.Gone = true → a'.phase.Gone = true
  returned : a'.Returned = true → s.Grounded i a'
  awaited : s.Awaited i a'

theorem Keeps.sound {s : System} {i : ℕ} {a a' : Agent} (h : Keeps s i a a') {q : Request} (hq : q.Sound s a) :
    q.Sound s a' := by
  obtain ⟨hcluster,htoken,hrecord⟩ := h.same
  refine ⟨hq.past,hq.whole,?_,?_,fun hkind => ?_⟩
  · rw [hcluster,htoken,hrecord]
    exact hq.acquire
  · rw [htoken]
    exact hq.renew
  · obtain ⟨hverb,hgone,hcur⟩ := hq.release hkind
    rw [htoken]
    exact ⟨hverb,h.gone hgone,hcur⟩

theorem Keeps.worth {s : System} {i : ℕ} {a a' : Agent} (h : Keeps s i a a') {now : ℤ} (hworth : s.Worth a now) :
    s.Worth a' now := by
  obtain ⟨hcluster,htoken,_⟩ := h.same
  unfold Worth Held at *
  rw [hcluster,htoken]
  exact hworth.imp_left h.gone

theorem Kept.set {s : System} (h : s.Kept) {i : ℕ} {a a' : Agent} (ha : s.agents[i]? = some a) (hkeeps : Keeps s i a a') :
    Kept { s with agents := s.agents.set i a' } := by
  obtain ⟨hcluster,htoken,hrecord⟩ := hkeeps.same
  -- What is found at a place has the cluster and the token of what was found there before.
  have hold : ∀ (j : ℕ) (b : Agent), (s.agents.set i a')[j]? = some b →
      ∃ b₀, s.agents[j]? = some b₀ ∧ b.cluster = b₀.cluster ∧ b.token = b₀.token := by
    intro j b hb
    rcases getElem?_set_cases hb with ⟨rfl,rfl⟩ | hb
    · exact ⟨a,ha,hcluster,htoken⟩
    · exact ⟨b,hb,rfl,rfl⟩
  have hagent : ∀ (j : ℕ) (b : Agent), s.agents[j]? = some b → ∃ b', (s.agents.set i a')[j]? = some b'
      ∧ (b' = b ∨ j = i ∧ b = a ∧ b' = a') := by
    intro j b hb
    by_cases hj : i = j
    · subst hj
      have hlt := (List.getElem?_eq_some_iff.mp ha).1
      exact ⟨a',by simp [hlt],.inr ⟨rfl,Option.some.inj (hb.symm.trans ha),rfl⟩⟩
    · exact ⟨b,by rw [List.getElem?_set_ne hj,hb],.inl rfl⟩
  refine ⟨h.whole,h.versions,?_,?_,?_,?_,?_,?_,?_,?_⟩
  · intro j b hb
    obtain ⟨b₀,hb₀,hc,ht⟩ := hold j b hb
    rw [hc,ht]
    exact h.fits j b₀ hb₀
  · intro j k b c hb hc htokens
    obtain ⟨b₀,hb₀,_,hbt⟩ := hold j b hb
    obtain ⟨c₀,hc₀,_,hct⟩ := hold k c hc
    exact h.tokens j k b₀ c₀ hb₀ hc₀ (by rw [← hbt,← hct,htokens])
  · intro o ho j b hb htokens
    obtain ⟨b₀,hb₀,hc,ht⟩ := hold j b hb
    rw [hc]
    exact h.signed o ho j b₀ hb₀ (htokens.trans ht)
  · intro j b hb
    rcases getElem?_set_cases hb with ⟨rfl,rfl⟩ | hb
    · exact hkeeps.seen
    · exact h.seen j b hb
  · intro q hq
    obtain ⟨b,hb,hsound⟩ := h.sent q hq
    obtain ⟨b',hb',rfl | ⟨_,rfl,rfl⟩⟩ := hagent q.agent b hb
    · exact ⟨b',hb',⟨hsound.past,hsound.whole,hsound.acquire,hsound.renew,hsound.release⟩⟩
    · have := hkeeps.sound hsound
      exact ⟨b',hb',⟨this.past,this.whole,this.acquire,this.renew,this.release⟩⟩
  · intro q hq hlanded hkind b hb
    rcases getElem?_set_cases hb with ⟨hnumber,rfl⟩ | hb
    · exact hkeeps.worth (h.landed q hq hlanded hkind a (by rw [hnumber,ha]))
    · exact h.landed q hq hlanded hkind b hb
  · intro j b hb hreturned
    rcases getElem?_set_cases hb with ⟨rfl,rfl⟩ | hb
    · exact hkeeps.returned hreturned
    · exact h.returned j b hb hreturned
  · intro j b hb
    rcases getElem?_set_cases hb with ⟨rfl,rfl⟩ | hb
    · exact hkeeps.awaited
    · exact h.awaited j b hb

theorem Kept.onAgent {s : System} (h : s.Kept) {i : ℕ} {f : Agent → Agent}
    (hf : ∀ a, s.agents[i]? = some a → Keeps s i a (f a)) : Kept (s.onAgent i f) := by
  unfold System.onAgent
  cases ha : s.agents[i]? with
  | none =>
    have hsame : s.agents.modify i f = s.agents := by
      refine List.ext_getElem? fun j => ?_
      rw [List.getElem?_modify]
      split_ifs with hj
      · subst hj
        rw [ha]
        rfl
      · simp
    rw [hsame]
    exact h
  | some a =>
    rw [modify_eq_set ha]
    exact h.set ha (hf a ha)

theorem Kept.keeps_of_idle {s : System} (h : s.Kept) {i : ℕ} {a a' : Agent} (ha : s.agents[i]? = some a)
    (hsame : a'.cluster = a.cluster ∧ a'.token = a.token ∧ a'.record = a.record ∧ a'.renewed = a.renewed)
    (hseen : a'.phase.seen = none) (hawaits : a'.awaits = none) (hgone : a.phase.Gone = true → a'.phase.Gone = true)
    (hreturned : a'.Returned = true → a.Returned = true) : Keeps s i a a' where
  same := ⟨hsame.1,hsame.2.1,hsame.2.2.1⟩
  seen o ho := by
    rw [hseen] at ho
    cases ho
  gone := hgone
  returned hreturn := by
    obtain ⟨q,hq,hagent,hlanded,hkind,hnow⟩ := h.returned i a ha (hreturned hreturn)
    exact ⟨q,hq,hagent,hlanded,hkind,hnow.trans hsame.2.2.2.symm⟩
  awaited := by
    constructor
    · intro left r now hphase
      simp [Agent.awaits,hphase] at hawaits
    · intro r now hphase
      simp [Agent.awaits,hphase] at hawaits

theorem Keeps.refl {s : System} (h : s.Kept) {i : ℕ} {a : Agent} (ha : s.agents[i]? = some a) : Keeps s i a a :=
  ⟨⟨rfl,rfl,rfl⟩,h.seen i a ha,id,h.returned i a ha,h.awaited i a ha⟩

theorem Kept.read {s : System} (h : s.Kept) {i : ℕ} {a : Agent} (ha : s.agents[i]? = some a) :
    Keeps s i a (a.read s.history.getLast?) := by
  have hlast : ∀ o, s.history.getLast? = some o → o ∈ s.history := fun o ho => List.mem_of_getLast? ho
  unfold Agent.read
  split
  · exact ⟨⟨rfl,rfl,rfl⟩,hlast,by simp_all [Phase.Gone],nofun,nofun,nofun⟩
  · rename_i hphase
    refine ⟨⟨rfl,rfl,rfl⟩,hlast,by simp_all [Phase.Gone],fun _ => ?_,nofun,nofun⟩
    exact h.returned i a ha (by simp [Agent.Returned,hphase])
  · exact ⟨⟨rfl,rfl,rfl⟩,hlast,fun _ => rfl,nofun,nofun,nofun⟩
  · exact .refl h ha

theorem Kept.missed {s : System} (h : s.Kept) {i : ℕ} {a : Agent} (ha : s.agents[i]? = some a)
    (hreturned : a.Returned = true) : Keeps s i a (a.missed s.clock) := by
  have hgone : a.phase.Gone = false := by
    unfold Agent.Returned at hreturned
    cases hphase : a.phase <;> simp [hphase] at hreturned <;> rfl
  unfold Agent.missed
  split_ifs
  · exact h.keeps_of_idle ha ⟨rfl,rfl,rfl,rfl⟩ rfl rfl (by simp [hgone]) fun _ => hreturned
  · exact h.keeps_of_idle ha ⟨rfl,rfl,rfl,rfl⟩ rfl rfl (by simp [hgone]) nofun

theorem Kept.failed {s : System} (h : s.Kept) {i : ℕ} {a : Agent} (ha : s.agents[i]? = some a) :
    Keeps s i a (a.failed s.clock) := by
  unfold Agent.failed
  split
  case h_1 hphase => exact h.keeps_of_idle ha ⟨rfl,rfl,rfl,rfl⟩ rfl rfl (by simp [hphase,Phase.Gone]) nofun
  case h_2 hphase => exact h.keeps_of_idle ha ⟨rfl,rfl,rfl,rfl⟩ rfl rfl (by simp [hphase,Phase.Gone]) nofun
  case h_3 hphase => exact h.missed ha (by simp [Agent.Returned,hphase])
  case h_4 hphase => exact h.missed ha (by simp [Agent.Returned,hphase])
  case h_5 => exact h.keeps_of_idle ha ⟨rfl,rfl,rfl,rfl⟩ rfl rfl (fun _ => rfl) nofun
  case h_6 => exact h.keeps_of_idle ha ⟨rfl,rfl,rfl,rfl⟩ rfl rfl (fun _ => rfl) nofun
  all_goals exact .refl h ha

theorem Kept.raced {s : System} (h : s.Kept) {i : ℕ} {a : Agent} (ha : s.agents[i]? = some a) :
    Keeps s i a (a.raced s.clock) := by
  unfold Agent.raced
  split
  case h_1 hphase =>
    split_ifs <;> exact h.keeps_of_idle ha ⟨rfl,rfl,rfl,rfl⟩ rfl rfl (by simp [hphase,Phase.Gone]) nofun
  case h_2 hphase => exact h.missed ha (by simp [Agent.Returned,hphase])
  case h_3 hphase =>
    split_ifs <;> exact h.keeps_of_idle ha ⟨rfl,rfl,rfl,rfl⟩ rfl rfl (fun _ => rfl) nofun
  case h_4 => exact .refl h ha

theorem Kept.succeeded {s : System} (h : s.Kept) {i : ℕ} {a : Agent} (ha : s.agents[i]? = some a) {r : ℕ} {q : Request}
    (hr : a.awaits = some r) (hq : s.requests[r]? = some q) (hlanded : q.status = .landed) : Keeps s i a a.succeeded := by
  obtain ⟨hclaims,hrenews⟩ := h.awaited i a ha
  unfold Agent.succeeded
  split
  case h_1 left r' now hphase =>
    obtain rfl : r' = r := by simpa [Agent.awaits,hphase] using hr
    obtain ⟨q',hq',hagent,hkind,hnow⟩ := hclaims left r' now hphase
    obtain rfl : q = q' := Option.some.inj (hq.symm.trans hq')
    refine ⟨⟨rfl,rfl,rfl⟩,nofun,by simp [hphase,Phase.Gone],fun _ => ?_,nofun,nofun⟩
    exact ⟨q,List.mem_of_getElem? hq,hagent,hlanded,hkind,hnow⟩
  case h_2 r' now hphase =>
    obtain rfl : r' = r := by simpa [Agent.awaits,hphase] using hr
    obtain ⟨q',hq',hagent,hkind,hnow⟩ := hrenews r' now hphase
    obtain rfl : q = q' := Option.some.inj (hq.symm.trans hq')
    refine ⟨⟨rfl,rfl,rfl⟩,nofun,by simp [hphase,Phase.Gone],fun _ => ?_,nofun,nofun⟩
    exact ⟨q,List.mem_of_getElem? hq,hagent,hlanded,hkind,hnow⟩
  case h_3 => exact h.keeps_of_idle ha ⟨rfl,rfl,rfl,rfl⟩ rfl rfl (fun _ => rfl) nofun
  case h_4 => exact .refl h ha

theorem Kept.answer {s : System} (h : s.Kept) (i : ℕ) : Kept (s.answer i) := by
  unfold System.answer
  split
  · exact h
  · rename_i q hq
    obtain ⟨r,hr,hq⟩ := Option.bind_eq_some_iff.mp hq
    obtain ⟨a,ha,hr⟩ := Option.bind_eq_some_iff.mp hr
    have hone : ∀ b, s.agents[i]? = some b → b = a := fun b hb => Option.some.inj (hb.symm.trans ha)
    split
    · exact h
    · rename_i hlanded
      refine h.onAgent fun b hb => ?_
      rw [hone b hb]
      exact h.succeeded ha hr hq hlanded
    · exact h.onAgent fun b hb => h.raced hb

theorem Kept.release {s : System} (h : s.Kept) {i : ℕ} {a : Agent} (ha : s.agents[i]? = some a) :
    Keeps s i a a.release := by
  unfold Agent.release
  split_ifs
  · exact h.keeps_of_idle ha ⟨rfl,rfl,rfl,rfl⟩ rfl rfl (fun _ => rfl) nofun
  · exact .refl h ha

theorem Kept.abandon {s : System} (h : s.Kept) {i : ℕ} {a : Agent} (ha : s.agents[i]? = some a) :
    Keeps s i a a.abandon := by
  unfold Agent.abandon
  split_ifs
  · exact h.keeps_of_idle ha ⟨rfl,rfl,rfl,rfl⟩ rfl rfl (fun _ => rfl) nofun
  · exact .refl h ha

end System
end Vibesys.Lease
