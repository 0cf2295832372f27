import Vibesys.Lease.Kept

/-!
# Leases of a cluster exclude each other

The invariant of the leases is kept by the clock, by new agents, and by writes sent and arrived, in any
interleaving. So no two leases hold at once, and a late write of an agent changes no other's lease.
-/
namespace Vibesys.Lease
open Vibesys.Library

namespace System

theorem Request.Sound.mono {s s' : System} {q : Request} {a : Agent} (h : q.Sound s a) (hclock : s.clock ≤ s'.clock)
    (hhistory : s.history ⊆ s'.history) : q.Sound s' a where
  past := h.past.trans hclock
  whole := h.whole
  acquire hkind := by
    obtain ⟨cur,hverb,hobject,hcur⟩ := h.acquire hkind
    exact ⟨cur,hverb,hobject,fun o ho => ⟨hhistory (hcur o ho).1,(hcur o ho).2⟩⟩
  renew hkind := by
    obtain ⟨hverb,cur,hcur,hrest⟩ := h.renew hkind
    exact ⟨hverb,cur,hhistory hcur,hrest⟩
  release hkind := by
    obtain ⟨hverb,hgone,cur,hcur,hrest⟩ := h.release hkind
    exact ⟨hverb,hgone,cur,hhistory hcur,hrest⟩

theorem Kept.tick {s : System} (h : s.Kept) {now : ℤ} (hnow : s.clock ≤ now) (hwhole : now%1000 = 0) :
    Kept { s with clock := now } where
  whole := hwhole
  versions := h.versions
  fits := h.fits
  tokens := h.tokens
  signed o ho i a ha htoken := by
    obtain ⟨hseconds,last,hlast,hle⟩ := h.signed o ho i a ha htoken
    exact ⟨hseconds,last,hlast,hle.trans hnow⟩
  seen := h.seen
  sent q hq := by
    obtain ⟨a,ha,hsound⟩ := h.sent q hq
    exact ⟨a,ha,Request.Sound.mono hsound hnow (List.Subset.refl _)⟩
  landed q hq hlanded hkind a ha :=
    (h.landed q hq hlanded hkind a ha).imp_right fun hworth => hworth.imp_left fun hle => hle.trans hnow
  returned := h.returned
  awaited := h.awaited

theorem Kept.acquire {s : System} (h : s.Kept) {cluster : Cluster} (hfits : cluster.Fits) {token : String}
    (hfresh : s.Fresh token) (record : String) : Kept { s with
      agents := s.agents ++ [{ cluster := cluster, token := token, record := record, phase := .taking attempts }] } := by
  obtain ⟨hne,hagents,hobjects⟩ := hfresh
  have hold : ∀ (i : ℕ) (a : Agent), s.agents[i]? = some a → a.token ≠ token :=
    fun i a ha => hagents a (List.mem_of_getElem? ha)
  have hleft : ∀ (i : ℕ) (a b : Agent), s.agents[i]? = some a → (s.agents ++ [b])[i]? = some a := by
    intro i a b ha
    rw [List.getElem?_append_left (List.getElem?_eq_some_iff.mp ha).1,ha]
  refine ⟨h.whole,h.versions,?_,?_,?_,?_,?_,?_,?_,?_⟩
  · intro i a ha
    rcases getElem?_append_singleton ha with ha | ⟨_,rfl⟩
    · exact h.fits i a ha
    · exact ⟨hfits,hne⟩
  · intro i j a b ha hb htokens
    rcases getElem?_append_singleton ha with ha | ⟨rfl,rfl⟩ <;> rcases getElem?_append_singleton hb with hb | ⟨rfl,rfl⟩
    · exact h.tokens i j a b ha hb htokens
    · exact absurd htokens (hold i a ha)
    · exact absurd htokens.symm (hold j b hb)
    · rfl
  · intro o ho i a ha htoken
    rcases getElem?_append_singleton ha with ha | ⟨_,rfl⟩
    · exact h.signed o ho i a ha htoken
    · exact absurd htoken (hobjects o ho)
  · intro i a ha
    rcases getElem?_append_singleton ha with ha | ⟨_,rfl⟩
    · exact h.seen i a ha
    · nofun
  · intro q hq
    obtain ⟨a,ha,hsound⟩ := h.sent q hq
    exact ⟨a,hleft _ _ _ ha,Request.Sound.mono hsound le_rfl (List.Subset.refl _)⟩
  · intro q hq hlanded hkind a ha
    obtain ⟨b,hb,_⟩ := h.sent q hq
    obtain rfl : b = a := Option.some.inj ((hleft _ _ _ hb).symm.trans ha)
    exact h.landed q hq hlanded hkind b hb
  · intro i a ha hreturned
    rcases getElem?_append_singleton ha with ha | ⟨_,rfl⟩
    · exact h.returned i a ha hreturned
    · cases hreturned
  · intro i a ha
    rcases getElem?_append_singleton ha with ha | ⟨_,rfl⟩
    · exact h.awaited i a ha
    · exact ⟨nofun,nofun⟩

theorem Kept.send {s : System} (h : s.Kept) {q : Request} {a : Agent} (ha : s.agents[q.agent]? = some a)
    (hsound : q.Sound s a) (hpending : q.status = .pending) : Kept { s with requests := s.requests ++ [q] } := by
  have hleft : ∀ (r : ℕ) (q' : Request), s.requests[r]? = some q' → (s.requests ++ [q])[r]? = some q' := by
    intro r q' hq'
    rw [List.getElem?_append_left (List.getElem?_eq_some_iff.mp hq').1,hq']
  refine ⟨h.whole,h.versions,h.fits,h.tokens,h.signed,h.seen,?_,?_,?_,?_⟩
  · intro q' hq'
    rcases List.mem_append.mp hq' with hq' | hq'
    · obtain ⟨b,hb,hsound'⟩ := h.sent q' hq'
      exact ⟨b,hb,Request.Sound.mono hsound' le_rfl (List.Subset.refl _)⟩
    · rw [List.mem_singleton.mp hq']
      exact ⟨a,ha,Request.Sound.mono hsound le_rfl (List.Subset.refl _)⟩
  · intro q' hq' hlanded
    rcases List.mem_append.mp hq' with hq' | hq'
    · exact h.landed q' hq' hlanded
    · rw [List.mem_singleton.mp hq',hpending] at hlanded
      cases hlanded
  · intro i b hb hreturned
    obtain ⟨q',hq',hrest⟩ := h.returned i b hb hreturned
    exact ⟨q',List.mem_append_left _ hq',hrest⟩
  · intro i b hb
    obtain ⟨hclaims,hrenews⟩ := h.awaited i b hb
    constructor
    · intro left r now hphase
      obtain ⟨q',hq',hrest⟩ := hclaims left r now hphase
      exact ⟨q',hleft r q' hq',hrest⟩
    · intro r now hphase
      obtain ⟨q',hq',hrest⟩ := hrenews r now hphase
      exact ⟨q',hleft r q' hq',hrest⟩

theorem Kept.sends {s : System} (h : s.Kept) {a a' : Agent} {q : Request} (ha : s.agents[q.agent]? = some a)
    (hsound : q.Sound s a) (hpending : q.status = .pending)
    (hkeeps : Keeps { s with requests := s.requests ++ [q] } q.agent a a') :
    Kept { s with agents := s.agents.set q.agent a', requests := s.requests ++ [q] } :=
  (h.send ha hsound hpending).set ha hkeeps

theorem Kept.claims {s : System} (h : s.Kept) {i left : ℕ} {a : Agent} {cur : Option Object}
    (ha : s.agents[i]? = some a) (hphase : a.phase = .found left cur)
    (hheld : ¬(cur.any fun o => a.cluster.held o s.clock) = true) (verb : Verb)
    (hverb : verb = if cur.isNone then .create else .replace) :
    Kept { s with
      agents := s.agents.set i { a with phase := .claiming left s.requests.length s.clock }
      requests := s.requests ++ [{ agent := i, kind := .acquire, now := s.clock, verb := verb
                                   object := acquired a.cluster a.token a.record s.clock cur }] } := by
  refine h.sends (q := ⟨i,.acquire,s.clock,verb,_,.pending⟩) ha
    ⟨le_rfl,h.whole,fun _ => ⟨cur,hverb,rfl,?_⟩,nofun,nofun⟩ rfl ?_
  · rintro o rfl
    exact ⟨h.seen i a ha o (by simp [hphase,Phase.seen]),by simpa using hheld⟩
  · refine ⟨⟨rfl,rfl,rfl⟩,nofun,by simp [hphase,Phase.Gone],nofun,?_,nofun⟩
    rintro _ _ _ ⟨⟩
    exact ⟨_,List.getElem?_concat_length,rfl,nofun,rfl⟩

theorem Kept.renews {s : System} (h : s.Kept) {i : ℕ} {a : Agent} {cur : Object} (ha : s.agents[i]? = some a)
    (hphase : a.phase = .looked (some cur)) (htoken : cur.holderIdentity = a.token) :
    Kept { s with
      agents := s.agents.set i { a with phase := .renewing s.requests.length s.clock }
      requests := s.requests ++ [{ agent := i, kind := .renew, now := s.clock, verb := .replace
                                   object := renewed s.clock cur }] } := by
  have hcur : cur ∈ s.history := h.seen i a ha cur (by simp [hphase,Phase.seen])
  obtain ⟨_,hlast⟩ := h.signed cur hcur i a ha htoken
  refine h.sends (q := ⟨i,.renew,s.clock,.replace,_,.pending⟩) ha
    ⟨le_rfl,h.whole,nofun,fun _ => ⟨rfl,cur,hcur,htoken,rfl,hlast⟩,nofun⟩ rfl ?_
  refine ⟨⟨rfl,rfl,rfl⟩,nofun,by simp [hphase,Phase.Gone],fun _ => ?_,nofun,?_⟩
  · obtain ⟨q,hq,hrest⟩ := h.returned i a ha (by simp [Agent.Returned,hphase])
    exact ⟨q,List.mem_append_left _ hq,hrest⟩
  · rintro _ _ ⟨⟩
    exact ⟨_,List.getElem?_concat_length,rfl,nofun,rfl⟩

theorem Kept.releases {s : System} (h : s.Kept) {i left : ℕ} {a : Agent} {cur : Object} (ha : s.agents[i]? = some a)
    (hphase : a.phase = .leaving left (some cur)) (htoken : cur.holderIdentity = a.token) :
    Kept { s with
      agents := s.agents.set i { a with phase := .clearing left s.requests.length }
      requests := s.requests ++ [{ agent := i, kind := .release, now := s.clock, verb := .replace
                                   object := cleared s.clock cur }] } := by
  have hcur : cur ∈ s.history := h.seen i a ha cur (by simp [hphase,Phase.seen])
  have hgone : a.phase.Gone = true := by simp [hphase,Phase.Gone]
  refine h.sends (q := ⟨i,.release,s.clock,.replace,_,.pending⟩) ha
    ⟨le_rfl,h.whole,(by simp),(by simp),fun _ => ⟨rfl,hgone,cur,hcur,htoken,rfl⟩⟩ rfl ?_
  exact ⟨⟨rfl,rfl,rfl⟩,by simp [Phase.seen],fun _ => rfl,by simp [Agent.Returned],by simp,by simp⟩

theorem Kept.goes {s : System} (h : s.Kept) (i : ℕ) : Kept (s.goes i) := by
  unfold System.goes
  cases ha : s.agents[i]? with
  | none => exact h
  | some a =>
    -- A case that sends nothing leaves the agent with nothing read and nothing to wait for.
    have hidle : ∀ phase : Phase, phase.seen = none → ({ a with phase := phase } : Agent).awaits = none →
        (a.phase.Gone = true → phase.Gone = true) → ({ a with phase := phase } : Agent).Returned = false →
        Kept { s with agents := s.agents.set i { a with phase := phase } } :=
      fun phase hs hw hgone hr => h.set ha (h.keeps_of_idle ha ⟨rfl,rfl,rfl,rfl⟩ hs hw hgone (by simp [hr]))
    dsimp only
    unfold Agent.go
    split
    case h_1 left cur hphase =>
      by_cases hheld : (cur.any fun o => a.cluster.held o s.clock) = true
      · simpa only [if_pos hheld,Option.toList,List.append_nil] using
          hidle .refused rfl rfl (by simp [hphase,Phase.Gone]) rfl
      · simpa only [if_neg hheld,Option.toList] using h.claims ha hphase hheld _ rfl
    case h_2 hphase => simpa using hidle .lost rfl rfl (by simp [hphase,Phase.Gone]) rfl
    case h_3 cur hphase =>
      by_cases htoken : cur.holderIdentity = a.token
      · simpa [htoken] using h.renews ha hphase htoken
      · simpa [htoken] using hidle .lost rfl rfl (by simp [hphase,Phase.Gone]) rfl
    case h_4 => simpa using hidle .ended rfl rfl (fun _ => rfl) rfl
    case h_5 left cur hphase =>
      by_cases htoken : cur.holderIdentity = a.token
      · simpa [htoken] using h.releases ha hphase htoken
      · simpa [htoken] using hidle .ended rfl rfl (fun _ => rfl) rfl
    case h_6 => simpa using h.set ha (.refl h ha)

theorem of_write {history after : List Object} {verb : Verb} {o : Object} (h : write history verb o = some after) :
    after = history ++ [{ o with resourceVersion := history.length+1 }]
      ∧ (verb = .create → history = [])
      ∧ (verb = .replace → ∃ last, history.getLast? = some last ∧ last.resourceVersion = o.resourceVersion) := by
  unfold write at h
  split at h
  case h_1 hlast =>
    obtain rfl := List.getLast?_eq_none_iff.mp hlast
    exact ⟨(Option.some.inj h).symm,fun _ => rfl,nofun⟩
  case h_4 last hlast =>
    split_ifs at h with hversion
    exact ⟨(Option.some.inj h).symm,nofun,fun _ => ⟨last,hlast,hversion⟩⟩
  all_goals cases h

theorem Kept.settle {s : System} (h : s.Kept) {r : ℕ} {q : Request} {status : Status} (hq : s.requests[r]? = some q)
    (hpending : q.status = .pending) {history : List Object} (hhistory : s.history ⊆ history)
    (hversions : ∀ k o, history[k]? = some o → o.resourceVersion = k+1)
    (hsigned : ∀ o ∈ history, ∀ (i : ℕ) (a : Agent), s.agents[i]? = some a → o.holderIdentity = a.token →
      o.leaseDurationSeconds*Second = a.cluster.duration ∧ ∃ last, o.renewTime = some last ∧ last ≤ s.clock)
    (hworth : ∀ (i : ℕ) (a : Agent) (now : ℤ), s.agents[i]? = some a → s.Worth a now →
      Worth { s with history := history } a now)
    (hlanded : status = .landed → q.kind ≠ .release → ∀ a, s.agents[q.agent]? = some a →
      Worth { s with history := history } a q.now) :
    Kept { s with history := history, requests := s.requests.set r { q with status := status } } := by
  have hset : ∀ (k : ℕ) (q' : Request), s.requests[k]? = some q' →
      ∃ q'', (s.requests.set r { q with status := status })[k]? = some q'' ∧ q''.agent = q'.agent
        ∧ q''.kind = q'.kind ∧ q''.now = q'.now ∧ (q'.status ≠ .pending → q'' = q') := by
    intro k q' hq'
    by_cases hk : r = k
    · subst hk
      obtain rfl : q = q' := Option.some.inj (hq.symm.trans hq')
      have hlt := (List.getElem?_eq_some_iff.mp hq).1
      exact ⟨{ q with status := status },by simp [hlt],rfl,rfl,rfl,fun hne => absurd hpending hne⟩
    · exact ⟨q',by rw [List.getElem?_set_ne hk,hq'],rfl,rfl,rfl,fun _ => rfl⟩
  refine ⟨h.whole,hversions,h.fits,h.tokens,hsigned,fun i a ha o ho => hhistory (h.seen i a ha o ho),?_,?_,?_,?_⟩
  · intro q' hq'
    have hmono : ∀ q₀ ∈ s.requests, ∃ a, s.agents[q₀.agent]? = some a
        ∧ q₀.Sound { s with history := history, requests := s.requests.set r { q with status := status } } a := by
      intro q₀ hq₀
      obtain ⟨a,ha,hsound⟩ := h.sent q₀ hq₀
      exact ⟨a,ha,Request.Sound.mono hsound le_rfl hhistory⟩
    rcases List.mem_or_eq_of_mem_set hq' with hq' | rfl
    · exact hmono q' hq'
    · obtain ⟨a,ha,hsound⟩ := hmono q (List.mem_of_getElem? hq)
      exact ⟨a,ha,hsound.past,hsound.whole,hsound.acquire,hsound.renew,hsound.release⟩
  · intro q' hq' hstatus hkind a ha
    rcases List.mem_or_eq_of_mem_set hq' with hq' | rfl
    · exact hworth q'.agent a q'.now ha (h.landed q' hq' hstatus hkind a ha)
    · exact hlanded hstatus hkind a ha
  · intro i a ha hreturned
    obtain ⟨q',hq',hagent,hstatus,hkind,hnow⟩ := h.returned i a ha hreturned
    obtain ⟨k,hk⟩ := List.mem_iff_getElem?.mp hq'
    obtain ⟨q'',hq'',_,_,_,hsame⟩ := hset k q' hk
    obtain rfl := hsame (by simp [hstatus])
    exact ⟨q'',List.mem_of_getElem? hq'',hagent,hstatus,hkind,hnow⟩
  · intro i a ha
    obtain ⟨hclaims,hrenews⟩ := h.awaited i a ha
    have hfound : ∀ (k : ℕ) (now : ℤ), (∃ q', s.requests[k]? = some q' ∧ q'.agent = i ∧ q'.kind ≠ .release ∧ q'.now = now) →
        ∃ q', (s.requests.set r { q with status := status })[k]? = some q' ∧ q'.agent = i ∧ q'.kind ≠ .release
          ∧ q'.now = now := by
      rintro k now ⟨q',hq',hagent,hkind,hnow⟩
      obtain ⟨q'',hq'',hagent',hkind',hnow',_⟩ := hset k q' hq'
      exact ⟨q'',hq'',hagent'.trans hagent,hkind' ▸ hkind,hnow'.trans hnow⟩
    exact ⟨fun left k now hphase => hfound k now (hclaims left k now hphase),
      fun k now hphase => hfound k now (hrenews k now hphase)⟩

theorem Kept.signed_write {s : System} (h : s.Kept) {q : Request} {a : Agent} (ha : s.agents[q.agent]? = some a)
    (hsound : q.Sound s a) {i : ℕ} {b : Agent} (hb : s.agents[i]? = some b) (htoken : q.object.holderIdentity = b.token) :
    q.kind ≠ .release ∧ i = q.agent ∧ q.object.leaseDurationSeconds*Second = b.cluster.duration
      ∧ q.object.renewTime = some q.now := by
  have hmicro := MicroTime_of_whole hsound.whole
  cases hkind : q.kind with
  | acquire =>
    obtain ⟨cur,_,hobject,_⟩ := hsound.acquire hkind
    rw [hobject] at htoken ⊢
    obtain rfl := h.tokens i q.agent b a hb ha htoken.symm
    obtain rfl : a = b := Option.some.inj (ha.symm.trans hb)
    exact ⟨nofun,rfl,(h.fits _ a ha).1.seconds,by rw [acquired,hmicro]⟩
  | renew =>
    obtain ⟨_,cur,hcur,htokenCur,hobject,_⟩ := hsound.renew hkind
    rw [hobject] at htoken ⊢
    obtain rfl := h.tokens i q.agent b a hb ha (htoken.symm.trans htokenCur)
    exact ⟨nofun,rfl,(h.signed cur hcur _ b hb htoken).1,by rw [renewed,hmicro]⟩
  | release =>
    obtain ⟨_,_,cur,_,_,hobject⟩ := hsound.release hkind
    rw [hobject] at htoken
    exact absurd htoken.symm (h.fits i b hb).2

theorem Kept.over {s : System} (h : s.Kept) {q : Request} {history : List Object}
    (hwrite : write s.history q.verb q.object = some history) (hverb : q.verb = .replace) {cur last : Object}
    (hcur : cur ∈ s.history) (hversion : q.object.resourceVersion = cur.resourceVersion)
    (hlast : s.history.getLast? = some last) : cur = last := by
  obtain ⟨_,_,hreplace⟩ := of_write hwrite
  obtain ⟨o,ho,hsame⟩ := hreplace hverb
  obtain rfl : o = last := Option.some.inj (ho.symm.trans hlast)
  exact h.eq_of_version hcur hlast (hsame.trans hversion)

theorem Kept.worth_write {s : System} (h : s.Kept) {q : Request} {a : Agent} (ha : s.agents[q.agent]? = some a)
    (hsound : q.Sound s a) {history : List Object} (hwrite : write s.history q.verb q.object = some history)
    {i : ℕ} {b : Agent} {now : ℤ} (hb : s.agents[i]? = some b) (hworth : s.Worth b now) :
    Worth { s with history := history } b now := by
  rcases hworth with hgone | hpassed | ⟨o,ho,htoken,last,hlast,hle⟩
  · exact .inl hgone
  · exact .inr (.inl hpassed)
  have hmem : o ∈ s.history := List.mem_of_getLast? ho
  obtain ⟨rfl,hcreate,_⟩ := of_write hwrite
  cases hkind : q.kind with
  | acquire =>
    -- The object was not held when the clock was read, so the duration of its last renewal had passed.
    obtain ⟨cur,hverb,hobject,hcur⟩ := hsound.acquire hkind
    cases cur with
    | none =>
      have hempty := hcreate hverb
      simp [hempty] at ho
    | some cur =>
      obtain ⟨hin,hfree⟩ := hcur cur rfl
      obtain rfl := h.over hwrite hverb hin (by rw [hobject]; rfl) ho
      obtain ⟨hseconds,_⟩ := h.signed cur hmem i b hb htoken
      have hpos := b.cluster.duration_pos
      have hname : cur.holderIdentity ≠ "" := htoken ▸ (h.fits i b hb).2
      have hpast := hsound.past
      simp only [Cluster.held,if_neg hname,hlast,Option.some_or,hseconds,if_neg (not_le.mpr hpos),
        decide_eq_false_iff_not,not_lt] at hfree
      exact .inr (.inl (by grind))
  | renew =>
    obtain ⟨hverb,cur,hin,_,hobject,last',hlast',hle'⟩ := hsound.renew hkind
    obtain rfl := h.over hwrite hverb hin (by rw [hobject]; rfl) ho
    obtain rfl : last = last' := Option.some.inj (hlast.symm.trans hlast')
    refine .inr (.inr ⟨_,List.getLast?_concat,by simpa [hobject,renewed] using htoken,q.now,?_,hle.trans hle'⟩)
    simp [hobject,renewed,MicroTime_of_whole hsound.whole]
  | release =>
    obtain ⟨hverb,hgone,cur,hin,htokenCur,hobject⟩ := hsound.release hkind
    obtain rfl := h.over hwrite hverb hin (by rw [hobject]; rfl) ho
    obtain rfl := h.tokens i q.agent b a hb ha (htoken.symm.trans htokenCur)
    obtain rfl : a = b := Option.some.inj (ha.symm.trans hb)
    exact .inl hgone

theorem Kept.worth_landed {s : System} (h : s.Kept) {q : Request} {a : Agent} (ha : s.agents[q.agent]? = some a)
    (hsound : q.Sound s a) (hkind : q.kind ≠ .release) {history : List Object}
    (hwrite : write s.history q.verb q.object = some history) : Worth { s with history := history } a q.now := by
  obtain ⟨rfl,_,_⟩ := of_write hwrite
  have htoken : q.object.holderIdentity = a.token := by
    cases hk : q.kind with
    | acquire =>
      obtain ⟨cur,_,hobject,_⟩ := hsound.acquire hk
      rw [hobject]
      rfl
    | renew =>
      obtain ⟨_,cur,_,htoken,hobject,_⟩ := hsound.renew hk
      rw [hobject]
      exact htoken
    | release => exact absurd hk hkind
  obtain ⟨_,_,_,hrenewed⟩ := h.signed_write ha hsound ha htoken
  exact .inr (.inr ⟨_,List.getLast?_concat,htoken,q.now,hrenewed,le_rfl⟩)

theorem Kept.land {s : System} (h : s.Kept) (r : ℕ) : Kept (s.land r) := by
  unfold System.land
  split
  · exact h
  · rename_i q hq
    obtain ⟨a,ha,hsound⟩ := h.sent q (List.mem_of_getElem? hq)
    split_ifs with hpending
    · exact h
    rw [not_not] at hpending
    split
    · rename_i history hwrite
      obtain ⟨hhistory,_,_⟩ := of_write hwrite
      refine h.settle hq hpending ?_ ?_ ?_ (fun i b now hb => h.worth_write ha hsound hwrite hb)
        fun _ hkind b hb => ?_
      · exact hhistory ▸ List.subset_append_left ..
      · intro k o hk
        rw [hhistory] at hk
        rcases getElem?_append_singleton hk with hk | ⟨rfl,rfl⟩
        · exact h.versions k o hk
        · rfl
      · intro o ho i b hb htoken
        rw [hhistory] at ho
        rcases List.mem_append.mp ho with ho | ho
        · exact h.signed o ho i b hb htoken
        · obtain rfl := List.mem_singleton.mp ho
          obtain ⟨_,_,hseconds,hrenewed⟩ := h.signed_write ha hsound hb htoken
          exact ⟨hseconds,q.now,hrenewed,hsound.past⟩
      · obtain rfl : a = b := Option.some.inj (ha.symm.trans hb)
        exact h.worth_landed ha hsound hkind hwrite
    · exact h.settle hq hpending (List.Subset.refl _) h.versions h.signed (fun _ _ _ _ hworth => hworth) nofun

theorem Kept.start (clock : ℤ) (object : Option Object) : Kept (System.start clock object) := by
  have hagent : ∀ (i : ℕ) (a : Agent), (System.start clock object).agents[i]? ≠ some a := fun i a ha => by cases ha
  refine ⟨?_,?_,?_,?_,?_,?_,?_,?_,?_,?_⟩
  · simp only [System.start,MicroTime]
    omega
  · intro k o hk
    cases object with
    | none => cases hk
    | some first =>
      cases k with
      | zero => exact (congrArg Object.resourceVersion (Option.some.inj hk)).symm
      | succ k => cases hk
  · exact fun i a ha => absurd ha (hagent i a)
  · exact fun i j a b ha => absurd ha (hagent i a)
  · exact fun o ho i a ha => absurd ha (hagent i a)
  · exact fun i a ha => absurd ha (hagent i a)
  · exact fun q hq => absurd hq List.not_mem_nil
  · exact fun q hq => absurd hq List.not_mem_nil
  · exact fun i a ha => absurd ha (hagent i a)
  · exact fun i a ha => absurd ha (hagent i a)

theorem Kept.step {s : System} (h : s.Kept) {e : Act} (he : e.Fits) : Kept (s.step e) := by
  cases e with
  | tick now =>
    dsimp only [System.step]
    split_ifs with hnow
    · exact h.tick hnow.1 hnow.2
    · exact h
  | acquire cluster token record =>
    dsimp only [System.step]
    split_ifs with hfresh
    · exact h.acquire he hfresh record
    · exact h
  | read i => exact h.onAgent fun _ => h.read
  | go i => exact h.goes i
  | land r => exact h.land r
  | answer i => exact h.answer i
  | fail i => exact h.onAgent fun _ => h.failed
  | release i => exact h.onAgent fun _ => h.release
  | abandon i => exact h.onAgent fun _ => h.abandon

theorem Kept.run {s : System} (h : s.Kept) {acts : List Act} (hfits : ∀ e ∈ acts, e.Fits) :
    Kept (run System.step s acts) := by
  induction acts generalizing s with
  | nil => exact h
  | cons e acts ih =>
    exact ih (h.step (hfits e List.mem_cons_self)) fun e' he' => hfits e' (List.mem_cons_of_mem _ he')

theorem Kept.late {s : System} (h : s.Kept) {r : ℕ} {q : Request} {a : Agent} {o : Object}
    (hq : s.requests[r]? = some q) (hkind : q.kind ≠ .acquire) (ha : s.agents[q.agent]? = some a)
    (ho : s.history.getLast? = some o) (htoken : o.holderIdentity ≠ a.token) :
    (s.step (.land r)).history = s.history := by
  obtain ⟨b,hb,hsound⟩ := h.sent q (List.mem_of_getElem? hq)
  obtain rfl : a = b := Option.some.inj (ha.symm.trans hb)
  have hrefused : write s.history q.verb q.object = none := by
    by_contra hsome
    obtain ⟨history,hwrite⟩ := Option.ne_none_iff_exists'.mp hsome
    cases hk : q.kind with
    | acquire => exact hkind hk
    | renew =>
      obtain ⟨hverb,cur,hin,htokenCur,hobject,_⟩ := hsound.renew hk
      obtain rfl := h.over hwrite hverb hin (by rw [hobject]; rfl) ho
      exact htoken htokenCur
    | release =>
      obtain ⟨hverb,_,cur,hin,htokenCur,hobject⟩ := hsound.release hk
      obtain rfl := h.over hwrite hverb hin (by rw [hobject]; rfl) ho
      exact htoken htokenCur
  simp only [System.step,System.land,hq,hrefused]
  split_ifs <;> rfl

/-- In any interleaving of daemons whose durations fit the object, at no time do two leases hold, and a
late write of one leaves the object of another as it is. -/
theorem leases_exclude (clock : ℤ) (object : Option Object) (acts : List Act) (hfits : ∀ e ∈ acts, e.Fits) :
    let s := run System.step (System.start clock object) acts
    (∀ (i j : ℕ) (a b : Agent), s.agents[i]? = some a → s.agents[j]? = some b → a.HoldsAt s.clock → b.HoldsAt s.clock →
      i = j)
    ∧ ∀ (r : ℕ) (q : Request) (a : Agent) (o : Object), s.requests[r]? = some q → q.kind ≠ .acquire →
      s.agents[q.agent]? = some a → s.history.getLast? = some o → o.holderIdentity ≠ a.token →
      (s.step (.land r)).history = s.history := by
  intro s
  have hkept : s.Kept := (Kept.start clock object).run hfits
  exact ⟨fun i j a b ha hb hai hbj => hkept.one_holder ha hb hai hbj,
    fun r q a o hq hkind ha ho htoken => hkept.late hq hkind ha ho htoken⟩

/-- The calls of one `Acquire` to the server, one after the other. -/
def acquires (agent request : ℕ) (cluster : Cluster) (token record : String) : List Act :=
  [.acquire cluster token record,.read agent,.go agent,.land request,.answer agent]

/-- One daemon takes the lease and sends a renewal that is delayed. Another takes the lease over. -/
def takenOver : List Act :=
  acquires 0 0 ⟨0⟩ "first" "a" ++ [.read 0,.go 0,.tick (61*Second)] ++ acquires 1 2 ⟨30*Second⟩ "second" "b"

theorem leases_exclude_takenOver :
    let s := run System.step (System.start 0 none) takenOver
    (∃ b, s.agents[1]? = some b ∧ b.HoldsAt s.clock)
    ∧ (∀ (i : ℕ) (a : Agent), s.agents[i]? = some a → a.HoldsAt s.clock → i = 1)
    ∧ (s.step (.land 1)).history = s.history := by
  intro s
  obtain ⟨hone,hlate⟩ := leases_exclude 0 none takenOver (by decide)
  have hsecond : ∃ b, s.agents[1]? = some b ∧ b.HoldsAt s.clock :=
    ⟨_,rfl,by decide +kernel⟩
  obtain ⟨b,hb,hholds⟩ := hsecond
  refine ⟨⟨b,hb,hholds⟩,fun i a ha hai => hone i 1 a b ha hb hai hholds,?_⟩
  exact hlate 1 _ _ _ rfl (by decide +kernel) rfl rfl (by decide +kernel)

/-- A duration of whole seconds that the object cannot hold is kept in it as one second, so that after a
second a lease that still holds is taken by another. -/
theorem long_leases_overlap :
    let cluster : Cluster := ⟨4294967297*Second⟩
    let s := run System.step (System.start 0 none)
      (acquires 0 0 cluster "first" "a" ++ [.tick Second] ++ acquires 1 1 cluster "second" "b")
    cluster.duration%Second = 0
      ∧ ∃ a b, s.agents[0]? = some a ∧ s.agents[1]? = some b ∧ a.HoldsAt s.clock ∧ b.HoldsAt s.clock := by
  refine ⟨by decide,_,_,rfl,rfl,?_,?_⟩ <;> decide +kernel

end System
end Vibesys.Lease
