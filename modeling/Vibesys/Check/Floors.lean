import Vibesys.Check.Items

/-!
# Forgetting at the floor

The floor of an operation is the earliest call of any that may be linearized after it. An item that prunes at the floor
of each operation it applies answers every read as one that never forgets. A window allows what a register allows.
-/
namespace Vibesys.Check

open Library

variable {V : Type}

structure Span where
  call : ℤ
  ret : ℤ

def suffixes : List Span → List ℤ
  | [] => [MaxInt64]
  | s :: rest => min ((suffixes rest).headD MaxInt64) s.call :: suffixes rest

/-- The first suffix whose operations all return at or after `c`; the spans are sorted by return, so that the search of
the source finds the first that does. -/
def floorOf (sorted : List Span) (c : ℤ) : ℤ :=
  (suffixes sorted).getD (sorted.findIdx fun s => c ≤ s.ret) MaxInt64

def computeFloors (spans : List Span) : List ℤ :=
  let sorted := spans.insertionSort fun a b => a.ret ≤ b.ret
  spans.map fun s => floorOf sorted s.call

lemma headD_suffixes_le {l : List Span} {y : Span} (h : y ∈ l) : (suffixes l).headD MaxInt64 ≤ y.call := by
  induction l with
  | nil => simp at h
  | cons s rest ih =>
    rw [suffixes,List.headD_cons]
    rcases List.mem_cons.mp h with rfl | h
    · exact min_le_right _ _
    · exact (min_le_left _ _).trans (ih h)

/-- No operation that returned at or after the call was called before the floor. -/
theorem floorOf_le {l : List Span} {c : ℤ} {y : Span} (hy : y ∈ l) (hret : c ≤ y.ret) : floorOf l c ≤ y.call := by
  induction l with
  | nil => simp at hy
  | cons s rest ih =>
    unfold floorOf
    rw [List.findIdx_cons]
    by_cases hs : c ≤ s.ret
    · have hhead := headD_suffixes_le hy
      rw [suffixes,List.headD_cons] at hhead
      simpa [suffixes,hs] using hhead
    · rcases List.mem_cons.mp hy with rfl | hy
      · exact absurd hret hs
      · have hrest := ih hy
        unfold floorOf at hrest
        simpa [suffixes,hs] using hrest

/-! ## Operations -/

/-- An operation, with what it writes to a register or a window and what it adds to a counter, if anything. -/
structure Op (V : Type) where
  call : ℤ
  ret : ℤ
  writes : Option V := none
  adds : Option ℤ := none
  deriving DecidableEq

def Op.span (o : Op V) : Span := ⟨o.call,o.ret⟩

/-- An operation is applied to an item, which then prunes at the operation's floor. -/
def Op.acts {α : Type} (what : Op V → Option α) (x : Op V × ℤ) : List (Act α) :=
  ((what x.1).map fun a => Act.write a x.1.call x.1.ret).toList ++ [.prune x.2]

lemma Op.mem_acts {α : Type} {what : Op V → Option α} {x : Op V × ℤ} {a : Act α} (h : a ∈ Op.acts what x) :
    (∃ b, a = .write b x.1.call x.1.ret) ∨ a = .prune x.2 := by
  rcases List.mem_append.mp h with h | h
  · obtain ⟨b,-,rfl⟩ := Option.map_eq_some_iff.mp (Option.mem_toList.mp h)
    exact Or.inl ⟨b,rfl⟩
  · exact Or.inr (List.mem_singleton.mp h)

lemma mem_zip_map {α β : Type} {f : α → β} {l : List α} {x : α × β} (h : x ∈ l.zip (l.map f)) : x.1 ∈ l ∧ x.2 = f x.1 := by
  have hzip : l.zip (l.map f) = l.map fun a => (a,f a) := by
    have := @List.zip_map' _ _ _ id f l
    rwa [List.map_id] at this
  rw [hzip] at h
  obtain ⟨a,ha,rfl⟩ := List.mem_map.mp h
  exact ⟨ha,rfl⟩

/-- For every order of operations that respects real time, each with the floor that is computed for it: what is placed
after an operation was called at or after its floor, and a register, a window and a counter that apply the operations
in that order and prune after each at its floor answer the read of every operation as those that never prune. -/
theorem forgetting_is_unobservable [DecidableEq V] (initial : V) (ops : List (Op V)) (hops : ∀ o ∈ ops, o.call ≤ o.ret)
    (bound : ℤ) (order : List (Op V × ℤ)) (hperm : order.Perm (ops.zip (computeFloors (ops.map Op.span))))
    (hreal : order.Pairwise fun a b => ¬ b.1.ret < a.1.call) :
    order.Pairwise (fun x y => x.2 ≤ y.1.call) ∧
    ∀ pre x post, order = pre ++ x :: post →
      let acts := pre.flatMap (Op.acts Op.writes)
      let adds := pre.flatMap (Op.acts Op.adds)
      let register := run (Register.act bound) (.New initial)
      let window := run (Window.act bound) (.New initial)
      let counter := run (Counter.act bound) {}
      (register acts).Allowed x.1.call bound = (register (acts.filter Act.writes)).Allowed x.1.call bound ∧
      (∀ v, (register acts).MayShow v x.1.call bound = (register (acts.filter Act.writes)).MayShow v x.1.call bound) ∧
      (window acts).Allowed x.1.call bound = (window (acts.filter Act.writes)).Allowed x.1.call bound ∧
      (∀ v, (window acts).MayShow v x.1.call bound = (window (acts.filter Act.writes)).MayShow v x.1.call bound) ∧
      (counter adds).Range x.1.call bound = (counter (adds.filter Act.writes)).Range x.1.call bound := by
  have hmem : ∀ x ∈ order, x.1 ∈ ops ∧
      x.2 = floorOf ((ops.map Op.span).insertionSort fun a b => a.ret ≤ b.ret) x.1.call := by
    intro x hx
    have hzip := hperm.mem_iff.mp hx
    rw [computeFloors,List.map_map] at hzip
    exact mem_zip_map hzip
  have hfloors : order.Pairwise fun x y => x.2 ≤ y.1.call := by
    refine hreal.imp_of_mem fun {x y} hx hy hxy => ?_
    rw [(hmem x hx).2]
    refine floorOf_le (y := y.1.span) ?_ (not_lt.mp hxy)
    exact (List.mem_insertionSort _).mpr (List.mem_map_of_mem (hmem y hy).1)
  refine ⟨hfloors,?_⟩
  rintro pre x post rfl
  have hpre : ∀ z ∈ pre, z.2 ≤ x.1.call := fun z hz => (List.pairwise_append.mp hfloors).2.2 z hz x List.mem_cons_self
  have hby : ∀ {α : Type} (what : Op V → Option α), ∀ a ∈ pre.flatMap (Op.acts what), a.By x.1.call := by
    intro α what a ha
    obtain ⟨z,hz,ha⟩ := List.mem_flatMap.mp ha
    rcases Op.mem_acts ha with ⟨b,rfl⟩ | rfl
    · trivial
    · exact hpre z hz
  have hvalid : ∀ a ∈ pre.flatMap (Op.acts Op.writes), ∀ v call ret, a = .write v call ret → call ≤ ret := by
    rintro a ha v call ret rfl
    obtain ⟨z,hz,ha⟩ := List.mem_flatMap.mp ha
    rcases Op.mem_acts ha with ⟨b,hb⟩ | hb
    · obtain ⟨rfl,rfl,rfl⟩ := Act.write.inj hb
      exact hops z.1 (hmem z (List.mem_append_left _ hz)).1
    · cases hb
  have hregister := (@Register.Forgot.act _ _ bound initial _ (hby Op.writes)).allowed
  have hwindow := @Window.Forgot.act _ _ bound initial _ hvalid (hby Op.writes)
  refine ⟨hregister,fun v => ?_,hwindow.allowed,hwindow.mayShow,(Counter.Forgot.act _ (hby Op.adds)).range⟩
  unfold Register.MayShow
  rw [hregister]

/-! ## A window allows what a register allows -/

def Act.entry : Act V → Option (Entry V)
  | .write v call ret => some ⟨v,call,ret⟩
  | .prune _ => none

def written (acts : List (Act V)) : List (Entry V) := acts.filterMap Act.entry

theorem versions_run (bound : ℤ) (initial : V) (acts : List (Act V)) :
    (run (Register.act bound) (.New initial) (acts.filter Act.writes)).versions =
      ⟨initial,MinInt64⟩ :: (written acts).map fun e => ⟨e.v,e.ret⟩ := by
  induction acts using List.reverseRecOn with
  | nil => rfl
  | append_singleton acts a ih =>
    rw [List.filter_append,run_append,written,List.filterMap_append,List.map_append,← written]
    cases a with
    | write v call ret =>
      show Register.versions (run _ _ _) ++ [_] = _
      rw [ih]
      rfl
    | prune floor =>
      have hentry : List.filterMap Act.entry [Act.prune floor] = ([] : List (Entry V)) := rfl
      rw [hentry,List.map_nil,List.append_nil]
      exact ih

theorem mem_es_run {bound : ℤ} {initial : V} {acts : List (Act V)} {e : Entry V} :
    e ∈ (run (Window.act bound) (.New initial) (acts.filter Act.writes)).es ↔
      e = ⟨initial,MinInt64,MinInt64⟩ ∨ e ∈ written acts := by
  induction acts using List.reverseRecOn with
  | nil => simp [Window.New,written]
  | append_singleton acts a ih =>
    rw [List.filter_append,run_append,written,List.filterMap_append,← written]
    cases a with
    | write v call ret =>
      show e ∈ List.orderedInsert _ _ (Window.es (run _ _ _)) ↔ _
      have hentry : List.filterMap Act.entry [Act.write v call ret] = [⟨v,call,ret⟩] := rfl
      rw [List.mem_orderedInsert,ih,List.mem_append,hentry,List.mem_singleton,or_comm,or_assoc]
    | prune floor => simpa [Act.writes,Act.entry] using ih

theorem Register.mem_drop_settled {t : ℤ} {vs : List (Version V)} {w : Version V} (h : w ∈ vs.drop (settled t vs)) :
    ∃ pre post, vs = pre ++ w :: post ∧ ∀ u ∈ post, t ≤ u.ret := by
  induction vs with
  | nil => simp at h
  | cons v rest ih =>
    rw [settled] at h
    split_ifs at h with hany
    · obtain ⟨pre,post,hrest,hpost⟩ := ih h
      exact ⟨v :: pre,post,by rw [hrest]; rfl,hpost⟩
    · have hrest : ∀ u ∈ rest, t ≤ u.ret := by simpa using hany
      obtain ⟨pre,post,hsplit⟩ := List.append_of_mem h
      refine ⟨pre,post,hsplit,fun u hu => hrest u ?_⟩
      cases pre with
      | nil => exact (List.cons.inj hsplit).2 ▸ hu
      | cons p pre =>
        rw [(List.cons.inj hsplit).2]
        exact List.mem_append_right _ (List.mem_cons_of_mem _ hu)

namespace Window

variable [DecidableEq V]

lemma foldl_once (l : List (Entry V)) :
    (l.foldl (fun out e => if e.v ∉ out then out ++ [e.v] else out) []).Nodup ∧
      ∀ v, v ∈ l.foldl (fun out e => if e.v ∉ out then out ++ [e.v] else out) [] ↔ ∃ e ∈ l, e.v = v := by
  induction l using List.reverseRecOn with
  | nil => simp
  | append_singleton l e ih =>
    obtain ⟨hnodup,hmem⟩ := ih
    rw [List.foldl_append,List.foldl_cons,List.foldl_nil]
    split_ifs with hold
    · refine ⟨hnodup,fun v => ?_⟩
      rw [hmem]
      refine ⟨fun ⟨x,hx,hv⟩ => ⟨x,List.mem_append_left _ hx,hv⟩,fun ⟨x,hx,hv⟩ => ?_⟩
      rcases List.mem_append.mp hx with hx | hx
      · exact ⟨x,hx,hv⟩
      · rw [List.mem_singleton.mp hx] at hv
        exact hv ▸ (hmem _).mp hold
    · refine ⟨List.nodup_append.mpr ⟨hnodup,List.nodup_singleton _,?_⟩,fun v => ?_⟩
      · rintro a ha b hb rfl
        exact hold (List.mem_singleton.mp hb ▸ ha)
      · rw [List.mem_append,hmem,List.mem_singleton]
        simp only [List.mem_append,List.mem_singleton,or_and_right,exists_or,exists_eq_left,@eq_comm _ v]

theorem mem_allowed_iff {w : Window V} {c bound : ℤ} {v : V} : v ∈ w.Allowed c bound ↔ w.MayShow v c bound = true := by
  rw [allowed_eq,(foldl_once _).2,mayShow_eq]
  simp

theorem nodup_allowed (w : Window V) (c bound : ℤ) : (w.Allowed c bound).Nodup := by
  rw [allowed_eq]
  exact (foldl_once _).1

theorem mayShow_iff {w : Window V} {c bound : ℤ} {v : V} : w.MayShow v c bound = true ↔
    ∃ e ∈ w.es, e.v = v ∧ ¬ ∃ x ∈ w.es, e.ret < x.call ∧ x.ret < before c bound := by
  simp [MayShow,overwritten]

end Window

lemma valid_of_written {acts : List (Act V)} (h : ∀ e ∈ written acts, e.call ≤ e.ret) :
    ∀ a ∈ acts, ∀ v call ret, a = .write v call ret → call ≤ ret := by
  rintro a ha v call ret rfl
  exact h ⟨v,call,ret⟩ (List.mem_filterMap.mpr ⟨_,ha,rfl⟩)

/-- Prunes at floors that a read is not before go unnoticed by it, so a window may show it what was written and is not
overwritten. -/
theorem mayShow_run_iff [DecidableEq V] {initial : V} {bound c : ℤ} {acts : List (Act V)}
    (hvalid : ∀ e ∈ written acts, e.call ≤ e.ret) (hby : ∀ a ∈ acts, a.By c) {v : V} :
    (run (Window.act bound) (.New initial) acts).MayShow v c bound = true ↔
      ∃ e, (e = ⟨initial,MinInt64,MinInt64⟩ ∨ e ∈ written acts) ∧ e.v = v ∧
        ¬ ∃ x, (x = ⟨initial,MinInt64,MinInt64⟩ ∨ x ∈ written acts) ∧ e.ret < x.call ∧ x.ret < before c bound := by
  rw [(Window.Forgot.act initial acts (valid_of_written hvalid) hby).mayShow,Window.mayShow_iff]
  simp only [mem_es_run]

/-- Of the same writes, in an order that respects real time for the register and in any order for the window, each
pruned at any time with floors at or before the start of a read: what the register allows the read, the window allows.
The window's answers are the same for every order in which the writes were added. -/
theorem window_relaxes_register [DecidableEq V] (initial : V) (bound c : ℤ) (acts : List (Act V))
    (hvalid : ∀ e ∈ written acts, MinInt64 ≤ e.call ∧ e.call ≤ e.ret) (acts' : List (Act V))
    (hsame : (written acts').Perm (written acts)) (hby' : ∀ a ∈ acts', a.By c) :
    ((written acts).Pairwise (fun a b => ¬ b.ret < a.call) → (∀ a ∈ acts, a.By c) →
      ∀ v ∈ (run (Register.act bound) (.New initial) acts).Allowed c bound,
        (run (Window.act bound) (.New initial) acts').MayShow v c bound = true ∧
        v ∈ (run (Window.act bound) (.New initial) acts').Allowed c bound) ∧
    ∀ acts'' : List (Act V), (written acts'').Perm (written acts) → (∀ a ∈ acts'', a.By c) →
      (∀ v, (run (Window.act bound) (.New initial) acts').MayShow v c bound =
        (run (Window.act bound) (.New initial) acts'').MayShow v c bound) ∧
      ((run (Window.act bound) (.New initial) acts').Allowed c bound).Perm
        ((run (Window.act bound) (.New initial) acts'').Allowed c bound) := by
  have hvalid' : ∀ acts₁ : List (Act V), (written acts₁).Perm (written acts) → ∀ e ∈ written acts₁, e.call ≤ e.ret :=
    fun acts₁ h e he => (hvalid e (h.mem_iff.mp he)).2
  refine ⟨fun hreal hby v hv => ?_,fun acts'' hsame'' hby'' => ?_⟩
  · suffices hshow : (run (Window.act bound) (.New initial) acts').MayShow v c bound = true from
      ⟨hshow,Window.mem_allowed_iff.mpr hshow⟩
    rw [(Register.Forgot.act initial acts hby).allowed] at hv
    obtain ⟨w,hw,rfl⟩ := List.mem_map.mp hv
    obtain ⟨pre,post,hsplit,hpost⟩ := Register.mem_drop_settled hw
    rw [versions_run] at hsplit
    rw [mayShow_run_iff (hvalid' acts' hsame) hby']
    simp only [hsame.mem_iff]
    -- the initial value is never what overwrites another one
    have hwrites : ∀ e : Entry V, MinInt64 ≤ e.ret → ∀ x, (x = ⟨initial,MinInt64,MinInt64⟩ ∨ x ∈ written acts) →
        e.ret < x.call → x ∈ written acts := by
      rintro e he x (rfl | hx) hlt
      · exact absurd he (not_le.mpr hlt)
      · exact hx
    cases pre with
    | nil =>
      -- the version is the initial one, and no write has settled
      obtain ⟨rfl,hrest⟩ := List.cons.inj hsplit
      refine ⟨⟨initial,MinInt64,MinInt64⟩,Or.inl rfl,rfl,?_⟩
      rintro ⟨x,hx,hcall,hret⟩
      have hmem := hwrites ⟨initial,MinInt64,MinInt64⟩ le_rfl x hx hcall
      have := hpost ⟨x.v,x.ret⟩ (hrest ▸ List.mem_map.mpr ⟨x,hmem,rfl⟩)
      exact absurd hret (not_lt.mpr this)
    | cons p pre =>
      obtain ⟨-,hrest⟩ := List.cons.inj hsplit
      obtain ⟨epre,erest,hwritten,rfl,htail⟩ := List.map_eq_append_iff.mp hrest
      obtain ⟨e,epost,rfl,rfl,rfl⟩ := List.map_eq_cons_iff.mp htail
      have he : e ∈ written acts := hwritten ▸ List.mem_append_right _ List.mem_cons_self
      refine ⟨e,Or.inr he,rfl,?_⟩
      rintro ⟨x,hx,hcall,hret⟩
      have hmem := hwrites e ((hvalid e he).1.trans (hvalid e he).2) x hx hcall
      rw [hwritten] at hreal hmem
      rcases List.mem_append.mp hmem with hbefore | hafter
      · exact (List.pairwise_append.mp hreal).2.2 x hbefore e List.mem_cons_self hcall
      · rcases List.mem_cons.mp hafter with rfl | hafter
        · exact absurd hcall (not_lt.mpr (hvalid x he).2)
        · exact absurd hret (not_lt.mpr (hpost ⟨x.v,x.ret⟩ (List.mem_map.mpr ⟨x,hafter,rfl⟩)))
  · have hshow : ∀ v, (run (Window.act bound) (.New initial) acts').MayShow v c bound =
        (run (Window.act bound) (.New initial) acts'').MayShow v c bound := by
      intro v
      rw [Bool.eq_iff_iff,mayShow_run_iff (hvalid' acts' hsame) hby',mayShow_run_iff (hvalid' acts'' hsame'') hby'']
      simp only [hsame.mem_iff,hsame''.mem_iff]
    refine ⟨hshow,(List.perm_ext_iff_of_nodup (Window.nodup_allowed _ _ _) (Window.nodup_allowed _ _ _)).mpr fun v => ?_⟩
    rw [Window.mem_allowed_iff,Window.mem_allowed_iff,hshow]

namespace Sample

/-- Two writes that overlap, one after both, and reads of which the last starts when all have settled. -/
def ops : List (Op ℕ) :=
  [{ call := 0, ret := 4, writes := some 1, adds := some 2 },{ call := 2, ret := 6, writes := some 2, adds := some 3 },
    { call := 8, ret := 9, writes := some 3, adds := some 5 },{ call := 5, ret := 10 },{ call := 30, ret := 31 }]

def order : List (Op ℕ × ℤ) :=
  [({ call := 2, ret := 6, writes := some 2, adds := some 3 },0),({ call := 0, ret := 4, writes := some 1, adds := some 2 },0),
    ({ call := 5, ret := 10 },2),({ call := 8, ret := 9, writes := some 3, adds := some 5 },5),({ call := 30, ret := 31 },30)]

theorem forgetting_is_unobservable_overlapping :
    (run (Register.act 3) (.New 0) ((order.take 4).flatMap (Op.acts Op.writes))).Allowed 30 3 =
      (run (Register.act 3) (.New 0) (((order.take 4).flatMap (Op.acts Op.writes)).filter Act.writes)).Allowed 30 3 :=
  ((forgetting_is_unobservable 0 ops (by decide) 3 order (by decide) (by decide)).2 (order.take 4) _ [] rfl).1

theorem window_relaxes_register_overlapping :
    2 ∈ (run (Window.act 3) (.New 0) [.write 1 0 4,.prune 5,.write 2 2 6]).Allowed 9 3 :=
  ((window_relaxes_register 0 3 9 [.write 1 0 4,.write 2 2 6,.prune 9] (by decide) [.write 1 0 4,.prune 5,.write 2 2 6]
    (List.Perm.refl _) (by simp [Act.By])).1 (by decide) (by simp [Act.By]) 2 (by decide)).2

end Sample

end Vibesys.Check
