import Vibesys.Foldcache.Keeper

/-!
# The cached fold changes no result

A cache that was made of some records is used only for a log that begins with the same records, since the digest has no
collision among the bytes that are ever hashed and joined records can be read back in one way.
-/
namespace Vibesys.Foldcache

open Library

variable {R S φ : Type} {c : Schema R S φ} {rs rs' : List R} {rules : String}

namespace Schema

/-! ## Digests -/

def joined (c : Schema R S φ) (rs : List R) : Bytes := rs.flatMap c.to_binary

theorem joined_injective (h : c.joined rs = c.joined rs') : rs = rs' := by
  have hfields : (rs.map c.fields).flatten.flatMap c.encodeField = (rs'.map c.fields).flatten.flatMap c.encodeField := by
    have hjoin : ∀ rs : List R, (rs.map c.fields).flatten.flatMap c.encodeField = c.joined rs := fun rs => by
      rw [← List.flatMap_def,List.flatMap_assoc]
      rfl
    rw [hjoin,hjoin,h]
  have hblocks : ∀ rs : List R, ∀ b ∈ rs.map c.fields, Block c.isSeq b := by
    intro rs b hb
    obtain ⟨r,-,rfl⟩ := List.mem_map.mp hb
    exact c.sequence_first r
  have hmap := Block.flatten_injective (hblocks rs) (hblocks rs') (c.delimited.flatMap_injective hfields)
  exact List.map_injective_iff.mpr (fun r r' => c.canonical r r') hmap

theorem extend_eq (digest : PrefixDigest) (rs : List R) : c.extend digest rs = ⟨digest.hashed ++ c.joined rs,digest.count+rs.length⟩ := by
  unfold extend joined
  induction rs generalizing digest with
  | nil => simp
  | cons r rs ih =>
    rw [List.foldl_cons,ih,List.flatMap_cons,List.append_assoc,List.length_cons]
    congr 1
    show digest.count+1+rs.length = digest.count+(rs.length+1)
    omega

theorem joined_append (rs rs' : List R) : c.joined (rs ++ rs') = c.joined rs ++ c.joined rs' := List.flatMap_append

theorem fold_log_append (rs rs' : List R) (prior : Option S) :
    c.fold_log rules (rs ++ rs') prior = c.fold_log rules rs' (c.fold_log rules rs prior) := List.foldl_append

theorem digest_judge (loaded : Except CacheMiss CachedFold) (rs : List R) :
    (c.judge loaded rs {}).2 = ⟨c.joined rs,rs.length⟩ := by
  have hall : c.extend {} rs = ⟨c.joined rs,rs.length⟩ := by
    rw [extend_eq]
    simp
  unfold judge
  cases loaded with
  | error miss => exact hall
  | ok cached =>
    dsimp only
    split
    · exact hall
    · dsimp only
      rw [extend_eq,extend_eq,← hall,extend_eq]
      simp only [List.append_assoc,← joined_append,List.take_append_drop,Nat.add_assoc]
      rw [← List.length_append,List.take_append_drop]

theorem judge_eq_ok {loaded : Except CacheMiss CachedFold} {cached : CachedFold} (h : (c.judge loaded rs {}).1 = .ok cached) :
    loaded = .ok cached ∧ cached.through_seq ≤ rs.length ∧ cached.digest = c.sha256 (c.joined (rs.take cached.through_seq)) := by
  unfold judge at h
  cases loaded with
  | error miss => cases h
  | ok cached' =>
    dsimp only at h
    split at h
    · cases h
    · rename_i hle
      dsimp only at h
      split at h
      · rename_i hdigest
        obtain rfl := Except.ok.inj h
        refine ⟨rfl,not_lt.mp hle,?_⟩
        rw [← hdigest,extend_eq]
        rfl
      · cases h

/-! ## Caches -/

variable (c) in
/-- A cache that a keeper made of some records, of this log or another, under some rules. -/
def Made (occurs : Set (List R)) (cached : CachedFold) : Prop :=
  ∃ rs ∈ occurs, ∃ rules s, cached.through_seq = rs.length ∧ cached.digest = c.sha256 (c.joined rs) ∧
    c.fold_log rules rs none = some s ∧ cached.state = c.encode s rules

variable (c) in
/-- A file that is absent, does not decode, or is such a cache. -/
def Sound (occurs : Set (List R)) (file : Option Bytes) : Prop :=
  ∀ data ∈ file, ∀ cached, c.decode_cache data = .ok cached → c.Made occurs cached

variable (c) in
/-- The digest tells apart the records that are ever hashed. -/
def NoCollision (occurs : Set (List R)) : Prop :=
  ∀ rs ∈ occurs, ∀ rs' ∈ occurs, c.sha256 (c.joined rs) = c.sha256 (c.joined rs') → c.joined rs = c.joined rs'

variable {occurs : Set (List R)}

/-- A start gives the fold of the records, and a keeper of that fold and of their digest. -/
theorem start_fold_eq (hcollision : c.NoCollision occurs) {loaded : Except CacheMiss CachedFold} {every : ℤ}
    (hloaded : ∀ cached, loaded = .ok cached → c.Made occurs cached) (hrs : ∀ n, rs.take n ∈ occurs) :
    (c.start_fold loaded rs every rules).1 = c.fold_log rules rs none ∧
      (c.start_fold loaded rs every rules).2.kept = c.fold_log rules rs none ∧
      (c.start_fold loaded rs every rules).2.digest = ⟨c.joined rs,rs.length⟩ ∧
      (c.start_fold loaded rs every rules).2.keeping = ⟨every,rules⟩ := by
  have hdigest := digest_judge (c := c) loaded rs
  unfold start_fold
  cases hjudge : c.judge loaded rs {} with
  | mk verdict digest =>
    rw [hjudge] at hdigest
    obtain rfl : digest = _ := hdigest
    cases verdict with
    | error miss => exact ⟨rfl,rfl,rfl,rfl⟩
    | ok cached =>
      dsimp only
      cases hdecode : c.decode cached.state rules with
      | rules_changed => exact ⟨rfl,rfl,rfl,rfl⟩
      | refused => exact ⟨rfl,rfl,rfl,rfl⟩
      | folded s =>
        dsimp only
        obtain ⟨hok,hle,hsame⟩ := judge_eq_ok (congrArg Prod.fst hjudge)
        obtain ⟨made,hmade,rules',s',hlength,hmadeDigest,hfold,hstate⟩ := hloaded cached hok
        obtain rfl : made = rs.take cached.through_seq :=
          joined_injective (hcollision made hmade _ (hrs _) (hmadeDigest.symm.trans hsame))
        rw [hstate] at hdecode
        obtain ⟨rfl,rfl⟩ := c.decode_encode _ _ _ _ hdecode
        have hwhole : c.fold_log rules' (rs.drop cached.through_seq) (some s) = c.fold_log rules' rs none := by
          rw [← hfold,← fold_log_append,List.take_append_drop]
        exact ⟨hwhole,hwhole,rfl,rfl⟩

/-- What a keeper holds: the digest and the fold of the first records of the log. -/
structure Keeps (c : Schema R S φ) (log : List R) (k : FoldKeeper S) : Prop where
  count : k.digest.count ≤ log.length
  hashed : k.digest.hashed = c.joined (log.take k.digest.count)
  kept : k.kept = c.fold_log k.keeping.rules (log.take k.digest.count) none

theorem Keeps.append {log : List R} {k : FoldKeeper S} (h : c.Keeps log k) (rs : List R) : c.Keeps (log ++ rs) k := by
  have htake : (log ++ rs).take k.digest.count = log.take k.digest.count := List.take_append_of_le_length h.count
  refine ⟨?_,?_,?_⟩
  · rw [List.length_append]
    exact Nat.le_add_right_of_le h.count
  · rw [htake,h.hashed]
  · rw [htake,h.kept]

theorem take_append_drop_take (log : List R) (count shown : ℕ) :
    log.take count ++ (log.take shown).drop count = log.take (count+((log.take shown).drop count).length) := by
  rcases le_total shown count with hle | hle
  · have hnone : (log.take shown).drop count = [] := by
      rw [List.drop_eq_nil_iff,List.length_take]
      omega
    rw [hnone,List.append_nil,List.length_nil,Nat.add_zero]
  · have hfirst : log.take count = (log.take shown).take count := by rw [List.take_take,Nat.min_eq_left hle]
    rw [hfirst,List.take_append_drop,List.length_drop,List.length_take]
    rcases le_total log.length count with hlen | hlen
    · rw [List.take_of_length_le (by omega),List.take_of_length_le (by omega)]
    · rw [show count+(min shown log.length-count) = min shown log.length by omega]
      rcases le_total shown log.length with h | h
      · rw [Nat.min_eq_left h]
      · rw [Nat.min_eq_right h,List.take_of_length_le h,List.take_of_length_le le_rfl]

/-- A keeper goes on with the fold and the digest of the same records, and stores a cache of them. -/
theorem Keeps.keep {log : List R} {k : FoldKeeper S} (h : c.Keeps log k) (shown appended : ℕ) (resting : Bool) :
    c.Keeps log (c.keep k (log.take shown) appended resting).1 ∧
      (c.keep k (log.take shown) appended resting).1.keeping = k.keeping ∧
      ∀ cached ∈ (c.keep k (log.take shown) appended resting).2, cached.through_seq ≤ log.length ∧
        cached.digest = c.sha256 (c.joined (log.take cached.through_seq)) ∧
        ∃ s, c.fold_log k.keeping.rules (log.take cached.through_seq) none = some s ∧ cached.state = c.encode s k.keeping.rules := by
  unfold Schema.keep
  split
  · exact ⟨h,rfl,fun _ hcached => by cases hcached⟩
  · dsimp only
    have htail := take_append_drop_take log k.digest.count shown
    have hcount : k.digest.count+((log.take shown).drop k.digest.count).length ≤ log.length := by
      rw [List.length_drop,List.length_take]
      have := h.count
      omega
    generalize (log.take shown).drop k.digest.count = tail at htail hcount
    have hhashed : k.digest.hashed ++ c.joined tail = c.joined (log.take (k.digest.count+tail.length)) := by
      rw [h.hashed,← joined_append,htail]
    have hkept : c.fold_log k.keeping.rules tail k.kept =
        c.fold_log k.keeping.rules (log.take (k.digest.count+tail.length)) none := by
      rw [h.kept,← fold_log_append,htail]
    rw [extend_eq]
    refine ⟨⟨hcount,hhashed,hkept⟩,rfl,fun cached hcached => ?_⟩
    obtain ⟨s,hs,rfl⟩ := Option.map_eq_some_iff.mp hcached
    refine ⟨hcount,?_,s,?_,rfl⟩
    · show c.sha256 (k.digest.hashed ++ c.joined tail) = _
      rw [hhashed]
    · rw [← hkept,hs]

/-! ## Runs -/

variable (c) in
/-- The records of the log are among those hashed, and a file put there from elsewhere is no forgery. -/
def Meets (occurs : Set (List R)) (w : World R S) : Act R → Prop
  | .append r => w.log ++ [r] ∈ occurs
  | .replace file => c.Sound occurs file
  | .commit | .start .. | .keep .. | .crash _ => True

variable (c) in
/-- A start returns the fold of the records it is given, and a cache is of the first records of the log. -/
def Right (w : World R S) : Act R → Prop
  | .start shown every rules readable =>
    (c.start_fold (c.load w.file readable) (w.log.take shown) every rules).1 = c.fold_log rules (w.log.take shown) none
  | .keep shown appended resting _ =>
    ∀ k ∈ w.keeper, ∀ cached ∈ (c.keep k (w.log.take shown) appended resting).2, cached.through_seq ≤ w.log.length ∧
      ∃ s, c.fold_log k.keeping.rules (w.log.take cached.through_seq) none = some s ∧ cached.state = c.encode s k.keeping.rules
  | .append _ | .commit | .crash _ | .replace _ => True

structure Inv (c : Schema R S φ) (occurs : Set (List R)) (w : World R S) : Prop where
  log : ∀ n, w.log.take n ∈ occurs
  file : c.Sound occurs w.file
  keeper : ∀ k ∈ w.keeper, c.Keeps w.log k

theorem decode_encode_cache {cached cached' : CachedFold} {data : Bytes} (hencode : c.encode_cache cached = some data)
    (hdecode : c.decode_cache data = .ok cached') : cached' = cached := by
  unfold encode_cache at hencode
  dsimp only at hencode
  split at hencode
  · obtain rfl := Option.some.inj hencode
    unfold decode_cache at hdecode
    rw [c.from_to_binary] at hdecode
    dsimp only at hdecode
    split at hdecode
    · cases hdecode
    · split at hdecode
      · cases hdecode
      · exact (Except.ok.inj hdecode).symm
  · cases hencode

theorem sound_store {file : Option Bytes} {cached : Option CachedFold} {fails : Bool} (hfile : c.Sound occurs file)
    (hcached : ∀ cached' ∈ cached, c.Made occurs cached') : c.Sound occurs (c.store file cached fails) := by
  unfold store
  cases hencode : cached.bind c.encode_cache with
  | none => exact hfile
  | some data =>
    obtain ⟨cached',hsome,hdata⟩ := Option.bind_eq_some_iff.mp hencode
    dsimp only
    split
    · exact hfile
    · intro data' hdata' cached'' hdecode
      obtain rfl := Option.some.inj hdata'
      rw [decode_encode_cache hdata hdecode]
      exact hcached cached' hsome

theorem sound_load {file : Option Bytes} {readable : Bool} {cached : CachedFold} (hfile : c.Sound occurs file)
    (h : c.load file readable = .ok cached) : c.Made occurs cached := by
  unfold load at h
  cases file with
  | none => cases h
  | some data =>
    dsimp only at h
    split at h
    · exact hfile data rfl cached h
    · cases h

theorem take_take_mem {log : List R} (h : ∀ n, log.take n ∈ occurs) (shown n : ℕ) : (log.take shown).take n ∈ occurs := by
  rw [List.take_take]
  exact h _

theorem Inv.step (hcollision : c.NoCollision occurs) (w : World R S) (act : Act R) (h : c.Inv occurs w) (hmeets : c.Meets occurs w act) :
    c.Inv occurs (c.step w act) ∧ c.Right w act := by
  cases act with
  | append r =>
    refine ⟨⟨fun n => ?_,h.file,fun k hk => (h.keeper k hk).append [r]⟩,trivial⟩
    show (w.log ++ [r]).take n ∈ occurs
    rcases le_or_gt n w.log.length with hle | hgt
    · rw [List.take_append_of_le_length hle]
      exact h.log n
    · rw [List.take_of_length_le (by rw [List.length_append,List.length_singleton]; omega)]
      exact hmeets
  | commit => exact ⟨⟨h.log,h.file,h.keeper⟩,trivial⟩
  | start shown every rules readable =>
    have hloaded : ∀ cached, c.load w.file readable = .ok cached → c.Made occurs cached := fun _ hok => sound_load h.file hok
    obtain ⟨hfold,hkept,hdigest,hkeeping⟩ := @start_fold_eq _ _ _ c _ rules occurs hcollision _ every hloaded (take_take_mem h.log shown)
    refine ⟨⟨h.log,h.file,fun k hk => ?_⟩,hfold⟩
    obtain rfl := Option.some.inj hk
    have htake : w.log.take (w.log.take shown).length = w.log.take shown := by
      rw [List.length_take]
      rcases le_total shown w.log.length with hle | hle
      · rw [Nat.min_eq_left hle]
      · rw [Nat.min_eq_right hle,List.take_of_length_le hle,List.take_of_length_le le_rfl]
    refine ⟨?_,?_,?_⟩
    · rw [hdigest]
      exact List.length_take_le' shown w.log
    · rw [hdigest]
      show c.joined _ = c.joined (w.log.take (w.log.take shown).length)
      rw [htake]
    · rw [hdigest,hkept,hkeeping]
      show _ = c.fold_log rules (w.log.take (w.log.take shown).length) none
      rw [htake]
  | keep shown appended resting fails =>
    cases hkeeper : w.keeper with
    | none =>
      have hstep : c.step w (.keep shown appended resting fails) = w := by simp only [Schema.step,hkeeper]
      refine ⟨by rw [hstep]; exact h,fun k hk => ?_⟩
      rw [hkeeper] at hk
      cases hk
    | some k =>
      obtain ⟨hkeeps,-,hcaches⟩ := (h.keeper k hkeeper).keep shown appended resting
      have hstep : c.step w (.keep shown appended resting fails) = { w with
          keeper := some (c.keep k (w.log.take shown) appended resting).1
          file := c.store w.file (c.keep k (w.log.take shown) appended resting).2 fails } := by
        simp only [Schema.step,hkeeper]
      rw [hstep]
      refine ⟨⟨h.log,sound_store h.file fun cached hcached => ?_,fun k' hk' => ?_⟩,fun k' hk' cached hcached => ?_⟩
      · obtain ⟨hle,hdigest,s,hs,hstate⟩ := hcaches cached hcached
        exact ⟨w.log.take cached.through_seq,h.log _,k.keeping.rules,s,by rw [List.length_take,Nat.min_eq_left hle],hdigest,hs,hstate⟩
      · obtain rfl := Option.some.inj hk'
        exact hkeeps
      · obtain rfl := Option.some.inj (hkeeper.symm.trans hk')
        obtain ⟨hle,-,hs⟩ := hcaches cached hcached
        exact ⟨hle,hs⟩
  | crash survivors => exact ⟨⟨take_take_mem h.log _,h.file,fun _ hk => by cases hk⟩,trivial⟩
  | replace file => exact ⟨⟨h.log,hmeets,h.keeper⟩,trivial⟩

end Schema

/-- Whatever is appended, kept, lost in crashes and put in the place of the cache: every start returns the fold of the
records it is given, and every cache a keeper stores is the fold of the first records of the log as it then is. -/
theorem the_cached_fold_changes_no_result {occurs : Set (List R)} (hempty : [] ∈ occurs) (hcollision : c.NoCollision occurs)
    {acts : List (Act R)} (hmeets : Along c.step (c.Meets occurs) {} acts) : Along c.step c.Right {} acts := by
  refine Along.ensures (I := c.Inv occurs) (fun w act h hmeets => h.step hcollision w act hmeets) ?_ hmeets
  refine ⟨fun n => ?_,fun _ h => (by cases h),fun _ h => by cases h⟩
  rw [List.take_nil]
  exact hempty

/-! ## A small schema -/

namespace Sample

structure Entry where
  seq : UInt8
  body : List UInt8
  deriving DecidableEq

def encodeField (f : Bool × UInt8) : Bytes := [if f.1 then 8 else 18,f.2]

theorem selfDelimiting_encodeField : SelfDelimiting encodeField := by
  refine ⟨fun f h => (by cases h),?_⟩
  rintro ⟨b,v⟩ ⟨b',v'⟩ s t h
  obtain ⟨htag,hrest⟩ := List.cons.inj h
  obtain ⟨rfl,rfl⟩ := List.cons.inj hrest
  refine ⟨?_,rfl⟩
  cases b <;> cases b' <;> simp at htag ⊢

def packNat (n : ℕ) : Bytes := List.replicate n 1 ++ [0]

def unpackNat : Bytes → Option (ℕ × Bytes)
  | [] => none
  | b :: rest => if b = 0 then some (0,rest) else (unpackNat rest).map fun q => (q.1+1,q.2)

theorem unpackNat_packNat (n : ℕ) (rest : Bytes) : unpackNat (packNat n ++ rest) = some (n,rest) := by
  induction n with
  | zero => rfl
  | succ n ih =>
    have hcons : packNat (n+1) ++ rest = 1 :: (packNat n ++ rest) := rfl
    rw [hcons,unpackNat,if_neg (by decide),ih]
    rfl

def pack (m : StateCache) : Bytes :=
  packNat m.schema_version ++ (packNat m.through_seq ++ (packNat m.digest.length ++ (m.digest ++ m.state)))

def unpack (data : Bytes) : Option StateCache :=
  (unpackNat data).bind fun version => (unpackNat version.2).bind fun through => (unpackNat through.2).map fun length =>
    ⟨version.1,through.1,length.2.take length.1,length.2.drop length.1⟩

theorem unpack_pack (m : StateCache) : unpack (pack m) = some m := by
  unfold unpack pack
  rw [unpackNat_packNat,Option.bind_some,unpackNat_packNat,Option.bind_some,unpackNat_packNat]
  simp

/-- A fold is the sequences folded, and its bytes say whether the rules were those called `now`. -/
def schema : Schema Entry Bytes (Bool × UInt8) where
  fields r := (true,r.seq) :: r.body.map fun b => (false,b)
  encodeField := encodeField
  isSeq := Prod.fst
  delimited := selfDelimiting_encodeField
  sequence_first r := by
    refine ⟨⟨_,rfl,rfl⟩,fun f hf => ?_⟩
    obtain ⟨b,-,rfl⟩ := List.mem_map.mp hf
    rfl
  canonical r r' h := by
    obtain ⟨hseq,hbody⟩ := List.cons.inj h
    have hinj : Function.Injective fun b : UInt8 => (false,b) := fun a b h => (Prod.ext_iff.mp h).2
    obtain ⟨seq,body⟩ := r
    obtain ⟨seq',body'⟩ := r'
    obtain rfl : seq = seq' := (Prod.ext_iff.mp hseq).2
    obtain rfl : body = body' := List.map_injective_iff.mpr hinj hbody
    rfl
  sha256 := id
  apply_logged _ prior r := some (prior.getD [] ++ [r.seq])
  encode s rules := (if rules = "now" then 1 else 0) :: s
  decode data rules := if data.head? = some 1 ∧ rules = "now" then .folded data.tail else .rules_changed
  decode_encode s s' rules rules' h := by
    by_cases hrules' : rules' = "now"
    · by_cases hrules : rules = "now"
      · rw [if_pos ⟨by rw [if_pos hrules']; rfl,hrules⟩] at h
        exact ⟨hrules'.trans hrules.symm,(Decoded.folded.inj h).symm⟩
      · rw [if_neg fun hboth => hrules hboth.2] at h
        cases h
    · rw [if_neg fun hboth => by simp [hrules'] at hboth] at h
      cases h
  cacheToBinary := pack
  cacheFromBinary := unpack
  validate m := decide (1 ≤ m.through_seq)
  from_to_binary := unpack_pack

/-- Two records are folded and cached, a third is appended and lost, and another comes in its place. -/
def acts : List (Act Entry) :=
  [.append ⟨1,[7]⟩,.append ⟨2,[]⟩,.start 2 1 "now" true,.commit,.keep 2 1 true false,.append ⟨3,[5]⟩,.crash 2,.append ⟨3,[6]⟩,
    .start 3 1 "now" true]

theorem the_cached_fold_changes_no_result_replaced :
    Along schema.step schema.Right {} acts ∧ (run schema.step {} acts).keeper.map FoldKeeper.start = some (.used 2) ∧
      (run schema.step {} acts).keeper.map FoldKeeper.kept = some (some [1,2,3]) := by
  refine ⟨?_,by decide +kernel,by decide +kernel⟩
  refine @the_cached_fold_changes_no_result _ _ _ schema Set.univ trivial (fun _ _ _ _ h => h) _ ?_
  exact ⟨trivial,trivial,trivial,trivial,trivial,trivial,trivial,trivial,trivial,trivial⟩

end Sample

end Vibesys.Foldcache
