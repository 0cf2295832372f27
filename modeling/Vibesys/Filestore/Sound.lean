import Vibesys.Filestore.Logs

/-!
# The directories and what is kept of them

Whatever the commits make of the requests, the chunks of a job lie one after another in its directory, those
that passed their commit point and no others, and the events of a run are numbered from 1 with no gap. What
is kept in memory tells the same whenever it is not stale, and recovering it never finds the store corrupt.
-/
namespace Vibesys.Filestore

open Vibesys.Core (JobID RunID Failure)
open Library (Table)
open Outbox (Outcome)

variable {β E : Type*}

/-- What memory says is what is on disk. -/
structure Store.Current (s : Store β E) : Prop where
  index : ∀ id, s.indexed id = placed 0 (s.chunks id)
  logs : ∀ id, s.logLength id = (s.content id).length
  events : ∀ run, s.eventCount run = (s.drafts run).length
  jobs : s.jobs = s.jobFiles

structure Store.Sound (s : Store β E) : Prop where
  full : ∀ id, ∀ c ∈ s.chunks id, c ≠ []
  files : ∀ id, (s.chunkFiles id).items = layout 0 (s.chunks id)
  records : ∀ run, (s.records run).items = (s.history run).map fun event => ⟨event.sequence,event⟩
  current : s.stale = false → s.Current

theorem Store.sound_empty : ({} : Store β E).Sound where
  full id c hc := absurd hc List.not_mem_nil
  files _ := rfl
  records _ := rfl
  current h := by cases h

/-! ## Recovering -/

lemma length_history (s : Store β E) (run : RunID) : (s.history run).length = (s.drafts run).length := by
  simp [Store.history]

lemma getElem?_history (s : Store β E) (run : RunID) (i : ℕ) :
    (s.history run)[i]? = ((s.drafts run)[i]?).map fun draft => ⟨i+1,run,draft⟩ := by
  simp [Store.history]

namespace Store.Sound

variable {s : Store β E}

theorem find?_chunkFiles (hs : s.Sound) {id : JobID} {e : Σ _ : ℕ, List β} (he : e ∈ layout 0 (s.chunks id)) :
    (s.chunkFiles id).find? e.1 = some e.2 :=
  Table.find?_eq_some.mpr (hs.files id ▸ he)

theorem find?_records (hs : s.Sound) {run : RunID} {i : ℕ} {event : Event E} (h : (s.history run)[i]? = some event) :
    (s.records run).find? (i+1) = some event := by
  rw [Table.find?_eq_some,hs.records]
  obtain ⟨draft,-,rfl⟩ := Option.map_eq_some_iff.mp (getElem?_history s run i ▸ h)
  exact List.mem_map_of_mem (f := fun event : Event E => (⟨event.sequence,event⟩ : Σ _ : ℕ, Event E))
    (List.mem_of_getElem? h)

theorem length_records (hs : s.Sound) (run : RunID) : (s.records run).keys.length = (s.drafts run).length := by
  rw [Table.length_keys,hs.records,List.length_map,length_history]

theorem indexLogs_eq (hs : s.Sound) :
    ∃ t, indexLogs s.logFiles = some t ∧
      ∀ id, (t.find? id).getD ([],0) = (placed 0 (s.chunks id),(s.content id).length) := by
  have hitems : ∀ id files, s.logFiles.find? id = some files →
      indexChunks 0 files.items = some (placed 0 (s.chunks id),(s.content id).length) := by
    intro id files hfind
    have hfiles : files = s.chunkFiles id := by rw [Store.chunkFiles,hfind]; rfl
    rw [hfiles,hs.files,indexChunks_layout 0 (hs.full id),Nat.zero_add]
    rfl
  unfold indexLogs
  refine (Table.collect_eq (t := s.logFiles) ?_).imp fun t ht => ⟨ht.1,fun id => ?_⟩
  · intro id files h
    simp [hitems id files h]
  rw [ht.2]
  cases hfiles : s.logFiles.find? id with
  | none =>
    have hnone : (s.chunkFiles id).items = [] := by rw [Store.chunkFiles,hfiles]; rfl
    cases hchunks : s.chunks id with
    | nil => simp [Store.content,hchunks,placed]
    | cons c cs => simp [hs.files,hchunks,layout] at hnone
  | some files =>
    rw [Option.bind_some,hitems id files hfiles]
    cases hchunks : s.chunks id with
    | nil => simp [Store.content,hchunks,placed]
    | cons c cs =>
      have hc : 0 < c.length := List.length_pos_iff.mpr (hs.full id c (by simp [hchunks]))
      have hpos : 0 < (s.content id).length := by
        rw [Store.content,hchunks,List.flatten_cons,List.length_append]
        omega
      simp [hpos]

theorem countEvents_eq (hs : s.Sound) :
    ∃ t, countEvents s.eventFiles = some t ∧ ∀ run, (t.find? run).getD 0 = (s.drafts run).length := by
  have hrecords : ∀ run files, s.eventFiles.find? run = some files → files = s.records run := by
    intro run files hfind
    rw [Store.records,hfind]
    rfl
  have hall : ∀ run, ((List.range' 1 (s.drafts run).length).all fun i => ((s.records run).find? i).isSome) = true := by
    intro run
    rw [List.all_eq_true]
    intro i hi
    obtain ⟨hi₁,hi₂⟩ := List.mem_range'_1.mp hi
    obtain ⟨j,rfl⟩ : ∃ j, i = j+1 := ⟨i-1,by omega⟩
    have hj : j < (s.history run).length := by rw [length_history]; omega
    rw [hs.find?_records (List.getElem?_eq_getElem hj)]
    rfl
  obtain ⟨t,ht,hfind⟩ := Table.collect_eq (t := s.eventFiles) (f := fun (_ : RunID) records =>
    let n := records.keys.length
    if (List.range' 1 n).all fun i => (records.find? i).isSome then some (if n > 0 then some n else none) else none)
    fun run files h => by
      obtain rfl := hrecords run files h
      simp only [hs.length_records,hall]
      rfl
  refine ⟨t,ht,fun run => ?_⟩
  rw [hfind]
  cases hfiles : s.eventFiles.find? run with
  | none =>
    have hlen := hs.length_records run
    rw [Store.records,hfiles] at hlen
    exact hlen
  | some files =>
    obtain rfl := hrecords run files hfiles
    simp only [Option.bind_some,hs.length_records,hall,if_true]
    by_cases hpos : (s.drafts run).length > 0
    · simp [hpos]
    · rw [if_neg hpos]
      show 0 = _
      omega

theorem recover (hs : s.Sound) {readable : Bool} {s' : Store β E} (h : s.recover readable = .ok s') :
    s'.Sound ∧ s'.Current ∧ s'.jobFiles = s.jobFiles ∧ s'.written = s.written ∧ s'.happened = s.happened := by
  unfold Store.recover at h
  cases hstale : s.stale with
  | false =>
    simp only [hstale,Bool.not_false,if_true,Except.ok.injEq] at h
    subst h
    exact ⟨hs,hs.current hstale,rfl,rfl,rfl⟩
  | true =>
    cases readable with
    | false => simp [hstale] at h
    | true =>
      obtain ⟨logs,hlogs,hfindLogs⟩ := hs.indexLogs_eq
      obtain ⟨events,hevents,hfindEvents⟩ := hs.countEvents_eq
      simp only [hstale,hlogs,hevents,Bool.not_true,Bool.false_eq_true,if_false,Except.ok.injEq] at h
      subst h
      have hcurrent : Store.Current { s with
          index := logs.map Prod.fst, jobs := s.jobFiles, logs := logs.map Prod.snd, events := events, stale := false } := by
        refine ⟨fun id => ?_,fun id => ?_,hfindEvents,rfl⟩
        · change ((logs.map Prod.fst).find? id).getD [] = placed 0 (s.chunks id)
          have := congrArg Prod.fst (hfindLogs id)
          cases hfind : logs.find? id <;> simpa [hfind] using this
        · change ((logs.map Prod.snd).find? id).getD 0 = (s.content id).length
          have := congrArg Prod.snd (hfindLogs id)
          cases hfind : logs.find? id <;> simpa [hfind] using this
      exact ⟨⟨hs.full,hs.files,hs.records,fun _ => hcurrent⟩,hcurrent,rfl,rfl,rfl⟩

theorem exists_recover (hs : s.Sound) : ∃ s', s.recover true = .ok s' := by
  unfold Store.recover
  cases hstale : s.stale with
  | false => exact ⟨s,rfl⟩
  | true =>
    obtain ⟨logs,hlogs,-⟩ := hs.indexLogs_eq
    obtain ⟨events,hevents,-⟩ := hs.countEvents_eq
    rw [hlogs,hevents]
    exact ⟨_,rfl⟩

/-! ## Writing -/

theorem ensureLogDir (id : JobID) :
    ∃ t, s.ensureLogDir id = { s with logFiles := t } ∧ ∀ id', (t.find? id').getD ∅ = s.chunkFiles id' := by
  unfold Store.ensureLogDir
  cases hfind : s.logFiles.find? id with
  | some _ => exact ⟨s.logFiles,rfl,fun _ => rfl⟩
  | none =>
    refine ⟨s.logFiles.insert id ∅,rfl,fun id' => ?_⟩
    rw [Table.find?_insert,Store.chunkFiles]
    split_ifs with h
    · rw [h,hfind]
      rfl
    · rfl

theorem ensureRunDir (run : RunID) :
    ∃ t, s.ensureRunDir run = { s with eventFiles := t } ∧ ∀ run', (t.find? run').getD ∅ = s.records run' := by
  unfold Store.ensureRunDir
  cases hfind : s.eventFiles.find? run with
  | some _ => exact ⟨s.eventFiles,rfl,fun _ => rfl⟩
  | none =>
    refine ⟨s.eventFiles.insert run ∅,rfl,fun run' => ?_⟩
    rw [Table.find?_insert,Store.records]
    split_ifs with h
    · rw [h,hfind]
      rfl
    · rfl

lemma chunks_publishChunk (s : Store β E) (id id' : JobID) (offset : ℕ) (data : List β) :
    (s.publishChunk id offset data).chunks id' = if id' = id then s.chunks id ++ [data] else s.chunks id' := by
  rw [Store.publishChunk,Store.chunks,Table.find?_insert]
  split_ifs <;> rfl

theorem publishChunk (hs : s.Sound) {id : JobID} {data : List β} (hdata : data ≠ []) {offset : ℕ}
    (hoffset : offset = (s.content id).length) {stale : Bool} {index : Table JobID (List Chunk)} {logs : Table JobID ℕ}
    (hcurrent : stale = false →
      Store.Current { s.publishChunk id offset data with stale := stale, index := index, logs := logs }) :
    Store.Sound { s.publishChunk id offset data with stale := stale, index := index, logs := logs } := by
  refine ⟨fun id' c hc => ?_,fun id' => ?_,hs.records,hcurrent⟩
  · change c ∈ (s.publishChunk id offset data).chunks id' at hc
    rw [chunks_publishChunk] at hc
    split_ifs at hc with hid
    · rcases List.mem_append.mp hc with hc | hc
      · exact hs.full id c hc
      · rw [List.mem_singleton.mp hc]
        exact hdata
    · exact hs.full id' c hc
  · change ((s.publishChunk id offset data).chunkFiles id').items =
      layout 0 ((s.publishChunk id offset data).chunks id')
    rw [chunks_publishChunk,Store.publishChunk,Store.chunkFiles,Table.find?_insert]
    split_ifs with hid
    · have hlast : ∀ e ∈ (s.chunkFiles id).items, e.1 < offset := by
        intro e he
        rw [hs.files] at he
        rw [hoffset,Store.content]
        exact Nat.zero_add (s.chunks id).flatten.length ▸ lt_of_mem_layout (hs.full id) he
      rw [Option.getD_some,Table.items_insert_of_lt hlast,hs.files,layout_append,hoffset,Nat.zero_add]
      rfl
    · exact hs.files id'

theorem commitLog (hs : s.Sound) (hcur : s.Current) {id : JobID} {data : List β} (hdata : data ≠ [])
    (outcome : Outcome) : (s.commitLog id (s.logLength id) data outcome).Sound := by
  obtain ⟨t,ht,hfiles⟩ := ensureLogDir (s := s) id
  have hdir : Store.Sound { s with logFiles := t } := by
    refine ⟨hs.full,fun id' => ?_,hs.records,fun h => ?_⟩
    · exact (congrArg Table.items (hfiles id')).trans (hs.files id')
    · exact ⟨hcur.index,hcur.logs,hcur.events,hcur.jobs⟩
  unfold Store.commitLog
  rw [ht]
  cases outcome with
  | undone => exact ⟨hdir.full,hdir.files,hdir.records,fun h => by cases h⟩
  | lostReply => exact hdir.publishChunk hdata (hcur.logs id) fun h => by cases h
  | ok =>
    refine hdir.publishChunk hdata (hcur.logs id) fun _ => ⟨fun id' => ?_,fun id' => ?_,hcur.events,hcur.jobs⟩
    · change ((s.index.insert id _).find? id').getD [] =
        placed 0 ((Store.publishChunk { s with logFiles := t } id (s.logLength id) data).chunks id')
      rw [chunks_publishChunk,Table.find?_insert]
      split_ifs with hid
      · change s.indexed id ++ _ = placed 0 (s.chunks id ++ [data])
        rw [placed_append,hcur.index,hcur.logs,Nat.zero_add]
        rfl
      · exact hcur.index id'
    · change ((s.logs.insert id _).find? id').getD 0 =
        ((Store.publishChunk { s with logFiles := t } id (s.logLength id) data).chunks id').flatten.length
      rw [chunks_publishChunk,Table.find?_insert]
      split_ifs with hid
      · change s.logLength id+data.length = (s.chunks id ++ [data]).flatten.length
        rw [List.flatten_append,List.length_append,hcur.logs,Store.content,List.flatten_singleton]
      · exact hcur.logs id'

lemma drafts_publishEvent (s : Store β E) (event : Event E) (run : RunID) :
    (s.publishEvent event).drafts run = if run = event.run then s.drafts event.run ++ [event.draft] else s.drafts run := by
  rw [Store.publishEvent,Store.drafts,Table.find?_insert]
  split_ifs <;> rfl

theorem publishEvent (hs : s.Sound) {event : Event E} (hseq : event.sequence = (s.drafts event.run).length+1)
    {stale : Bool} {events : Table RunID ℕ}
    (hcurrent : stale = false → Store.Current { s.publishEvent event with stale := stale, events := events }) :
    Store.Sound { s.publishEvent event with stale := stale, events := events } := by
  refine ⟨hs.full,hs.files,fun run => ?_,hcurrent⟩
  change ((s.publishEvent event).records run).items = ((s.publishEvent event).history run).map _
  rw [Store.history,drafts_publishEvent,Store.publishEvent,Store.records,Table.find?_insert]
  split_ifs with hrun
  · subst hrun
    have hlast : ∀ e ∈ (s.records event.run).items, e.1 < event.sequence := by
      intro e he
      rw [hs.records] at he
      obtain ⟨old,hold,rfl⟩ := List.mem_map.mp he
      obtain ⟨i,hi⟩ := List.mem_iff_getElem?.mp hold
      obtain ⟨hlt,-⟩ := List.getElem?_eq_some_iff.mp hi
      obtain ⟨draft,-,rfl⟩ := Option.map_eq_some_iff.mp (getElem?_history s event.run i ▸ hi)
      rw [length_history] at hlt
      show i+1 < event.sequence
      omega
    rw [Option.getD_some,Table.items_insert_of_lt hlast,hs.records,List.mapIdx_append,List.map_append]
    simp [Store.history,← hseq]
  · exact hs.records run

theorem commitEvent (hs : s.Sound) (hcur : s.Current) {event : Event E}
    (hseq : event.sequence = s.eventCount event.run+1) (outcome : Outcome) : (s.commitEvent event outcome).Sound := by
  obtain ⟨t,ht,hfiles⟩ := ensureRunDir (s := s) event.run
  have hdir : Store.Sound { s with eventFiles := t } := by
    refine ⟨hs.full,hs.files,fun run => ?_,fun h => ?_⟩
    · exact (congrArg Table.items (hfiles run)).trans (hs.records run)
    · exact ⟨hcur.index,hcur.logs,hcur.events,hcur.jobs⟩
  have hnext : event.sequence = (s.drafts event.run).length+1 := by rw [hseq,hcur.events]
  unfold Store.commitEvent
  rw [ht]
  cases outcome with
  | undone => exact ⟨hdir.full,hdir.files,hdir.records,fun h => by cases h⟩
  | lostReply => exact hdir.publishEvent hnext fun h => by cases h
  | ok =>
    refine hdir.publishEvent hnext fun _ => ⟨hcur.index,hcur.logs,fun run => ?_,hcur.jobs⟩
    change ((s.events.insert event.run _).find? run).getD 0 =
      ((Store.publishEvent { s with eventFiles := t } event).drafts run).length
    rw [drafts_publishEvent,Table.find?_insert]
    split_ifs with hrun
    · change s.eventCount event.run+1 = (s.drafts event.run ++ [event.draft]).length
      rw [List.length_append,hcur.events]
      rfl
    · exact hcur.events run

/-! ## Runs -/

theorem step (hs : s.Sound) (op : Op β E) : (s.step op).Sound := by
  cases op with
  | appendLog id data readable outcome =>
    simp only [Store.step,Store.AppendLog]
    cases hrec : s.recover readable with
    | error err => exact hs
    | ok s₁ =>
      obtain ⟨hs₁,hcur,-⟩ := hs.recover hrec
      simp only [Store.appendLogAt]
      by_cases hid : id ∈ s₁.jobs
      · by_cases hdata : data = []
        · simpa [hid,hdata] using hs₁
        · simpa [hid,hdata] using hs₁.commitLog hcur hdata outcome
      · simpa [hid] using hs₁
  | appendEvent run draft held readable outcome =>
    simp only [Store.step,Store.AppendEvent]
    cases hrec : s.recover readable with
    | error err => exact hs
    | ok s₁ =>
      obtain ⟨hs₁,hcur,-⟩ := hs.recover hrec
      cases hevent : s₁.appendEventAt run draft held with
      | error err => simpa [hevent] using hs₁
      | ok event =>
        have hseq : event.sequence = s₁.eventCount event.run+1 := by
          unfold Store.appendEventAt at hevent
          split at hevent
          · cases hevent
          · split at hevent
            · cases hevent
            · cases hevent
              rfl
        simpa [hevent] using hs₁.commitEvent hcur hseq outcome
  | putJob id readable outcome =>
    simp only [Store.step,Store.putJob]
    cases hrec : s.recover readable with
    | error err => exact hs
    | ok s₁ =>
      obtain ⟨hs₁,hcur,-⟩ := hs.recover hrec
      cases outcome with
      | ok =>
        exact ⟨hs₁.full,hs₁.files,hs₁.records,fun _ =>
          ⟨hcur.index,hcur.logs,hcur.events,congrArg (id :: ·) hcur.jobs⟩⟩
      | lostReply => exact ⟨hs₁.full,hs₁.files,hs₁.records,fun h => by cases h⟩
      | undone => exact ⟨hs₁.full,hs₁.files,hs₁.records,fun h => by cases h⟩
  | readLog id offset limit readable =>
    simp only [Store.step,Store.ReadLog]
    cases hrec : s.recover readable with
    | error err => exact hs
    | ok s₁ => exact (hs.recover hrec).1
  | events run after limit readable =>
    simp only [Store.step,Store.Events]
    cases hrec : s.recover readable with
    | error err => exact hs
    | ok s₁ => exact (hs.recover hrec).1
  | reopen => exact ⟨hs.full,hs.files,hs.records,fun h => by cases h⟩

theorem after (ops : List (Op β E)) : (Store.after ops).Sound :=
  Library.run_invariant (fun _ op hs => hs.step op) sound_empty ops

end Store.Sound

end Vibesys.Filestore
