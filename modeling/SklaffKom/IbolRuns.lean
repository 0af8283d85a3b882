import SklaffKom.IbolRecovery
import SklaffKom.Lib.Runs

/-!
# Runs of the importer

Rebuilds and updates follow each other, and each may fail to read some of the files.  The checkpoint
does not move past a file that could not be read, but a rebuild replaces the cache also when it fails
on a file that the checkpoint has passed.
-/

open CString Firsts Runs

namespace SklaffKom

/-! ## The files -/

theorem mem_collectMsgFiles {dir : List CString} {f : IbolMsgFile} :
    f ∈ collectMsgFiles dir ↔ f.name ∈ dir ∧ parseMsgNumber f.name = some f.number := by
  unfold collectMsgFiles
  rw [List.mem_insertionSort, List.mem_filterMap]
  constructor
  · intro ⟨name, hname, hf⟩
    obtain ⟨n, hn, rfl⟩ := Option.map_eq_some_iff.mp hf
    exact ⟨hname, hn⟩
  · intro ⟨hname, hn⟩
    exact ⟨f.name, hname, by rw [hn]; rfl⟩

theorem mem_collectMsgFiles_append {a b : List CString} {f : IbolMsgFile} :
    f ∈ collectMsgFiles (a ++ b) ↔ f ∈ collectMsgFiles a ∨ f ∈ collectMsgFiles b := by
  rw [mem_collectMsgFiles, mem_collectMsgFiles, mem_collectMsgFiles, List.mem_append]
  tauto

theorem number_le_ulongMax {dir : List CString} {f : IbolMsgFile} (h : f ∈ collectMsgFiles dir) :
    f.number ≤ ulongMax := by
  have hn := (mem_collectMsgFiles.mp h).2
  unfold parseMsgNumber at hn
  obtain ⟨⟨n, rest⟩, -, hn⟩ := Option.bind_eq_some_iff.mp hn
  dsimp only at hn
  split at hn
  · cases hn
  · next hmax =>
    split at hn
    · cases hn
      exact Nat.not_lt.mp hmax
    · cases hn

theorem highestMsg_cons (f : IbolMsgFile) (files : List IbolMsgFile) :
    highestMsg (f :: files) = max f.number (highestMsg files) := rfl

theorem number_le_highestMsg {files : List IbolMsgFile} {f : IbolMsgFile} (h : f ∈ files) :
    f.number ≤ highestMsg files := by
  induction files with
  | nil => cases h
  | cons g files ih =>
    rw [highestMsg_cons]
    rcases List.mem_cons.mp h with rfl | h
    · exact Nat.le_max_left _ _
    · exact Nat.le_trans (ih h) (Nat.le_max_right _ _)

theorem highestMsg_le {files : List IbolMsgFile} {n : Nat} (h : ∀ f ∈ files, f.number ≤ n) :
    highestMsg files ≤ n := by
  induction files with
  | nil => exact Nat.zero_le n
  | cons g files ih =>
    obtain ⟨hg, hfiles⟩ := List.forall_mem_cons.mp h
    rw [highestMsg_cons]
    exact Nat.max_le.mpr ⟨hg, ih hfiles⟩

/-- The highest number is that of a file, or there is none. -/
theorem highestMsg_attained {files : List IbolMsgFile} (h : files ≠ []) :
    ∃ f ∈ files, highestMsg files = f.number := by
  induction files with
  | nil => exact absurd rfl h
  | cons g files ih =>
    rw [highestMsg_cons]
    rcases Nat.le_total (highestMsg files) g.number with hle | hle
    · exact ⟨g, List.mem_cons_self, Nat.max_eq_left hle⟩
    · by_cases hnil : files = []
      · subst hnil
        exact ⟨g, List.mem_cons_self, Nat.max_eq_left (Nat.zero_le _)⟩
      · obtain ⟨f, hf, heq⟩ := ih hnil
        exact ⟨f, List.mem_cons_of_mem _ hf, (Nat.max_eq_right hle).trans heq⟩

/-- The checkpoint is read as it was written. -/
theorem readState_writeState {n : Nat} (h : n ≤ ulongMax) : readState (some (writeState n)) = some n := by
  have hlen : (decimal (n : Int)).length + 1 < 128 := by
    have h20 := @length_decimal n 20 (by decide) (Nat.lt_of_le_of_lt h (by decide))
    omega
  have hnl : '\n' ∉ decimal (n : Int) := notMem_decimal (by decide) (by decide)
  have hfgets := @fgets_line 128 _ [] hnl hlen
  have hne : decimal (n : Int) ++ ['\n'] ≠ [] := by simp
  have hrest : ['\n'] ≠ decimal (n : Int) ++ ['\n'] := by
    intro heq
    have hcount := congrArg List.length heq
    rw [List.length_append] at hcount
    have hpos := List.length_pos_iff.mpr (decimal_ne_nil n)
    rw [List.length_singleton] at hcount
    omega
  have hmod : ((n : Int) % (ulongMax + 1)).toNat = n := by
    rw [Int.emod_eq_of_lt (Int.natCast_nonneg n) (by omega)]
    exact Int.toNat_natCast n
  have hstr : strtoul (decimal (n : Int) ++ ['\n']) = (some n, ['\n']) := by
    unfold strtoul
    rw [strtol_decimal n (noDigit_cons.mpr rfl)]
    dsimp only
    rw [if_neg (by rw [Int.natAbs_natCast]; omega), hmod]
  unfold readState writeState
  dsimp only
  rw [hfgets]
  dsimp only
  rw [if_neg hne, hstr]
  dsimp only
  rw [if_neg]
  rw [not_or]
  exact ⟨hrest, by simp [isSpace]⟩

/-! ## Failures -/

/-- A run: its mode, the names that were added before it, and the files that it cannot read or whose
time it cannot get. -/
structure IbolRun where
  mode : ImportMode
  added : List CString
  unread : IbolMsgFile → Bool
  unstat : IbolMsgFile → Bool

/-- What a run gets of the messages. -/
def IbolEnv.seen (env : IbolEnv) (run : IbolRun) : IbolEnv where
  read f := if run.unread f then none else env.read f
  mtime f := if run.unstat f then none else env.mtime f
  mktime := env.mktime
  mtime_bounds := by
    intro f t ht
    split at ht
    · cases ht
    · exact env.mtime_bounds f t ht
  mktime_bounds := env.mktime_bounds

variable {env : IbolEnv} {run : IbolRun} {f : IbolMsgFile} {r : IbolRecord}

theorem mem_fileRecords {files : List IbolMsgFile} :
    r ∈ fileRecords env files ↔ ∃ f ∈ files, fileResult env f = .record r := by
  unfold fileRecords
  rw [List.mem_filterMap]
  refine exists_congr fun f => and_congr_right fun _ => ?_
  cases h : fileResult env f <;> simp [FileResult.record?]

theorem makeRecord_seen {msg : FidoMsg} {entry : IbolEntry}
    (h : makeRecord (env.seen run) f msg entry = some r) : makeRecord env f msg entry = some r := by
  unfold makeRecord at h ⊢
  obtain ⟨t, ht, hr⟩ := Option.bind_eq_some_iff.mp h
  have ht' : (ftnTimestamp env.mktime 7 msg.date).or (env.mtime f) = some t := by
    rcases Option.or_eq_some_iff.mp ht with hdate | ⟨hnone, hfile⟩
    · exact Option.or_eq_some_iff.mpr (Or.inl hdate)
    · refine Option.or_eq_some_iff.mpr (Or.inr ⟨hnone, ?_⟩)
      unfold IbolEnv.seen at hfile
      dsimp only at hfile
      split at hfile
      · cases hfile
      · exact hfile
  rw [ht']
  exact hr

theorem messageResult_seen (env : IbolEnv) (run : IbolRun) (f : IbolMsgFile) (msg : FidoMsg) :
    messageResult (env.seen run) f msg = messageResult env f msg ∨
      messageResult (env.seen run) f msg = .broken := by
  unfold messageResult
  cases ibolIsMessage msg with
  | false => exact Or.inl rfl
  | true =>
    generalize ibolParseMessage msg IbolEntry.init = parsed
    obtain ⟨entry, status⟩ := parsed
    cases status with
    | error e => exact Or.inl rfl
    | empty e => exact Or.inl rfl
    | ok =>
      show (makeRecord (env.seen run) f msg entry).elim FileResult.broken .record =
          (makeRecord env f msg entry).elim .broken .record ∨
        (makeRecord (env.seen run) f msg entry).elim FileResult.broken .record = .broken
      cases hseen : makeRecord (env.seen run) f msg entry with
      | none => exact Or.inr rfl
      | some r =>
        left
        rw [makeRecord_seen hseen]

/-- A file is seen as it is, or the run fails on it. -/
theorem fileResult_seen (env : IbolEnv) (run : IbolRun) (f : IbolMsgFile) :
    fileResult (env.seen run) f = fileResult env f ∨ fileResult (env.seen run) f = .failed ∨
      fileResult (env.seen run) f = .broken := by
  unfold fileResult
  have hread : (env.seen run).read f = if run.unread f then none else env.read f := rfl
  rw [hread]
  split
  · exact Or.inr (Or.inl rfl)
  · cases env.read f with
    | none => exact Or.inl rfl
    | some msg =>
      rcases messageResult_seen env run f msg with heq | hbroken
      · exact Or.inl heq
      · exact Or.inr (Or.inr hbroken)

theorem fileResult_of_seen (h : fileResult (env.seen run) f = .record r) : fileResult env f = .record r := by
  rcases fileResult_seen env run f with heq | hfailed | hbroken
  · rw [← heq, h]
  · rw [h] at hfailed
    cases hfailed
  · rw [h] at hbroken
    cases hbroken

theorem fileRecords_seen_subset {files : List IbolMsgFile} :
    fileRecords (env.seen run) files ⊆ fileRecords env files := by
  intro r hr
  obtain ⟨f, hf, hrec⟩ := mem_fileRecords.mp hr
  exact mem_fileRecords.mpr ⟨f, hf, fileResult_of_seen hrec⟩

/-! ## A run -/

/-- A directory with the files of the importer. -/
structure IbolSystem where
  dir : List CString
  store : IbolStore

def IbolSystem.init : IbolSystem := ⟨[], ⟨none, none⟩⟩

/-- The numbers of new files are higher than those of the files that are there. -/
def HigherNumbers (dir added : List CString) : Prop :=
  ∀ f ∈ collectMsgFiles added, ∀ g ∈ collectMsgFiles dir, g.number < f.number

instance (dir added : List CString) : Decidable (HigherNumbers dir added) :=
  inferInstanceAs (Decidable (∀ f ∈ collectMsgFiles added, ∀ g ∈ collectMsgFiles dir, g.number < f.number))

/-- Files are added, and the importer is run. -/
def ibolStep (env : IbolEnv) (s : IbolSystem) (run : IbolRun) : Option IbolSystem :=
  if HigherNumbers s.dir run.added then
    some ⟨s.dir ++ run.added, (runImport run.mode (env.seen run) (s.dir ++ run.added) s.store).1⟩
  else none

/-- The cache holds one record for each `MSGID` of the directory, and no others. -/
def OnePerMsgid (cache dir : List IbolRecord) : Prop :=
  (cache.map (·.msgid)).Nodup ∧ cache ⊆ dir ∧ ∀ r ∈ dir, r.msgid ∈ cache.map (·.msgid)

instance (cache dir : List IbolRecord) : Decidable (OnePerMsgid cache dir) :=
  inferInstanceAs (Decidable ((cache.map (·.msgid)).Nodup ∧ cache ⊆ dir ∧
    ∀ r ∈ dir, r.msgid ∈ cache.map (·.msgid)))

/-- The records of a directory, as far as a number. -/
def recordsUpTo (env : IbolEnv) (dir : List CString) (n : Nat) : List IbolRecord :=
  fileRecords env ((collectMsgFiles dir).filter fun f => f.number ≤ n)

/-- What the importer keeps: the checkpoint is that of a file, and the cache has every `MSGID` of the
messages as far as the checkpoint. -/
structure IbolImported (env : IbolEnv) (s : IbolSystem) : Prop where
  whole : WholeLines (s.store.cache.getD [])
  nodup : ((cacheRecords (s.store.cache.getD [])).map (·.msgid)).Nodup
  subset : cacheRecords (s.store.cache.getD []) ⊆ fileRecords env (collectMsgFiles s.dir)
  cache : s.store.state.isSome = true → s.store.cache.isSome = true
  checkpoint : ∃ n, readState s.store.state = some n ∧ n ≤ highestMsg (collectMsgFiles s.dir) ∧
    ∀ r ∈ recordsUpTo env s.dir n, r.msgid ∈ (cacheRecords (s.store.cache.getD [])).map (·.msgid)

theorem imported_init (env : IbolEnv) : IbolImported env IbolSystem.init where
  whole := WholeLines.nil
  nodup := List.nodup_nil
  subset := List.nil_subset _
  cache h := by cases h
  checkpoint := ⟨0, rfl, Nat.zero_le _, by
    intro r hr
    obtain ⟨f, hf, -⟩ := mem_fileRecords.mp hr
    cases (mem_collectMsgFiles.mp (List.mem_filter.mp hf).1).1⟩

/-! ## What a run leaves -/

/-- The run fails to read one of the files. -/
def failsOn (env : IbolEnv) (files : List IbolMsgFile) : Bool :=
  files.any fun f => fileResult env f = .failed

theorem fileRecords_seen {files : List IbolMsgFile} (hstop : stopsEarly (env.seen run) files = false)
    (hfail : failsOn (env.seen run) files = false) :
    fileRecords (env.seen run) files = fileRecords env files := by
  unfold stopsEarly at hstop
  unfold failsOn at hfail
  rw [List.any_eq_false] at hstop hfail
  unfold fileRecords
  apply List.filterMap_congr
  intro f hf
  rcases fileResult_seen env run f with heq | hfailed | hbroken
  · rw [heq]
  · exact absurd (decide_eq_true hfailed) (hfail f hf)
  · exact absurd (decide_eq_true hbroken) (hstop f hf)

theorem runImport_rebuild_store (env : IbolEnv) (dir : List CString) (store : IbolStore) :
    (runImport .rebuild env dir store).1 =
      if stopsEarly env (collectMsgFiles dir) then store
      else
        { cache := some ((firsts (·.msgid) [] (fileRecords env (collectMsgFiles dir))).flatMap
            ibolWriteRecord)
          state := if failsOn env (collectMsgFiles dir) then store.state
            else some (writeState (highestMsg (collectMsgFiles dir))) } := by
  unfold runImport importStart
  dsimp only
  rw [ibolImportLoop_done]
  cases hstop : stopsEarly env (collectMsgFiles dir) with
  | true => rfl
  | false =>
    rw [filesDone_of_not_stopsEarly hstop]
    rfl

theorem runImport_update_store {env : IbolEnv} {dir : List CString} {store : IbolStore} {oldState : Nat}
    {ids : List CString} (hcache : WholeLines (store.cache.getD []))
    (hstart : updateStart store (collectMsgFiles dir) = some (oldState, ids)) :
    (runImport .update env dir store).1 =
      { cache := some (store.cache.getD [] ++
          (firsts (·.msgid) ids (fileRecords env (filesDone env (newFiles dir oldState)))).flatMap
            ibolWriteRecord)
        state := if stopsEarly env (newFiles dir oldState) || failsOn env (newFiles dir oldState)
          then store.state else some (writeState (highestMsg (collectMsgFiles dir))) } := by
  have hrepair : newlineRepair (store.cache.getD []) = [] := newlineRepair_whole hcache
  unfold runImport importStart
  dsimp only
  rw [hstart]
  dsimp only [Option.bind_eq_bind, Option.bind_some, pure]
  rw [show (collectMsgFiles dir).filter (fun f => ¬ f.number ≤ oldState) = newFiles dir oldState from rfl,
    ibolImportLoop_done, hrepair]
  cases hstop : stopsEarly env (newFiles dir oldState) with
  | true => rfl
  | false =>
    rw [filesDone_of_not_stopsEarly hstop]
    rfl

/-- The records that were written are in the cache. -/
theorem cacheRecords_written {rs : List IbolRecord} (hrs : ∀ r ∈ rs, r.InMembers ∧ 0 ≤ r.timestamp) :
    cacheRecords (rs.flatMap ibolWriteRecord) = rs := by
  rw [cacheRecords_records fun r hr => (hrs r hr).1, List.filter_eq_self]
  exact fun r hr => decide_eq_true (hrs r hr).2

/-! ## The step -/

/-- No message of the directory is from before 1970, a rebuild finds every `MSGID` of the messages
that the checkpoint has passed, and where the old cache is kept no file 0 is added that holds a
message. -/
def KeepsMessages (env : IbolEnv) (s : IbolSystem) (run : IbolRun) (s' : IbolSystem) : Prop :=
  (∀ r ∈ fileRecords env (collectMsgFiles s'.dir), 0 ≤ r.timestamp) ∧
    if run.mode = .rebuild ∧ stopsEarly (env.seen run) (collectMsgFiles s'.dir) = false then
      ∀ n ∈ readState s.store.state, ∀ r ∈ recordsUpTo env s'.dir n,
        r.msgid ∈ (fileRecords (env.seen run) (collectMsgFiles s'.dir)).map (·.msgid)
    else ∀ f ∈ collectMsgFiles run.added, f.number = 0 → (fileResult env f).record? = none

variable {s s' : IbolSystem}

/-- What was added is behind the checkpoint. -/
theorem recordsUpTo_added {n : Nat} {added : List CString} (hn : n ≤ highestMsg (collectMsgFiles s.dir))
    (hhigher : HigherNumbers s.dir added)
    (hzero : ∀ f ∈ collectMsgFiles added, f.number = 0 → (fileResult env f).record? = none) :
    recordsUpTo env (s.dir ++ added) n ⊆ recordsUpTo env s.dir n := by
  intro r hr
  obtain ⟨f, hf, hrec⟩ := mem_fileRecords.mp hr
  obtain ⟨hf, hle⟩ := List.mem_filter.mp hf
  apply mem_fileRecords.mpr
  rcases mem_collectMsgFiles_append.mp hf with hold | hnew
  · exact ⟨f, List.mem_filter.mpr ⟨hold, hle⟩, hrec⟩
  · have hle : f.number ≤ n := of_decide_eq_true hle
    by_cases hnil : collectMsgFiles s.dir = []
    · -- without files the checkpoint is 0
      rw [hnil] at hn
      have h0 : f.number = 0 := Nat.le_zero.mp (Nat.le_trans hle hn)
      have hnone := hzero f hnew h0
      rw [hrec] at hnone
      cases hnone
    · obtain ⟨g, hg, hhigh⟩ := highestMsg_attained hnil
      have hlt := hhigher f hnew g hg
      omega

/-- The cache of an update. -/
theorem updateStart_imported (h : IbolImported env s) {n : Nat} (hn : readState s.store.state = some n)
    {files : List IbolMsgFile} (hle : n ≤ highestMsg files) :
    updateStart s.store files = some (n, loadCacheIds (s.store.cache.getD [])) := by
  unfold updateStart
  rw [hn, Option.bind_eq_bind, Option.bind_some, if_neg (by omega), if_neg]
  · rfl
  · intro ⟨hstate, hcache⟩
    have hsome := h.cache hstate
    rw [hcache] at hsome
    cases hsome

/-- A directory that all files of were read. -/
theorem recordsUpTo_highest (env : IbolEnv) (dir : List CString) :
    recordsUpTo env dir (highestMsg (collectMsgFiles dir)) = fileRecords env (collectMsgFiles dir) := by
  unfold recordsUpTo
  congr 1
  rw [List.filter_eq_self]
  exact fun f hf => decide_eq_true (number_le_highestMsg hf)

theorem fileRecords_subset {files files' : List IbolMsgFile} (h : files ⊆ files') :
    fileRecords env files ⊆ fileRecords env files' := by
  intro r hr
  obtain ⟨f, hf, hrec⟩ := mem_fileRecords.mp hr
  exact mem_fileRecords.mpr ⟨f, h hf, hrec⟩

theorem highestMsg_append (a b : List CString) :
    highestMsg (collectMsgFiles a) ≤ highestMsg (collectMsgFiles (a ++ b)) :=
  highestMsg_le fun _ hf => number_le_highestMsg (mem_collectMsgFiles_append.mpr (Or.inl hf))

theorem readState_highest (dir : List CString) :
    readState (some (writeState (highestMsg (collectMsgFiles dir)))) =
      some (highestMsg (collectMsgFiles dir)) :=
  readState_writeState (highestMsg_le fun _ hf => number_le_ulongMax hf)

/-- A record of the directory is one that the checkpoint has passed, or is selected. -/
theorem mem_recordsUpTo_or {dir : List CString} {n : Nat} (h : r ∈ fileRecords env (collectMsgFiles dir)) :
    r ∈ recordsUpTo env dir n ∨ r ∈ fileRecords env (newFiles dir n) := by
  obtain ⟨f, hf, hrec⟩ := mem_fileRecords.mp h
  by_cases hle : f.number ≤ n
  · exact Or.inl (mem_fileRecords.mpr ⟨f, List.mem_filter.mpr ⟨hf, decide_eq_true hle⟩, hrec⟩)
  · exact Or.inr (mem_fileRecords.mpr ⟨f, List.mem_filter.mpr ⟨hf, decide_eq_true hle⟩, hrec⟩)

section Step

variable (h : IbolImported env s) (hhigher : HigherNumbers s.dir run.added)
  (hpos : ∀ r ∈ fileRecords env (collectMsgFiles (s.dir ++ run.added)), 0 ≤ r.timestamp)

include h hhigher

/-- A run that leaves the files of the importer as they are. -/
theorem imported_unchanged
    (hzero : ∀ f ∈ collectMsgFiles run.added, f.number = 0 → (fileResult env f).record? = none) :
    IbolImported env ⟨s.dir ++ run.added, s.store⟩ where
  whole := h.whole
  nodup := h.nodup
  subset := fun r hr => fileRecords_subset
    (fun _ hf => mem_collectMsgFiles_append.mpr (Or.inl hf)) (h.subset hr)
  cache := h.cache
  checkpoint := by
    obtain ⟨n, hn, hle, hkeys⟩ := h.checkpoint
    exact ⟨n, hn, Nat.le_trans hle (highestMsg_append _ _),
      fun r hr => hkeys r (recordsUpTo_added hle hhigher hzero hr)⟩

include hpos

theorem imported_update (hmode : run.mode = .update)
    (hzero : ∀ f ∈ collectMsgFiles run.added, f.number = 0 → (fileResult env f).record? = none) :
    IbolImported env ⟨s.dir ++ run.added,
      (runImport run.mode (env.seen run) (s.dir ++ run.added) s.store).1⟩ := by
  obtain ⟨n, hn, hle, hkeys⟩ := h.checkpoint
  set dir := s.dir ++ run.added
  set cache := s.store.cache.getD []
  have hup : ∀ r ∈ recordsUpTo env dir n, r.msgid ∈ (cacheRecords cache).map (·.msgid) :=
    fun r hr => hkeys r (recordsUpTo_added hle hhigher hzero hr)
  have hhigh : n ≤ highestMsg (collectMsgFiles dir) := Nat.le_trans hle (highestMsg_append _ _)
  have hstart := updateStart_imported h hn hhigh
  rw [hmode, runImport_update_store h.whole hstart]
  set files := filesDone (env.seen run) (newFiles dir n)
  set rs := firsts (·.msgid) (loadCacheIds cache) (fileRecords (env.seen run) files) with hrs
  have hfiles : files ⊆ collectMsgFiles dir := fun f hf =>
    (List.mem_filter.mp (filesDone_subset _ _ hf)).1
  have hrsdir : rs ⊆ fileRecords env (collectMsgFiles dir) := fun r hr =>
    fileRecords_subset hfiles (fileRecords_seen_subset (firsts_subset hr))
  have hnew : cacheRecords (cache ++ rs.flatMap ibolWriteRecord) = cacheRecords cache ++ rs := by
    rw [cacheRecords_append h.whole, cacheRecords_written]
    exact fun r hr => ⟨inMembers_of_mem_fileRecords (hrsdir hr), hpos r (hrsdir hr)⟩
  have hmono : ∀ id ∈ (cacheRecords cache).map (·.msgid),
      id ∈ (cacheRecords cache ++ rs).map (·.msgid) := by
    intro id hid
    rw [List.map_append]
    exact List.mem_append_left _ hid
  refine ⟨h.whole.append (wholeLines_records rs), ?_, ?_, fun _ => rfl, ?_⟩
  · show ((cacheRecords (cache ++ rs.flatMap ibolWriteRecord)).map (·.msgid)).Nodup
    rw [hnew, List.map_append, List.nodup_append]
    refine ⟨h.nodup, nodup_firsts, ?_⟩
    -- a MSGID of the cache is not written again
    intro id hid id' hid' heq
    obtain ⟨r, hr, rfl⟩ := List.mem_map.mp hid'
    exact (mem_firsts.mp hr).1 (mem_loadCacheIds.mpr (heq ▸ hid))
  · show cacheRecords (cache ++ rs.flatMap ibolWriteRecord) ⊆ _
    rw [hnew]
    intro r hr
    rcases List.mem_append.mp hr with hold | hr
    · exact fileRecords_subset (fun _ hf => mem_collectMsgFiles_append.mpr (Or.inl hf)) (h.subset hold)
    · exact hrsdir hr
  · show ∃ m, readState (if stopsEarly (env.seen run) (newFiles dir n) ||
        failsOn (env.seen run) (newFiles dir n) then s.store.state
        else some (writeState (highestMsg (collectMsgFiles dir)))) = some m ∧
      m ≤ highestMsg (collectMsgFiles dir) ∧ ∀ r ∈ recordsUpTo env dir m,
        r.msgid ∈ (cacheRecords (cache ++ rs.flatMap ibolWriteRecord)).map (·.msgid)
    rw [hnew]
    cases hbad : stopsEarly (env.seen run) (newFiles dir n) || failsOn (env.seen run) (newFiles dir n) with
    | true => exact ⟨n, hn, hhigh, fun r hr => hmono _ (hup r hr)⟩
    | false =>
      -- the checkpoint moves when every file could be read
      obtain ⟨hstop, hfail⟩ := Bool.or_eq_false_iff.mp hbad
      refine ⟨_, readState_highest dir, Nat.le_refl _, ?_⟩
      rw [recordsUpTo_highest]
      intro r hr
      rcases mem_recordsUpTo_or (n := n) hr with hold | hsel
      · exact hmono _ (hup r hold)
      · rw [← fileRecords_seen hstop hfail, ← filesDone_of_not_stopsEarly hstop] at hsel
        by_cases hknown : r.msgid ∈ loadCacheIds cache
        · exact hmono _ (mem_loadCacheIds.mp hknown)
        · rw [List.map_append]
          exact List.mem_append_right _ (mem_keys_firsts.mpr ⟨hknown, List.mem_map_of_mem hsel⟩)

omit h hhigher in
/-- A rebuild that installs its cache. -/
theorem imported_rebuild (h : IbolImported env s) (hmode : run.mode = .rebuild)
    (hstop : stopsEarly (env.seen run) (collectMsgFiles (s.dir ++ run.added)) = false)
    (hkept : ∀ n ∈ readState s.store.state, ∀ r ∈ recordsUpTo env (s.dir ++ run.added) n,
      r.msgid ∈ (fileRecords (env.seen run) (collectMsgFiles (s.dir ++ run.added))).map (·.msgid)) :
    IbolImported env ⟨s.dir ++ run.added,
      (runImport run.mode (env.seen run) (s.dir ++ run.added) s.store).1⟩ := by
  obtain ⟨n, hn, hle, -⟩ := h.checkpoint
  set dir := s.dir ++ run.added
  rw [hmode, runImport_rebuild_store, if_neg (by rw [hstop]; decide)]
  set rs := firsts (·.msgid) [] (fileRecords (env.seen run) (collectMsgFiles dir))
  have hrsdir : rs ⊆ fileRecords env (collectMsgFiles dir) := fun r hr =>
    fileRecords_seen_subset (firsts_subset hr)
  have hnew : cacheRecords (rs.flatMap ibolWriteRecord) = rs := by
    rw [cacheRecords_written]
    exact fun r hr => ⟨inMembers_of_mem_fileRecords (hrsdir hr), hpos r (hrsdir hr)⟩
  have hall : ∀ id ∈ (fileRecords (env.seen run) (collectMsgFiles dir)).map (·.msgid),
      id ∈ rs.map (·.msgid) := fun id hid => mem_keys_firsts.mpr ⟨List.not_mem_nil, hid⟩
  refine ⟨wholeLines_records rs, ?_, ?_, fun _ => rfl, ?_⟩
  · show ((cacheRecords (rs.flatMap ibolWriteRecord)).map (·.msgid)).Nodup
    rw [hnew]
    exact nodup_firsts
  · show cacheRecords (rs.flatMap ibolWriteRecord) ⊆ _
    rw [hnew]
    exact hrsdir
  · show ∃ m, readState (if failsOn (env.seen run) (collectMsgFiles dir) then s.store.state
        else some (writeState (highestMsg (collectMsgFiles dir)))) = some m ∧
      m ≤ highestMsg (collectMsgFiles dir) ∧ ∀ r ∈ recordsUpTo env dir m,
        r.msgid ∈ (cacheRecords (rs.flatMap ibolWriteRecord)).map (·.msgid)
    rw [hnew]
    cases hfail : failsOn (env.seen run) (collectMsgFiles dir) with
    | true =>
      exact ⟨n, hn, Nat.le_trans hle (highestMsg_append _ _), fun r hr => hall _ (hkept n hn r hr)⟩
    | false =>
      refine ⟨_, readState_highest dir, Nat.le_refl _, ?_⟩
      rw [recordsUpTo_highest, ← fileRecords_seen hstop hfail]
      exact fun r hr => hall _ (List.mem_map_of_mem hr)

end Step

/-- An update that can read every file leaves a record of each message. -/
def CompletesUpdate (env : IbolEnv) (_ : IbolSystem) (run : IbolRun) (s' : IbolSystem) : Prop :=
  run.mode = .update →
    (∀ f ∈ collectMsgFiles s'.dir,
      ((env.seen run).read f).isSome = true ∧ ((env.seen run).mtime f).isSome = true) →
    OnePerMsgid (cacheRecords (s'.store.cache.getD [])) (fileRecords env (collectMsgFiles s'.dir))

theorem imported_step (h : IbolImported env s) (hstep : ibolStep env s run = some s')
    (hkeeps : KeepsMessages env s run s') : IbolImported env s' := by
  unfold ibolStep at hstep
  split at hstep
  · next hhigher =>
    cases hstep
    obtain ⟨hpos, hkeeps⟩ := hkeeps
    split at hkeeps
    · next hrebuild => exact imported_rebuild hpos h hrebuild.1 hrebuild.2 hkeeps
    · next hold =>
      cases hmode : run.mode with
      | update =>
        have himp := imported_update h hhigher hpos hmode hkeeps
        rwa [hmode] at himp
      | rebuild =>
        -- the rebuild is given up
        have hstop : stopsEarly (env.seen run) (collectMsgFiles (s.dir ++ run.added)) = true := by
          rw [← Bool.not_eq_false]
          exact fun hfalse => hold ⟨hmode, hfalse⟩
        rw [runImport_rebuild_store, if_pos hstop]
        exact imported_unchanged h hhigher hkeeps
  · cases hstep

/-- Where the checkpoint is that of the last file, nothing is missing. -/
theorem IbolImported.onePerMsgid (h : IbolImported env s)
    (hstate : s.store.state = some (writeState (highestMsg (collectMsgFiles s.dir)))) :
    OnePerMsgid (cacheRecords (s.store.cache.getD [])) (fileRecords env (collectMsgFiles s.dir)) := by
  obtain ⟨n, hn, -, hkeys⟩ := h.checkpoint
  rw [hstate, readState_highest] at hn
  cases hn
  rw [recordsUpTo_highest] at hkeys
  exact ⟨h.nodup, h.subset, hkeys⟩

theorem completesUpdate_step (h : IbolImported env s) (hstep : ibolStep env s run = some s')
    (hkeeps : KeepsMessages env s run s') : CompletesUpdate env s run s' := by
  intro hmode hread
  have himported := imported_step h hstep hkeeps
  apply himported.onePerMsgid
  unfold ibolStep at hstep
  split at hstep
  · cases hstep
    obtain ⟨n, hn, hle, -⟩ := h.checkpoint
    dsimp only at hread ⊢
    have hresult : ∀ f ∈ newFiles (s.dir ++ run.added) n, fileResult (env.seen run) f ≠ .broken ∧
        fileResult (env.seen run) f ≠ .failed := by
      intro f hf
      have hfile := hread f (List.mem_filter.mp hf).1
      exact fileResult_ne_broken hfile.1 hfile.2
    have hstop : stopsEarly (env.seen run) (newFiles (s.dir ++ run.added) n) = false := by
      unfold stopsEarly
      rw [List.any_eq_false]
      intro f hf
      simpa using (hresult f hf).1
    have hfail : failsOn (env.seen run) (newFiles (s.dir ++ run.added) n) = false := by
      unfold failsOn
      rw [List.any_eq_false]
      intro f hf
      simpa using (hresult f hf).2
    rw [hmode, runImport_update_store h.whole
      (updateStart_imported h hn (Nat.le_trans hle (highestMsg_append _ _))), hstop, hfail]
    rfl
  · cases hstep

/-- In a run of rebuilds and updates that keep the messages, an update that can read every file leaves
one record of each. -/
theorem update_completes (env : IbolEnv) (runs : List IbolRun)
    (h : AllSteps (ibolStep env) (KeepsMessages env) IbolSystem.init runs) :
    AllSteps (ibolStep env) (CompletesUpdate env) IbolSystem.init runs :=
  AllSteps.imp (fun _ _ _ himp hstep hkeeps =>
    ⟨imported_step himp hstep hkeeps, completesUpdate_step himp hstep hkeeps⟩) (imported_init env) h

/-! ## Short runs -/

instance (env : IbolEnv) (s : IbolSystem) (run : IbolRun) (s' : IbolSystem) :
    Decidable (KeepsMessages env s run s') :=
  inferInstanceAs (Decidable ((∀ r ∈ fileRecords env (collectMsgFiles s'.dir), 0 ≤ r.timestamp) ∧
    if run.mode = .rebuild ∧ stopsEarly (env.seen run) (collectMsgFiles s'.dir) = false then
      ∀ n ∈ readState s.store.state, ∀ r ∈ recordsUpTo env s'.dir n,
        r.msgid ∈ (fileRecords (env.seen run) (collectMsgFiles s'.dir)).map (·.msgid)
    else ∀ f ∈ collectMsgFiles run.added, f.number = 0 → (fileResult env f).record? = none))

instance (env : IbolEnv) (s : IbolSystem) (run : IbolRun) (s' : IbolSystem) :
    Decidable (CompletesUpdate env s run s') :=
  inferInstanceAs (Decidable (run.mode = .update →
    (∀ f ∈ collectMsgFiles s'.dir,
      ((env.seen run).read f).isSome = true ∧ ((env.seen run).mtime f).isSome = true) →
    OnePerMsgid (cacheRecords (s'.store.cache.getD [])) (fileRecords env (collectMsgFiles s'.dir))))

/-- A directory of one-liners whose `MSGID`s are the numbers of their files. -/
def numberedEnv : IbolEnv where
  read f := some (onelinerMsg (decimal f.number) "Oneliner: hej\n".toList)
  mtime _ := some 1
  mktime _ := -1
  mtime_bounds := onelinerEnv.mtime_bounds
  mktime_bounds := onelinerEnv.mktime_bounds

/-- A run that fails to read the file of one number, if one is given. -/
def runFailingOn (mode : ImportMode) (added : List CString) (failing : Option Nat) : IbolRun where
  mode
  added
  unread f := decide (some f.number = failing)
  unstat _ := false

/-- The second update fails on a file, and the third one imports it. -/
theorem update_completes_example :
    AllSteps (ibolStep numberedEnv) (CompletesUpdate numberedEnv) IbolSystem.init
      [runFailingOn .update ["1.msg".toList] none,
       runFailingOn .update ["2.msg".toList, "3.msg".toList] (some 2),
       runFailingOn .update [] none] :=
  update_completes _ _ (by decide +kernel)

/-- A rebuild that fails on a file which the checkpoint has passed loses its message. -/
theorem rebuild_loses_message :
    ∃ (env : IbolEnv) (runs : List IbolRun),
      (Runs.run (ibolStep env) IbolSystem.init runs).isSome = true ∧
        ¬ AllSteps (ibolStep env) (CompletesUpdate env) IbolSystem.init runs :=
  ⟨numberedEnv,
    [runFailingOn .update ["1.msg".toList] none, runFailingOn .rebuild [] (some 1),
      runFailingOn .update [] none], by decide +kernel, by decide +kernel⟩

end SklaffKom
