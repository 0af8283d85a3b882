import SklaffKom.IbolImport
import SklaffKom.Lib.Firsts
import SklaffKom.Lib.Lists

/-!
# An update that was cut off

The next update ends the line that was cut with a line end and imports what is missing.  A line that
was cut in its text is still a record, though, with a part of the text only, and its `MSGID` is taken
for imported.
-/

open CString Firsts

namespace SklaffKom

/-! ## The lines of the cache -/

theorem cacheRecords_append {a : CString} (ha : WholeLines a) (b : CString) :
    cacheRecords (a ++ b) = cacheRecords a ++ cacheRecords b := by
  unfold cacheRecords
  rw [getlines_append ha, List.filterMap_append]

theorem timestamp_of_parseLine {line : CString} {r : IbolRecord} (h : ibolParseLine line = .ok r) :
    0 ≤ r.timestamp := by
  unfold ibolParseLine at h
  obtain ⟨⟨stamp, p⟩, -, h⟩ := Lists.except_bind_iff.mp h
  obtain ⟨timestamp, hstamp, h⟩ := Lists.except_bind_iff.mp h
  obtain ⟨⟨msgid, p⟩, -, h⟩ := Lists.except_bind_iff.mp h
  obtain ⟨⟨author, p⟩, -, h⟩ := Lists.except_bind_iff.mp h
  obtain ⟨⟨source, p⟩, -, h⟩ := Lists.except_bind_iff.mp h
  obtain ⟨⟨text, p⟩, -, h⟩ := Lists.except_bind_iff.mp h
  dsimp only at h
  split at h
  · cases h
  · cases h
    unfold parseStamp at hstamp
    dsimp only at hstamp
    split at hstamp
    · cases hstamp
    · next hneg =>
      cases hstamp
      simp only [not_or] at hneg
      exact Int.not_lt.mp hneg.2.2.2.2

theorem timestamp_of_mem_cacheRecords {cache : CString} {r : IbolRecord} (h : r ∈ cacheRecords cache) :
    0 ≤ r.timestamp := by
  obtain ⟨line, -, hline⟩ := List.mem_filterMap.mp h
  cases hparse : ibolParseLine line with
  | error e =>
    rw [hparse] at hline
    cases hline
  | ok r' =>
    rw [hparse] at hline
    cases hline
    exact timestamp_of_parseLine hparse

/-! ## The records that are made -/

/-- A record whose values fit their members; its time may be before 1970. -/
structure IbolRecord.InMembers (r : IbolRecord) : Prop where
  timestamp : -llongMax - 1 ≤ r.timestamp ∧ r.timestamp ≤ llongMax
  msgid : r.msgid ≠ [] ∧ r.msgid.length < ibolMsgidMax
  author : r.author.length < ibolAuthorMax
  source : r.source.length < ibolSourceMax
  text : r.text.length < ibolTextMax

theorem IbolRecord.InMembers.fits {r : IbolRecord} (h : r.InMembers) (h0 : 0 ≤ r.timestamp) : r.Fits :=
  ⟨⟨h0, h.timestamp.2⟩, h.msgid, h.author, h.source, h.text⟩

/-- The record with a part of its text. -/
theorem IbolRecord.InMembers.withText {r : IbolRecord} (h : r.InMembers) {p : CString}
    (hp : p <+: r.text) : IbolRecord.InMembers { r with text := p } :=
  ⟨h.timestamp, h.msgid, h.author, h.source, Nat.lt_of_le_of_lt hp.length_le h.text⟩

theorem length_strlcpy_lt {size : Nat} (hs : 0 < size) (s : CString) : (strlcpy size s).length < size := by
  unfold strlcpy
  rw [List.length_take]
  omega

theorem makeRecord_inMembers {env : IbolEnv} {file : IbolMsgFile} {msg : FidoMsg} {entry : IbolEntry}
    {r : IbolRecord} (h : makeRecord env file msg entry = some r) : r.InMembers := by
  unfold makeRecord at h
  obtain ⟨t, ht, hr⟩ := Option.bind_eq_some_iff.mp h
  cases hr
  refine ⟨?_, ⟨?_, length_strlcpy_lt (by decide) _⟩, length_strlcpy_lt (by decide) _,
    length_strlcpy_lt (by decide) _, length_strlcpy_lt (by decide) _⟩
  · rcases Option.or_eq_some_iff.mp ht with hdate | ⟨-, hfile⟩
    · obtain ⟨tm, htm, hdate⟩ := Option.bind_eq_some_iff.mp hdate
      dsimp only at hdate
      split at hdate
      · cases hdate
      · cases hdate
        exact env.mktime_bounds tm
    · exact env.mtime_bounds file t hfile
  · -- a message without a MSGID gets one from its number
    unfold strlcpy
    split
    · next hmsgid =>
      obtain ⟨c, m, hm⟩ := List.exists_cons_of_ne_nil hmsgid
      rw [hm]
      exact List.cons_ne_nil c _
    · exact List.cons_ne_nil 'F' _

def FileResult.record? : FileResult → Option IbolRecord
  | .record r => some r
  | _ => none

/-- The records of files, also those with one `MSGID`. -/
def fileRecords (env : IbolEnv) (files : List IbolMsgFile) : List IbolRecord :=
  files.filterMap fun f => (fileResult env f).record?

theorem makeRecord_of_messageResult {env : IbolEnv} {f : IbolMsgFile} {msg : FidoMsg} {r : IbolRecord}
    (h : messageResult env f msg = .record r) : ∃ entry, makeRecord env f msg entry = some r := by
  unfold messageResult at h
  split at h
  · cases h
  · generalize ibolParseMessage msg IbolEntry.init = parsed at h
    obtain ⟨entry, status⟩ := parsed
    cases status with
    | error e => cases h
    | empty e => cases h
    | ok =>
      refine ⟨entry, ?_⟩
      replace h : (makeRecord env f msg entry).elim FileResult.broken .record = .record r := h
      cases hmake : makeRecord env f msg entry with
      | none =>
        rw [hmake] at h
        cases h
      | some r' =>
        rw [hmake] at h
        cases h
        rfl

theorem inMembers_of_mem_fileRecords {env : IbolEnv} {files : List IbolMsgFile} {r : IbolRecord}
    (h : r ∈ fileRecords env files) : r.InMembers := by
  obtain ⟨f, -, hf⟩ := List.mem_filterMap.mp h
  have hresult : fileResult env f = .record r := by
    cases hres : fileResult env f <;> rw [hres] at hf <;> cases hf
    rfl
  unfold fileResult at hresult
  cases hread : env.read f with
  | none =>
    rw [hread] at hresult
    cases hresult
  | some msg =>
    rw [hread] at hresult
    obtain ⟨entry, hmake⟩ := makeRecord_of_messageResult hresult
    exact makeRecord_inMembers hmake

/-! ## Records in the cache -/

theorem notMem_eol {l : CString} (h : ∀ c ∈ l, isEol c = false) : '\n' ∉ l := by
  intro hmem
  have hn := h _ hmem
  cases hn

/-- What a line of the cache is read as. -/
theorem cacheRecords_line {l : CString} (hl : ∀ c ∈ l, isEol c = false) :
    cacheRecords (l ++ ['\n']) = (ibolParseLine (l ++ ['\n'])).toOption.toList := by
  unfold cacheRecords
  rw [getlines_line (notMem_eol hl)]
  cases h : (ibolParseLine (l ++ ['\n'])).toOption <;> simp [getlines, h]

/-- What the part of a line at the end of the cache is read as. -/
theorem cacheRecords_tail {l : CString} (hl : ∀ c ∈ l, isEol c = false) :
    cacheRecords l = (ibolParseLine l).toOption.toList := by
  by_cases hne : l = []
  · subst hne
    rfl
  · unfold cacheRecords
    rw [getlines_tail (notMem_eol hl) hne]
    cases h : (ibolParseLine l).toOption <;> simp [h]

theorem cacheRecords_write {r : IbolRecord} (hr : r.InMembers) :
    cacheRecords (ibolWriteRecord r) = if 0 ≤ r.timestamp then [r] else [] := by
  have heol : ∀ c ∈ ['\n'].head?, isEol c = true := by
    intro c hc
    cases hc
    rfl
  rw [ibolWriteRecord_eq, cacheRecords_line fun c hc => isEol_of_mem_ibolLine hc]
  split
  · next h0 =>
    rw [ibolParseLine_line (hr.fits h0) heol]
    rfl
  · next h0 =>
    obtain ⟨e, he⟩ := ibolParseLine_negative hr.timestamp.1 (Int.not_le.mp h0) (List.prefix_refl _) heol
    rw [he]
    rfl

theorem wholeLines_records (rs : List IbolRecord) : WholeLines (rs.flatMap ibolWriteRecord) := by
  induction rs with
  | nil => exact WholeLines.nil
  | cons r rs ih =>
    rw [List.flatMap_cons, ibolWriteRecord_eq]
    exact (WholeLines.line _).append ih

/-- The records that were written, but for those before 1970. -/
theorem cacheRecords_records {rs : List IbolRecord} (hrs : ∀ r ∈ rs, r.InMembers) :
    cacheRecords (rs.flatMap ibolWriteRecord) = rs.filter fun r => decide (0 ≤ r.timestamp) := by
  induction rs with
  | nil => rfl
  | cons r rs ih =>
    obtain ⟨hr, hrs⟩ := List.forall_mem_cons.mp hrs
    have hw : WholeLines (ibolWriteRecord r) := by
      rw [ibolWriteRecord_eq]
      exact WholeLines.line _
    rw [List.flatMap_cons, cacheRecords_append hw, cacheRecords_write hr, ih hrs, List.filter_cons]
    by_cases h0 : 0 ≤ r.timestamp <;> simp [h0]

theorem mem_loadCacheIds {cache id : CString} :
    id ∈ loadCacheIds cache ↔ id ∈ (cacheRecords cache).map (·.msgid) := by
  have hfold : ∀ ids set : List CString, id ∈ ids.foldl idSetAdd set ↔ id ∈ set ∨ id ∈ ids := by
    intro ids
    induction ids with
    | nil => simp
    | cons i ids ih =>
      intro set
      rw [List.foldl_cons, ih, List.mem_cons, idSetAdd]
      split
      · next hi =>
        constructor
        · rintro (h | h)
          · exact Or.inl h
          · exact Or.inr (Or.inr h)
        · rintro (h | rfl | h)
          · exact Or.inl h
          · exact Or.inl hi
          · exact Or.inr h
      · rw [List.mem_append, List.mem_singleton, or_assoc]
  unfold loadCacheIds
  rw [hfold]
  simp

/-! ## The loop -/

theorem fileRecords_cons (env : IbolEnv) (f : IbolMsgFile) (files : List IbolMsgFile) :
    fileRecords env (f :: files) = (fileResult env f).record?.toList ++ fileRecords env files := by
  unfold fileRecords
  cases h : (fileResult env f).record? <;> simp [h]

/-- The files up to the first one that no record can be made of. -/
def filesDone (env : IbolEnv) (files : List IbolMsgFile) : List IbolMsgFile :=
  files.takeWhile fun f => fileResult env f ≠ .broken

/-- Whether the loop ends early. -/
def stopsEarly (env : IbolEnv) (files : List IbolMsgFile) : Bool :=
  files.any fun f => fileResult env f = .broken

theorem ibolImportLoop_done (env : IbolEnv) (files : List IbolMsgFile) (s : ImportLoop) :
    ibolImportLoop env files s =
      { ids := s.ids ++ (firsts (·.msgid) s.ids (fileRecords env (filesDone env files))).map (·.msgid)
        written := s.written ++
          (firsts (·.msgid) s.ids (fileRecords env (filesDone env files))).flatMap ibolWriteRecord
        parseFailureSeen := s.parseFailureSeen ||
          (filesDone env files).any fun f => fileResult env f = .failed
        writeFailed := s.writeFailed || stopsEarly env files } := by
  induction files generalizing s with
  | nil => simp [ibolImportLoop, fileRecords, firsts, filesDone, stopsEarly]
  | cons f files ih =>
    unfold filesDone stopsEarly at ih ⊢
    rw [ibolImportLoop, List.any_cons]
    cases hres : fileResult env f with
    | broken => simp [hres, fileRecords, firsts]
    | failed =>
      rw [List.takeWhile_cons_of_pos (by simp [hres]), fileRecords_cons, hres]
      dsimp only
      rw [ih]
      simp [FileResult.record?, hres]
    | skipped =>
      rw [List.takeWhile_cons_of_pos (by simp [hres]), fileRecords_cons, hres]
      dsimp only
      rw [ih]
      simp [FileResult.record?, hres]
    | record r =>
      have hrec : (FileResult.record r).record?.toList = [r] := rfl
      rw [List.takeWhile_cons_of_pos (by simp [hres]), fileRecords_cons, hres, hrec,
        List.singleton_append, firsts]
      dsimp only
      by_cases hr : r.msgid ∈ s.ids
      · rw [if_pos hr, if_pos hr, ih]
        simp [hres]
      · rw [if_neg hr, if_neg hr, ih, idSetAdd, if_neg hr]
        simp [hres]

theorem filesDone_of_not_stopsEarly {env : IbolEnv} {files : List IbolMsgFile} (h : stopsEarly env files = false) :
    filesDone env files = files := by
  unfold stopsEarly at h
  rw [List.any_eq_false] at h
  unfold filesDone
  rw [List.takeWhile_eq_self_iff]
  intro f hf
  simpa using h f hf

theorem filesDone_subset (env : IbolEnv) (files : List IbolMsgFile) : filesDone env files ⊆ files :=
  fun _ hf => (List.takeWhile_sublist _).subset hf

/-- What the loop makes of the files when no `make_record` fails. -/
theorem ibolImportLoop_eq {env : IbolEnv} {files : List IbolMsgFile}
    (hbroken : ∀ f ∈ files, fileResult env f ≠ .broken) (s : ImportLoop) :
    ibolImportLoop env files s =
      { ids := s.ids ++ (firsts (·.msgid) s.ids (fileRecords env files)).map (·.msgid)
        written := s.written ++
          (firsts (·.msgid) s.ids (fileRecords env files)).flatMap ibolWriteRecord
        parseFailureSeen := s.parseFailureSeen || files.any fun f => fileResult env f = .failed
        writeFailed := s.writeFailed } := by
  have hstop : stopsEarly env files = false := by
    unfold stopsEarly
    rw [List.any_eq_false]
    intro f hf
    simpa using hbroken f hf
  rw [ibolImportLoop_done, filesDone_of_not_stopsEarly hstop, hstop, Bool.or_false]

theorem newlineRepair_whole {cache : CString} (h : WholeLines cache) : newlineRepair cache = [] := by
  unfold newlineRepair cacheEndsWithNewline
  rw [if_pos]
  rw [Option.all_eq_true]
  intro c hc
  rw [h c hc]
  rfl

/-! ## An update -/

def newFiles (dir : List CString) (oldState : Nat) : List IbolMsgFile :=
  (collectMsgFiles dir).filter fun f => ¬ f.number ≤ oldState

theorem fileResult_ne_broken {env : IbolEnv} {f : IbolMsgFile} (hread : (env.read f).isSome = true)
    (hmtime : (env.mtime f).isSome = true) :
    fileResult env f ≠ .broken ∧ fileResult env f ≠ .failed := by
  obtain ⟨msg, hmsg⟩ := Option.isSome_iff_exists.mp hread
  obtain ⟨t, ht⟩ := Option.isSome_iff_exists.mp hmtime
  have hmake : ∀ entry, ∃ r, makeRecord env f msg entry = some r := by
    intro entry
    obtain ⟨t', ht'⟩ : ∃ t', (ftnTimestamp env.mktime 7 msg.date).or (env.mtime f) = some t' := by
      rw [ht]
      cases ftnTimestamp env.mktime 7 msg.date with
      | none => exact ⟨t, rfl⟩
      | some t' => exact ⟨t', rfl⟩
    unfold makeRecord
    rw [ht']
    exact ⟨_, rfl⟩
  have hresult : messageResult env f msg ≠ .broken ∧ messageResult env f msg ≠ .failed := by
    unfold messageResult
    split
    · exact ⟨by simp, by simp⟩
    · split
      · obtain ⟨r, hr⟩ := hmake _
        rw [hr]
        exact ⟨by simp, by simp⟩
      · exact ⟨by simp, by simp⟩
  unfold fileResult
  rw [hmsg]
  exact hresult

theorem updateStart_eq {store : IbolStore} {files : List IbolMsgFile} {oldState : Nat}
    {ids : List CString} (h : updateStart store files = some (oldState, ids)) :
    ids = loadCacheIds (store.cache.getD []) ∧
      ∀ cache, updateStart { store with cache := some cache } files =
        some (oldState, loadCacheIds cache) := by
  unfold updateStart at h ⊢
  obtain ⟨old, hold, h⟩ := Option.bind_eq_some_iff.mp h
  split at h
  · cases h
  · next hhigh =>
    split at h
    · cases h
    · cases h
      refine ⟨rfl, fun cache => ?_⟩
      dsimp only [Option.bind_eq_bind]
      rw [hold, Option.bind_some, if_neg hhigh, if_neg (by simp)]
      rfl

section Update

variable {env : IbolEnv} {dir : List CString} {store : IbolStore} {oldState : Nat} {ids : List CString}

/-- What an update writes and leaves when every file behind the checkpoint can be read. -/
theorem runImport_update (hstart : updateStart store (collectMsgFiles dir) = some (oldState, ids))
    (hread : ∀ f ∈ newFiles dir oldState, (env.read f).isSome = true ∧ (env.mtime f).isSome = true) :
    runImport .update env dir store =
      ({ cache := some (store.cache.getD [] ++ (newlineRepair (store.cache.getD []) ++
          (firsts (·.msgid) ids (fileRecords env (newFiles dir oldState))).flatMap ibolWriteRecord))
         state := some (writeState (highestMsg (collectMsgFiles dir))) }, true) := by
  have hbroken : ∀ f ∈ newFiles dir oldState, fileResult env f ≠ .broken := fun f hf =>
    (fileResult_ne_broken (hread f hf).1 (hread f hf).2).1
  have hany : (newFiles dir oldState).any (fun f => fileResult env f = .failed) = false := by
    rw [List.any_eq_false]
    intro f hf
    simpa using (fileResult_ne_broken (hread f hf).1 (hread f hf).2).2
  unfold runImport importStart
  dsimp only
  rw [hstart]
  dsimp only [Option.bind_eq_bind, Option.bind_some, pure]
  rw [show (collectMsgFiles dir).filter (fun f => ¬ f.number ≤ oldState) = newFiles dir oldState from rfl,
    ibolImportLoop_eq hbroken, hany]
  rfl

/-- What the update that is cut off leaves. -/
theorem interruptedUpdate_eq (hcache : WholeLines (store.cache.getD []))
    (hstart : updateStart store (collectMsgFiles dir) = some (oldState, ids))
    (hread : ∀ f ∈ newFiles dir oldState, (env.read f).isSome = true ∧ (env.mtime f).isSome = true)
    (k : Nat) : interruptedUpdate env dir store k =
      { store with cache := some (store.cache.getD [] ++
        ((firsts (·.msgid) ids (fileRecords env (newFiles dir oldState))).flatMap
          ibolWriteRecord).take k) } := by
  have hbroken : ∀ f ∈ newFiles dir oldState, fileResult env f ≠ .broken := fun f hf =>
    (fileResult_ne_broken (hread f hf).1 (hread f hf).2).1
  have hrepair : newlineRepair (store.cache.getD []) = [] := newlineRepair_whole hcache
  unfold interruptedUpdate importStart
  dsimp only
  rw [hstart]
  dsimp only [Option.bind_eq_bind, Option.bind_some, pure]
  rw [show (collectMsgFiles dir).filter (fun f => ¬ f.number ≤ oldState) = newFiles dir oldState from rfl,
    ibolImportLoop_eq hbroken, hrepair]
  rfl

end Update

/-! ## The cut -/

/-- What is there when the records are cut off: whole lines, and a part of the next one. -/
theorem take_records (rs : List IbolRecord) (k : Nat) :
    ∃ A B t, rs = A ++ B ∧ (rs.flatMap ibolWriteRecord).take k = A.flatMap ibolWriteRecord ++ t ∧
      (t = [] ∨ ∃ r B', B = r :: B' ∧ t <+: ibolLine r) := by
  induction rs generalizing k with
  | nil => exact ⟨[], [], [], rfl, List.take_nil, Or.inl rfl⟩
  | cons r rs ih =>
    rw [List.flatMap_cons]
    by_cases hk : (ibolWriteRecord r).length ≤ k
    · obtain ⟨A, B, t, rfl, htake, ht⟩ := ih (k - (ibolWriteRecord r).length)
      refine ⟨r :: A, B, t, rfl, ?_, ht⟩
      rw [List.take_append, List.take_of_length_le hk, htake, List.flatMap_cons, List.append_assoc]
    · -- the cut is in this line
      refine ⟨[], r :: rs, (ibolLine r).take k, rfl, ?_, Or.inr ⟨r, rs, rfl, List.take_prefix _ _⟩⟩
      rw [ibolWriteRecord_eq, List.length_append, List.length_singleton] at hk
      rw [List.take_append_of_le_length (by rw [ibolWriteRecord_eq, List.length_append]; omega),
        ibolWriteRecord_eq, List.take_append_of_le_length (by omega)]
      rfl

theorem eol_head : ∀ c ∈ ['\n'].head?, isEol c = true := by
  intro c hc
  cases hc
  rfl

/-- What a part of a line is read as, before and after it is ended. -/
theorem parse_prefix {r : IbolRecord} (hr : r.InMembers) {t : CString} (ht : t <+: ibolLine r) :
    (ibolParseLine t).toOption = (ibolParseLine (t ++ ['\n'])).toOption ∧
      ∀ r' ∈ (ibolParseLine t).toOption, 0 ≤ r.timestamp ∧
        ∃ p, p <+: r.text ∧ r' = { r with text := p } ∧ t = ibolLine r' := by
  have hnone : ∀ {x : Except CString IbolRecord}, (∃ e, x = .error e) → x.toOption = none := by
    rintro x ⟨e, rfl⟩
    rfl
  by_cases hneg : r.timestamp < 0
  · have hnil : ∀ c ∈ ([] : CString).head?, isEol c = true := by simp
    have h1 := hnone (ibolParseLine_negative hr.timestamp.1 hneg ht hnil)
    have h2 := hnone (ibolParseLine_negative hr.timestamp.1 hneg ht eol_head)
    rw [List.append_nil] at h1
    rw [h1, h2]
    exact ⟨rfl, by simp⟩
  · have h0 := Int.not_lt.mp hneg
    rcases ibolParseLine_torn (hr.fits h0) ht with ⟨p, hp, rfl⟩ | herror
    · have hfits : IbolRecord.Fits { r with text := p } := (hr.withText hp).fits h0
      have h1 := ibolParseLine_line hfits (p := []) (by simp)
      rw [List.append_nil] at h1
      rw [h1, ibolParseLine_line hfits eol_head]
      refine ⟨rfl, fun r' hr' => ⟨h0, p, hp, ?_⟩⟩
      cases hr'
      exact ⟨rfl, rfl⟩
    · have h1 := hnone (herror [] (by simp))
      have h2 := hnone (herror ['\n'] eol_head)
      rw [List.append_nil] at h1
      rw [h1, h2]
      exact ⟨rfl, by simp⟩

section Cut

variable {C t : CString} {A : List IbolRecord} (hC : WholeLines C) (hA : ∀ r ∈ A, r.InMembers)
  (ht : ∀ c ∈ t, isEol c = false)

include hC hA ht

/-- The records of a cache at whose end a line was cut. -/
theorem cacheRecords_cut : cacheRecords (C ++ (A.flatMap ibolWriteRecord ++ t)) =
    cacheRecords C ++ (A.filter (fun r => decide (0 ≤ r.timestamp)) ++
      (ibolParseLine t).toOption.toList) := by
  rw [cacheRecords_append hC, cacheRecords_append (wholeLines_records A), cacheRecords_records hA,
    cacheRecords_tail ht]

/-- The records after the next update. -/
theorem cacheRecords_repaired {rs : List IbolRecord} (hrs : ∀ r ∈ rs, r.InMembers) :
    let cut := C ++ (A.flatMap ibolWriteRecord ++ t)
    cacheRecords (cut ++ (newlineRepair cut ++ rs.flatMap ibolWriteRecord)) =
      cacheRecords C ++ (A.filter (fun r => decide (0 ≤ r.timestamp)) ++
        ((ibolParseLine (t ++ ['\n'])).toOption.toList ++
          rs.filter (fun r => decide (0 ≤ r.timestamp)))) := by
  intro cut
  have hwhole : WholeLines (C ++ A.flatMap ibolWriteRecord) := hC.append (wholeLines_records A)
  have hline : cut ++ newlineRepair cut = C ++ A.flatMap ibolWriteRecord ++
      (if t = [] then [] else t ++ ['\n']) := by
    unfold newlineRepair cacheEndsWithNewline
    split
    · next hend =>
      -- the last byte of a line that was cut is no line end
      have hnil : t = [] := by
        by_contra hne
        obtain ⟨u, c, rfl⟩ : ∃ u c, t = u ++ [c] :=
          ⟨t.dropLast, t.getLast hne, (List.dropLast_append_getLast hne).symm⟩
        have hlast : cut.getLast? = some c := by
          show (C ++ (A.flatMap ibolWriteRecord ++ (u ++ [c]))).getLast? = some c
          rw [← List.append_assoc, ← List.append_assoc, List.getLast?_concat]
        rw [hlast, Option.all_some, ht c (by simp)] at hend
        cases hend
      rw [if_pos hnil]
      show C ++ (A.flatMap ibolWriteRecord ++ t) ++ [] = _
      rw [hnil]
      simp
    · next hend =>
      have hne : t ≠ [] := by
        rintro rfl
        apply hend
        rw [Option.all_eq_true]
        intro c hc
        have hcut : cut = C ++ A.flatMap ibolWriteRecord := by
          show C ++ (A.flatMap ibolWriteRecord ++ []) = _
          rw [List.append_nil]
        rw [hcut] at hc
        rw [hwhole c hc]
        rfl
      rw [if_neg hne]
      show C ++ (A.flatMap ibolWriteRecord ++ t) ++ ['\n'] = _
      simp only [List.append_assoc]
  have hpart : WholeLines (if t = [] then [] else t ++ ['\n']) := by
    split
    · exact WholeLines.nil
    · exact WholeLines.line t
  have hread : cacheRecords (if t = [] then [] else t ++ ['\n']) =
      (ibolParseLine (t ++ ['\n'])).toOption.toList := by
    split
    · next hnil =>
      rw [hnil]
      rfl
    · exact cacheRecords_line ht
  rw [← List.append_assoc, hline, cacheRecords_append (hwhole.append hpart),
    cacheRecords_append hwhole, cacheRecords_append hC, cacheRecords_records hA, hread,
    cacheRecords_records hrs]
  simp only [List.append_assoc]

end Cut

/-! ## Recovery -/

/-- For each new message the cache holds the complete record of its `MSGID`: the one that was there
before, or else that of the first new message with it. -/
def Recovered (old new cache : List IbolRecord) : Prop :=
  ∀ r ∈ new, ∃ c ∈ cache, (old ++ new).find? (fun r' => r'.msgid = r.msgid) = some c

/-- The update is cut off in the text of a record, between two characters. -/
def TornText (rs : List IbolRecord) (k : Nat) : Prop :=
  ∃ A r B p, rs = A ++ r :: B ∧ p <+: r.text ∧ p ≠ r.text ∧
    (rs.flatMap ibolWriteRecord).take k = A.flatMap ibolWriteRecord ++ ibolLine { r with text := p }

/-- A line that is not torn in its text is whole, or no record is read from it. -/
theorem take_records_of_not_torn {rs : List IbolRecord} {k : Nat} (hrs : ∀ r ∈ rs, r.InMembers)
    (h : ¬ TornText rs k) :
    ∃ A q B t, rs = (A ++ q) ++ B ∧ (rs.flatMap ibolWriteRecord).take k = A.flatMap ibolWriteRecord ++ t ∧
      (∀ c ∈ t, isEol c = false) ∧ (ibolParseLine t).toOption.toList = q ∧
      (ibolParseLine (t ++ ['\n'])).toOption.toList = q := by
  obtain ⟨A, B, t, hsplit, htake, ht⟩ := take_records rs k
  rcases ht with rfl | ⟨r, B', rfl, ht⟩
  · exact ⟨A, [], B, [], by rw [List.append_nil, hsplit], htake, by simp, rfl, rfl⟩
  · have hr : r ∈ rs := by
      rw [hsplit]
      exact List.mem_append_right A List.mem_cons_self
    obtain ⟨hsame, hrec⟩ := parse_prefix (hrs r hr) ht
    have heol : ∀ c ∈ t, isEol c = false := fun c hc => isEol_of_mem_ibolLine (ht.subset hc)
    cases hparse : (ibolParseLine t).toOption with
    | none =>
      rw [hparse] at hsame
      exact ⟨A, [], r :: B', t, by rw [List.append_nil, hsplit], htake, heol, by rw [hparse]; rfl,
        by rw [← hsame]; rfl⟩
    | some r' =>
      obtain ⟨-, p, hp, rfl, htEq⟩ := hrec r' hparse
      have hall : p = r.text := by
        by_contra hne
        exact h ⟨A, r, B', p, hsplit, hp, hne, by rw [htake, htEq]⟩
      subst hall
      rw [hparse] at hsame
      exact ⟨A, [r], B', t, by rw [hsplit, List.append_assoc]; rfl, htake, heol, by rw [hparse]; rfl,
        by rw [← hsame]; rfl⟩

section Recovery

variable {old new rs cache : List IbolRecord} {ids : List CString}
  (hids : ∀ id, id ∈ ids ↔ id ∈ old.map (·.msgid)) (hrs : firsts (·.msgid) ids new = rs)

include hids hrs

/-- The record for a `MSGID` is one that was there, or one that an update writes. -/
theorem recovered_of_append (hcache : ∀ r, r ∈ cache ↔ r ∈ old ∨ r ∈ rs) : Recovered old new cache := by
  intro r hr
  obtain ⟨c, hc⟩ : ∃ c, (old ++ new).find? (fun r' => r'.msgid = r.msgid) = some c := by
    rw [← Option.isSome_iff_exists, List.find?_isSome]
    exact ⟨r, List.mem_append_right old hr, by simp⟩
  refine ⟨c, (hcache c).mpr ?_, hc⟩
  rw [List.find?_append] at hc
  rcases Option.or_eq_some_iff.mp hc with hold | ⟨hold, hnew⟩
  · exact Or.inl (List.mem_of_find?_eq_some hold)
  · have hkey : c.msgid = r.msgid := by simpa using List.find?_some hnew
    refine Or.inr (hrs ▸ mem_firsts.mpr ⟨fun hmem => ?_, by rw [hkey]; exact hnew⟩)
    obtain ⟨d, hd, hdkey⟩ := List.mem_map.mp ((hids _).mp hmem)
    have hne := List.find?_eq_none.mp hold d hd
    simp [hdkey, hkey] at hne

/-- Each record that an update writes is the complete one of its `MSGID`. -/
theorem mem_of_recovered (h : Recovered old new cache) {r : IbolRecord} (hr : r ∈ rs) : r ∈ cache := by
  rw [← hrs] at hr
  obtain ⟨hkey, hfind⟩ := mem_firsts.mp hr
  obtain ⟨c, hc, heq⟩ := h r (firsts_subset hr)
  have hold : old.find? (fun r' => r'.msgid = r.msgid) = none := by
    rw [List.find?_eq_none]
    intro d hd hdkey
    exact hkey ((hids _).mpr (List.mem_map.mpr ⟨d, hd, by simpa using hdkey⟩))
  rw [List.find?_append, hold, Option.none_or, hfind] at heq
  cases heq
  exact hc

end Recovery

/-- An update that was cut off is made good by the next one, exactly when it was not cut off in the
text of a record and no message that it had to write is from before 1970. -/
theorem update_recovers_iff (env : IbolEnv) (dir : List CString) (store : IbolStore)
    (hcache : WholeLines (store.cache.getD [])) {oldState : Nat} {ids : List CString}
    (hstart : updateStart store (collectMsgFiles dir) = some (oldState, ids))
    (hread : ∀ f ∈ newFiles dir oldState, (env.read f).isSome = true ∧ (env.mtime f).isSome = true)
    (k : Nat) :
    let new := fileRecords env (newFiles dir oldState)
    let rs := firsts (·.msgid) ids new
    let after := runImport .update env dir (interruptedUpdate env dir store k)
    after.2 = true ∧
      (Recovered (cacheRecords (store.cache.getD [])) new (cacheRecords (after.1.cache.getD [])) ↔
        ¬ TornText rs k ∧ ∀ r ∈ rs, 0 ≤ r.timestamp) := by
  intro new rs after
  set C := store.cache.getD [] with hCdef
  have hmembers : ∀ r ∈ new, r.InMembers := fun r hr => inMembers_of_mem_fileRecords hr
  have hrsmem : ∀ r ∈ rs, r.InMembers := fun r hr => hmembers r (firsts_subset hr)
  obtain ⟨hidsEq, hstart'⟩ := updateStart_eq hstart
  have hids : ∀ id, id ∈ ids ↔ id ∈ (cacheRecords C).map (·.msgid) := by
    rw [hidsEq]
    exact fun id => mem_loadCacheIds
  -- the update that is cut off, and the next one
  have hcut := interruptedUpdate_eq hcache hstart hread k
  set cut := C ++ (rs.flatMap ibolWriteRecord).take k with hcutDef
  set rs' := firsts (·.msgid) (loadCacheIds cut) new with hrs'
  have hafter : after = ({ cache := some (cut ++ (newlineRepair cut ++ rs'.flatMap ibolWriteRecord))
                           state := some (writeState (highestMsg (collectMsgFiles dir))) }, true) := by
    show runImport .update env dir (interruptedUpdate env dir store k) = _
    rw [hcut]
    exact runImport_update (hstart' cut) hread
  have hrs'mem : ∀ r ∈ rs', r.InMembers := fun r hr => hmembers r (firsts_subset hr)
  rw [hafter]
  refine ⟨rfl, ?_⟩
  show Recovered (cacheRecords C) new
    (cacheRecords (cut ++ (newlineRepair cut ++ rs'.flatMap ibolWriteRecord))) ↔ _
  constructor
  · intro h
    have hmem : ∀ r ∈ rs,
        r ∈ cacheRecords (cut ++ (newlineRepair cut ++ rs'.flatMap ibolWriteRecord)) :=
      fun r hr => mem_of_recovered hids rfl h hr
    have hpos : ∀ r ∈ rs, 0 ≤ r.timestamp := fun r hr => timestamp_of_mem_cacheRecords (hmem r hr)
    refine ⟨?_, hpos⟩
    rintro ⟨A, r, B, p, hsplit, hp, hne, htake⟩
    have hr : r ∈ rs := by
      rw [hsplit]
      exact List.mem_append_right A List.mem_cons_self
    have hA : ∀ a ∈ A, a.InMembers := fun a ha => hrsmem a (hsplit ▸ List.mem_append_left _ ha)
    have heol : ∀ c ∈ ibolLine { r with text := p }, isEol c = false := fun c hc =>
      isEol_of_mem_ibolLine hc
    have hfits : IbolRecord.Fits { r with text := p } :=
      ((hrsmem r hr).withText hp).fits (hpos r hr)
    have hend := ibolParseLine_line hfits eol_head
    have htail := ibolParseLine_line hfits (p := []) (by simp)
    rw [List.append_nil] at htail
    have hcutEq : cut = C ++ (A.flatMap ibolWriteRecord ++ ibolLine { r with text := p }) := by
      rw [hcutDef, htake]
    -- the torn record is taken for the message
    have hknown : r.msgid ∈ loadCacheIds cut := by
      rw [mem_loadCacheIds, hcutEq, cacheRecords_cut hcache hA heol, htail]
      exact List.mem_map.mpr ⟨{ r with text := p }, by simp [Except.toOption], rfl⟩
    have hfinal := hmem r hr
    rw [hcutEq, cacheRecords_repaired hcache hA heol hrs'mem, hend] at hfinal
    simp only [List.mem_append, List.mem_filter, Except.toOption, Option.toList_some,
      List.mem_singleton] at hfinal
    rcases hfinal with hold | ⟨hin, -⟩ | htext | ⟨hin, -⟩
    · exact (mem_firsts.mp hr).1 ((hids _).mpr (List.mem_map_of_mem hold))
    · -- one record of a MSGID only
      have hnodup : (rs.map (·.msgid)).Nodup := nodup_firsts
      rw [hsplit, List.map_append, List.map_cons, List.nodup_append] at hnodup
      exact hnodup.2.2 _ (List.mem_map_of_mem hin) _ List.mem_cons_self rfl
    · exact hne (congrArg IbolRecord.text htext).symm
    · exact (mem_firsts.mp hin).1 hknown
  · rintro ⟨htorn, hpos⟩
    obtain ⟨A, q, B, t, hsplit, htake, heol, hq, hqn⟩ := take_records_of_not_torn hrsmem htorn
    have hAsub : A ⊆ rs := by
      intro a ha
      rw [hsplit]
      exact List.mem_append_left B (List.mem_append_left q ha)
    have hBsub : B ⊆ rs := by
      intro b hb
      rw [hsplit]
      exact List.mem_append_right _ hb
    have hA : ∀ a ∈ A, a.InMembers := fun a ha => hrsmem a (hAsub ha)
    have hnonneg : ∀ l : List IbolRecord, l ⊆ rs → l.filter (fun r => decide (0 ≤ r.timestamp)) = l :=
      fun l hl => List.filter_eq_self.mpr fun r hr => decide_eq_true (hpos r (hl hr))
    have hcutEq : cut = C ++ (A.flatMap ibolWriteRecord ++ t) := by rw [hcutDef, htake]
    -- the next update writes the rest
    have hrest : rs' = B := by
      have hkeys : ∀ id, id ∈ loadCacheIds cut ↔ id ∈ ids ++ (A ++ q).map (·.msgid) := by
        intro id
        rw [mem_loadCacheIds, hcutEq, cacheRecords_cut hcache hA heol, hnonneg A hAsub, hq,
          List.map_append, List.mem_append, List.mem_append, hids]
      rw [hrs', firsts_congr hkeys]
      exact firsts_rest hsplit
    rw [hcutEq, cacheRecords_repaired hcache hA heol hrs'mem, hnonneg A hAsub, hqn, hrest,
      hnonneg B hBsub]
    apply @recovered_of_append _ _ rs _ _ hids rfl
    intro r
    rw [hsplit]
    simp only [List.mem_append, or_assoc]

/-! ## A short message -/

/-- A one-liner without a date. -/
def onelinerMsg (msgid body : CString) : FidoMsg :=
  { fromName := [], toName := "IBBS1LINE".toList, subject := [], date := [], chrs := [], msgid
    reply := [], tid := [], tzutc := [], rawBody := [], cleanBody := body }

/-- A directory whose files are the same message. -/
def onelinerEnv : IbolEnv where
  read _ := some (onelinerMsg "A".toList "Oneliner: hej\n".toList)
  mtime _ := some 1
  mktime _ := -1
  mtime_bounds := by
    rintro - t ⟨⟩
    decide
  mktime_bounds := by
    intro tm
    decide

theorem update_recovers_example :
    let after := runImport .update onelinerEnv ["1.msg".toList]
      (interruptedUpdate onelinerEnv ["1.msg".toList] ⟨none, none⟩ 4)
    let new := fileRecords onelinerEnv (newFiles ["1.msg".toList] 0)
    after.2 = true ∧ (Recovered [] new (cacheRecords (after.1.cache.getD [])) ↔
      ¬ TornText (firsts (·.msgid) [] new) 4 ∧ ∀ r ∈ firsts (·.msgid) [] new, 0 ≤ r.timestamp) :=
  update_recovers_iff onelinerEnv ["1.msg".toList] ⟨none, none⟩ WholeLines.nil (by decide +kernel)
    (fun _ _ => ⟨rfl, rfl⟩) 4

/-- Of `1:A:::hej` only `1:A:::he` was written, and that is what is left of the message. -/
theorem update_keeps_torn_text :
    ∃ (env : IbolEnv) (dir : List CString) (k : Nat),
      (∀ f, (env.read f).isSome = true) ∧ updateStart ⟨none, none⟩ (collectMsgFiles dir) = some (0, []) ∧
      ¬ Recovered [] (fileRecords env (newFiles dir 0))
        (cacheRecords ((runImport .update env dir
          (interruptedUpdate env dir ⟨none, none⟩ k)).1.cache.getD [])) := by
  refine ⟨onelinerEnv, ["1.msg".toList], 8, fun _ => rfl, by decide +kernel, ?_⟩
  have hnew : fileRecords onelinerEnv (newFiles ["1.msg".toList] 0) =
      [⟨1, "A".toList, [], [], "hej".toList⟩] := by decide +kernel
  have hcache : cacheRecords ((runImport .update onelinerEnv ["1.msg".toList]
      (interruptedUpdate onelinerEnv ["1.msg".toList] ⟨none, none⟩ 8)).1.cache.getD []) =
      [⟨1, "A".toList, [], [], "he".toList⟩] := by decide +kernel
  rw [hnew, hcache]
  intro h
  obtain ⟨c, hc, hfind⟩ := h _ List.mem_cons_self
  rw [List.mem_singleton] at hc
  subst hc
  exact absurd hfind (by decide)

end SklaffKom
