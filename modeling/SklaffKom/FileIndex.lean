import SklaffKom.Lib.Substrings
import SklaffKom.TextFile

/-!
# The file index of a conference

`.index` holds a line `name:description` for each file.  `cmd_describe` looks the name up entry by
entry, and then searches the whole index for the text `name:` to find the line that it replaces.
`rebuild_index_file` writes the index anew from the listing of the directory and the old index.
-/

open CString

namespace SklaffKom

structure FileEntry where
  name : CString
  desc : CString
deriving DecidableEq, Repr

/-- What a `LINE` holds, and the size of a `LONG_LINE`. -/
def lineMax : Nat := 79
def longLineSize : Nat := 159

def getFileEntry (buf : CString) : Option (FileEntry × CString) := do
  let sep ← strchr buf ':'
  let newline ← strchr sep '\n'
  let name := buf.take (buf.length - sep.length)
  let desc := sep.tail.take (sep.tail.length - newline.length)
  pure (⟨name.take lineMax, desc.take lineMax⟩, newline.dropWhile (· = '\n'))

/-- `while (buf) { buf = get_file_entry(buf, &fe); if (buf && !strcmp(fname, fe.name)) break; }` -/
def findFileEntry (fname : CString) : Nat → CString → Option FileEntry
  | 0, _ => none
  | fuel + 1, buf =>
    match getFileEntry buf with
    | none => none
    | some (fe, next) => if fname = fe.name then some fe else findFileEntry fname fuel next

/-- Where `cmd_describe` ends. -/
inductive Described where
  /-- a write past the end of `fname` -/
  | crash
  | cancelled
  /-- `MSG_BADFNAME` -/
  | badName
  /-- `MSG_BADFILE` -/
  | badFile
  | failed
  /-- what is written to the index -/
  | written (nbuf : CString)
deriving DecidableEq

/-- The characters that `cmd_describe` does not take in a name. -/
def wildName (fname : CString) : Bool := fname.any fun c => c ∈ ['/', '*', '[', ']', '?']

/-- The line that starts at `t` is replaced. -/
def spliceLine (oldbuf t newLine : CString) : CString :=
  let tail := match strchr t '\n' with
    | some lineEnd => lineEnd.tail
    | none => []
  oldbuf.take (oldbuf.length - t.length) ++ newLine ++ tail

/-- `cmd_describe` in a conference, with the name and the description that were typed. -/
def cmdDescribe (fileExists : CString → Bool) (fname newdesc oldbuf : CString) : Described :=
  if lineMax < fname.length then .crash
  else if fname = [] then .cancelled
  else if wildName fname then .badName
  else if fileExists fname = false then .badFile
  else if findFileEntry fname (oldbuf.length + 1) oldbuf = none then .badFile
  else if newdesc = [] then .cancelled
  else match strstr oldbuf (fname ++ [':']) with
    | none => .failed
    | some t =>
      let newLine := fname ++ ':' :: newdesc ++ ['\n']
      if 1024 ≤ newLine.length then .failed else .written (spliceLine oldbuf t newLine)

/-- What is written for a file of the listing; `none` is a write past the end of `outrec`. -/
def indexLine (oldbuf currfile : CString) : Option CString :=
  match findFileEntry currfile (oldbuf.length + 1) oldbuf with
  | some fe =>
    let outrec := currfile ++ ':' :: fe.desc ++ ['\n']
    if outrec.length < longLineSize then some outrec else none
  | none => some (currfile ++ [':', '\n'])

/-- The loop of `rebuild_index_file` over the output of `ls`; `none` is a write past the end of a
buffer. -/
def rebuildLoop (oldbuf : CString) : Nat → CString → Option CString
  | 0, _ => some []
  | fuel + 1, buf2 =>
    match strchr buf2 '\n' with
    | none => some []
    | some ptr => do
      let currfile := buf2.take (buf2.length - ptr.length)
      if lineMax < currfile.length then none
      else
        let outrec ← indexLine oldbuf currfile
        let rest ← rebuildLoop oldbuf fuel ptr.tail
        pure (outrec ++ rest)

/-- `rebuild_index_file`: the new index.  Without files the index is removed, and is empty here. -/
def rebuildIndexFile (listing oldbuf : CString) : Option CString :=
  rebuildLoop oldbuf (listing.length + 1) listing

/-! ## Lines -/

/-- Lines without the pattern are passed over. -/
theorem strstr_unlines {pat : CString} (hpat : '\n' ∉ pat) (hne : pat ≠ []) {ls : List CString}
    (h : ∀ l ∈ ls, ¬ pat <:+: l) (rest : CString) :
    strstr (unlines ls ++ rest) pat = strstr rest pat := by
  induction ls with
  | nil => rfl
  | cons l ls ih =>
    obtain ⟨hl, hls⟩ := List.forall_mem_cons.mp h
    rw [unlines_cons, List.append_assoc, List.cons_append, strstr_append_sep hpat hne (strstr_none hl),
      ih hls]

/-! ## Entries -/

/-- A name that a `LINE` holds, and a description. -/
structure FileEntry.Fits (e : FileEntry) : Prop where
  nonempty : e.name ≠ []
  name : ':' ∉ e.name ∧ '\n' ∉ e.name
  length : e.name.length ≤ lineMax
  desc : '\n' ∉ e.desc

def fileLine (e : FileEntry) : CString := e.name ++ ':' :: e.desc

def fileBytes (es : List FileEntry) : CString := unlines (es.map fileLine)

theorem fileBytes_cons (e : FileEntry) (es : List FileEntry) :
    fileBytes (e :: es) = fileLine e ++ '\n' :: fileBytes es := by
  unfold fileBytes
  rw [List.map_cons, unlines_cons]

theorem FileEntry.Fits.notMem {e : FileEntry} (h : e.Fits) : '\n' ∉ fileLine e := by
  unfold fileLine
  simp [h.name.2, h.desc]

theorem notMem_fileLines {es : List FileEntry} (h : ∀ e ∈ es, e.Fits) : ∀ l ∈ es.map fileLine, '\n' ∉ l := by
  intro l hl
  obtain ⟨e, he, rfl⟩ := List.mem_map.mp hl
  exact (h e he).notMem

theorem length_le_fileBytes (es : List FileEntry) : es.length ≤ (fileBytes es).length := by
  induction es with
  | nil => exact Nat.le_refl 0
  | cons e es ih =>
    rw [fileBytes_cons, List.length_append, List.length_cons, List.length_cons]
    omega

/-- The index does not begin with an empty line. -/
theorem dropWhile_fileBytes {es : List FileEntry} (h : ∀ e ∈ es, e.Fits) :
    (fileBytes es).dropWhile (· = '\n') = fileBytes es := by
  cases es with
  | nil => rfl
  | cons e es =>
    have he := h e List.mem_cons_self
    obtain ⟨c, name, hname⟩ := List.exists_cons_of_ne_nil he.nonempty
    have hc : c ≠ '\n' := fun hc => he.name.2 (by rw [hname, hc]; exact List.mem_cons_self)
    rw [fileBytes_cons, fileLine, hname, List.cons_append, List.cons_append,
      List.dropWhile_cons_of_neg (by simpa using hc)]

/-- `get_file_entry` reads the entry at the head of the index, with as much of the description as a
`LINE` holds. -/
theorem getFileEntry_bytes {e : FileEntry} {es : List FileEntry} (h : ∀ x ∈ e :: es, x.Fits) :
    getFileEntry (fileBytes (e :: es)) = some (⟨e.name, e.desc.take lineMax⟩, fileBytes es) := by
  obtain ⟨he, hes⟩ := List.forall_mem_cons.mp h
  have hbytes : fileBytes (e :: es) = e.name ++ ':' :: (e.desc ++ '\n' :: fileBytes es) := by
    rw [fileBytes_cons, fileLine, List.append_assoc, List.cons_append]
  have hsep : strchr (fileBytes (e :: es)) ':' = some (':' :: (e.desc ++ '\n' :: fileBytes es)) := by
    rw [hbytes]
    exact strchr_append he.name.1
  have hnl : strchr (':' :: (e.desc ++ '\n' :: fileBytes es)) '\n' = some ('\n' :: fileBytes es) := by
    rw [← List.cons_append]
    apply strchr_append
    simp [he.desc]
  have hdrop : ('\n' :: fileBytes es).dropWhile (· = '\n') = fileBytes es := by
    rw [List.dropWhile_cons_of_pos (by simp), dropWhile_fileBytes hes]
  unfold getFileEntry
  rw [hsep]
  dsimp only [Option.bind_eq_bind, Option.bind_some]
  rw [hnl]
  dsimp only [Option.bind_some, pure, List.tail_cons]
  rw [hdrop, hbytes, take_before, take_before, List.take_of_length_le he.length]

theorem getFileEntry_nil : getFileEntry (fileBytes []) = none := rfl

/-- The entry that is found is the one with the name. -/
theorem findFileEntry_bytes {es : List FileEntry} (h : ∀ e ∈ es, e.Fits) (fname : CString) (fuel : Nat)
    (hf : es.length < fuel) :
    findFileEntry fname fuel (fileBytes es) =
      (es.find? (·.name = fname)).map fun e => ⟨e.name, e.desc.take lineMax⟩ := by
  induction es generalizing fuel with
  | nil =>
    obtain ⟨fuel, rfl⟩ : ∃ k, fuel = k + 1 := ⟨fuel - 1, by simp at hf; omega⟩
    unfold findFileEntry
    rw [getFileEntry_nil]
    rfl
  | cons e es ih =>
    obtain ⟨fuel, rfl⟩ : ∃ k, fuel = k + 1 := ⟨fuel - 1, by simp at hf; omega⟩
    unfold findFileEntry
    rw [getFileEntry_bytes h]
    dsimp only
    by_cases hn : e.name = fname
    · rw [if_pos hn.symm, List.find?_cons_of_pos (by simpa using hn)]
      rfl
    · rw [if_neg fun hc => hn hc.symm, List.find?_cons_of_neg (by simpa using hn)]
      exact ih (List.forall_mem_cons.mp h).2 fuel (by simp at hf; omega)

theorem isSome_findFileEntry {es : List FileEntry} (h : ∀ e ∈ es, e.Fits) {e : FileEntry} (he : e ∈ es) :
    findFileEntry e.name ((fileBytes es).length + 1) (fileBytes es) ≠ none := by
  have hcount := length_le_fileBytes es
  rw [findFileEntry_bytes h _ _ (by omega)]
  intro hnone
  rw [Option.map_eq_none_iff, List.find?_eq_none] at hnone
  exact hnone e he (by simp)

/-! ## Describing a file -/

/-- The command takes the name, and there is such a file. -/
def Describable (fileExists : CString → Bool) (fname : CString) : Prop :=
  wildName fname = false ∧ fileExists fname = true

/-- The text that is searched for. -/
def namePattern (fname : CString) : CString := fname ++ [':']

/-- No line before that of the file holds the text `name:`; or the description stays the same, and
from where this text first occurs the line already reads like the new one. -/
def FoundFirst (as : List FileEntry) (e : FileEntry) (newdesc : CString) : Prop :=
  (∀ a ∈ as, ¬ namePattern e.name <:+: fileLine a) ∨
    e.desc = newdesc ∧ ∃ as1 a as2, as = as1 ++ a :: as2 ∧
      (∀ x ∈ as1, ¬ namePattern e.name <:+: fileLine x) ∧
      strstr (fileLine a) (namePattern e.name) = some (e.name ++ ':' :: newdesc)

theorem namePattern_ne_nil (fname : CString) : namePattern fname ≠ [] := by
  unfold namePattern
  simp

theorem newline_namePattern {e : FileEntry} (h : e.Fits) : '\n' ∉ namePattern e.name := by
  unfold namePattern
  simp [h.name.2]

theorem fileLine_begins (e : FileEntry) : namePattern e.name <+: fileLine e :=
  ⟨e.desc, by simp [namePattern, fileLine]⟩

/-- The line in which the text first occurs loses what stands behind it. -/
theorem spliceLine_unlines {ls1 ls2 : List CString} {p t : CString} (ht : '\n' ∉ t) (newLine : CString) :
    spliceLine (unlines (ls1 ++ (p ++ t) :: ls2)) (t ++ '\n' :: unlines ls2) (newLine ++ ['\n']) =
      unlines (ls1 ++ (p ++ newLine) :: ls2) := by
  have hbytes : unlines (ls1 ++ (p ++ t) :: ls2) = (unlines ls1 ++ p) ++ (t ++ '\n' :: unlines ls2) := by
    rw [unlines_append, unlines_cons]
    simp
  unfold spliceLine
  rw [strchr_append ht, hbytes, take_before, unlines_append, unlines_cons]
  simp

/-- What `cmd_describe` writes, when the text first occurs in the line `p ++ t`. -/
theorem cmdDescribe_lines {fileExists : CString → Bool} {es : List FileEntry} (hes : ∀ e ∈ es, e.Fits)
    {e : FileEntry} (he : e ∈ es) (hdesc : Describable fileExists e.name) {newdesc : CString}
    (hne : newdesc ≠ []) (hlen : newdesc.length ≤ 46) {ls1 ls2 : List CString} {p t : CString}
    (hlines : es.map fileLine = ls1 ++ (p ++ t) :: ls2)
    (hfirst : ∀ l ∈ ls1, ¬ namePattern e.name <:+: l)
    (hfound : strstr (p ++ t) (namePattern e.name) = some t) :
    cmdDescribe fileExists e.name newdesc (fileBytes es) =
      .written (unlines (ls1 ++ (p ++ (e.name ++ ':' :: newdesc)) :: ls2)) := by
  have hfits := hes e he
  have hname := hfits.length
  have hpt : '\n' ∉ p ++ t := notMem_fileLines hes _ (by rw [hlines]; simp)
  have ht : '\n' ∉ t := fun hm => hpt (List.mem_append_right _ hm)
  have hstr : strstr (fileBytes es) (e.name ++ [':']) = some (t ++ '\n' :: unlines ls2) := by
    have hpat := newline_namePattern hfits
    unfold fileBytes
    rw [hlines, unlines_append, unlines_cons]
    exact (strstr_unlines hpat (namePattern_ne_nil _) hfirst _).trans (strstr_append hfound _)
  unfold lineMax at hname
  have hnew : ¬ 1024 ≤ (e.name ++ ':' :: newdesc ++ ['\n']).length := by
    simp only [List.length_append, List.length_cons, List.length_nil]
    omega
  unfold cmdDescribe lineMax
  rw [if_neg (by omega), if_neg hfits.nonempty, if_neg (by simp [hdesc.1]), if_neg (by simp [hdesc.2]),
    if_neg (isSome_findFileEntry hes he), if_neg hne, hstr]
  dsimp only
  rw [if_neg hnew]
  congr 1
  unfold fileBytes
  rw [hlines]
  exact spliceLine_unlines ht _

/-- The index with the new description of one file. -/
def describedBytes (as : List FileEntry) (e : FileEntry) (newdesc : CString) (bs : List FileEntry) :
    CString :=
  fileBytes (as ++ { e with desc := newdesc } :: bs)

/-- The first line with the pattern. -/
theorem exists_first_line {pat : CString} {as : List FileEntry}
    (h : ¬ ∀ a ∈ as, ¬ pat <:+: fileLine a) :
    ∃ as1 a as2, as = as1 ++ a :: as2 ∧ (∀ x ∈ as1, ¬ pat <:+: fileLine x) ∧ pat <:+: fileLine a := by
  induction as with
  | nil => exact absurd (by simp) h
  | cons a as ih =>
    by_cases ha : pat <:+: fileLine a
    · exact ⟨[], a, as, rfl, by simp, ha⟩
    · have hrest : ¬ ∀ x ∈ as, ¬ pat <:+: fileLine x := fun hall =>
        h (List.forall_mem_cons.mpr ⟨ha, hall⟩)
      obtain ⟨as1, b, as2, rfl, hfirst, hb⟩ := ih hrest
      exact ⟨a :: as1, b, as2, rfl, List.forall_mem_cons.mpr ⟨ha, hfirst⟩, hb⟩

/-- Only a command that takes the name writes the index. -/
theorem describable_of_written {fileExists : CString → Bool} {fname newdesc oldbuf nbuf : CString}
    (h : cmdDescribe fileExists fname newdesc oldbuf = .written nbuf) : Describable fileExists fname := by
  unfold cmdDescribe at h
  by_cases hwild : wildName fname = true
  · rw [if_pos hwild] at h
    split at h
    · cases h
    · split at h <;> cases h
  · by_cases hexists : fileExists fname = false
    · rw [if_neg hwild, if_pos hexists] at h
      split at h
      · cases h
      · split at h <;> cases h
    · exact ⟨Bool.eq_false_iff.mpr hwild, by simpa using hexists⟩

/-- The line that is replaced is the file's own. -/
theorem cmdDescribe_own {fileExists : CString → Bool} {as bs : List FileEntry} {e : FileEntry}
    (hes : ∀ x ∈ as ++ e :: bs, x.Fits) (hdesc : Describable fileExists e.name) {newdesc : CString}
    (hne : newdesc ≠ []) (hlen : newdesc.length ≤ 46)
    (hfirst : ∀ a ∈ as, ¬ namePattern e.name <:+: fileLine a) :
    cmdDescribe fileExists e.name newdesc (fileBytes (as ++ e :: bs)) =
      .written (describedBytes as e newdesc bs) := by
  have hlines : (as ++ e :: bs).map fileLine = as.map fileLine ++ ([] ++ fileLine e) :: bs.map fileLine := by
    rw [List.map_append, List.map_cons, List.nil_append]
  have hwritten := cmdDescribe_lines hes (by simp) hdesc hne hlen hlines
    (List.forall_mem_map.mpr hfirst) (strstr_at_start (fileLine_begins e))
  rw [hwritten, describedBytes, fileBytes, List.map_append, List.map_cons, List.nil_append]
  rfl

/-- The line that is replaced is that of another file, from where the text occurs in it. -/
theorem cmdDescribe_other {fileExists : CString → Bool} {as1 as2 bs : List FileEntry} {a e : FileEntry}
    (hes : ∀ x ∈ as1 ++ a :: (as2 ++ e :: bs), x.Fits) (hdesc : Describable fileExists e.name)
    {newdesc : CString} (hne : newdesc ≠ []) (hlen : newdesc.length ≤ 46)
    (hfirst : ∀ x ∈ as1, ¬ namePattern e.name <:+: fileLine x) {p t : CString}
    (hline : fileLine a = p ++ t) (hfound : strstr (fileLine a) (namePattern e.name) = some t) :
    cmdDescribe fileExists e.name newdesc (fileBytes (as1 ++ a :: (as2 ++ e :: bs))) =
      .written (unlines (as1.map fileLine ++ (p ++ (e.name ++ ':' :: newdesc)) ::
        (as2 ++ e :: bs).map fileLine)) := by
  have hlines : (as1 ++ a :: (as2 ++ e :: bs)).map fileLine =
      as1.map fileLine ++ (p ++ t) :: (as2 ++ e :: bs).map fileLine := by
    rw [List.map_append, List.map_cons, hline]
  rw [hline] at hfound
  exact cmdDescribe_lines hes (by simp) hdesc hne hlen hlines (List.forall_mem_map.mpr hfirst) hfound

theorem fits_described {as bs : List FileEntry} {e : FileEntry} (hes : ∀ x ∈ as ++ e :: bs, x.Fits)
    {newdesc : CString} (hnl : '\n' ∉ newdesc) :
    ∀ x ∈ as ++ { e with desc := newdesc } :: bs, x.Fits := by
  intro x hx
  rcases List.mem_append.mp hx with hx | hx
  · exact hes x (List.mem_append_left _ hx)
  · rcases List.mem_cons.mp hx with rfl | hx
    · exact { hes e (by simp) with desc := hnl }
    · exact hes x (List.mem_append_right _ (List.mem_cons_of_mem _ hx))

/-- The command changes the line of the file, and no other, exactly when the text `name:` is not found
in another line first. -/
theorem cmdDescribe_iff {fileExists : CString → Bool} {as bs : List FileEntry} {e : FileEntry}
    (hes : ∀ x ∈ as ++ e :: bs, x.Fits) {newdesc : CString} (hne : newdesc ≠ [])
    (hlen : newdesc.length ≤ 46) (hnl : '\n' ∉ newdesc) :
    cmdDescribe fileExists e.name newdesc (fileBytes (as ++ e :: bs)) =
        .written (describedBytes as e newdesc bs) ↔
      Describable fileExists e.name ∧ FoundFirst as e newdesc := by
  have hfits : e.Fits := hes e (by simp)
  constructor
  · intro h
    have hdesc := describable_of_written h
    refine ⟨hdesc, ?_⟩
    by_cases hfirst : ∀ a ∈ as, ¬ namePattern e.name <:+: fileLine a
    · exact Or.inl hfirst
    · obtain ⟨as1, a, as2, rfl, hnone, ha⟩ := exists_first_line hfirst
      obtain ⟨t, ht⟩ := exists_strstr ha
      obtain ⟨-, p, hp⟩ := strstr_eq_some ht
      have hassoc : (as1 ++ a :: as2) ++ e :: bs = as1 ++ a :: (as2 ++ e :: bs) := by simp
      rw [hassoc] at hes h
      have hwritten := cmdDescribe_other hes hdesc hne hlen hnone hp ht
      have hlines : as1.map fileLine ++ (p ++ (e.name ++ ':' :: newdesc)) :: (as2 ++ e :: bs).map fileLine =
          as1.map fileLine ++ fileLine a :: (as2 ++ { e with desc := newdesc } :: bs).map fileLine := by
        apply unlines_inj
        · intro l hl
          rcases List.mem_append.mp hl with hl | hl
          · exact notMem_fileLines (fun x hx => hes x (by simp [hx])) l hl
          · rcases List.mem_cons.mp hl with rfl | hl
            · have ha : a.Fits := hes a (by simp)
              have hnp : '\n' ∉ p := fun hm => ha.notMem (by rw [hp]; exact List.mem_append_left _ hm)
              simp [hnp, hfits.name.2, hnl]
            · exact notMem_fileLines
                (fun x hx => hes x (List.mem_append_right _ (List.mem_cons_of_mem _ hx))) l hl
        · have hnew : ∀ x ∈ as1 ++ a :: (as2 ++ { e with desc := newdesc } :: bs), x.Fits := by
            have hall := @fits_described (as1 ++ a :: as2) bs e (by simpa using hes) newdesc hnl
            simpa using hall
          have hlines := notMem_fileLines hnew
          rw [List.map_append, List.map_cons] at hlines
          exact hlines
        · rw [h] at hwritten
          rw [← Described.written.inj hwritten]
          unfold describedBytes fileBytes
          simp
      obtain ⟨hhead, htail⟩ := List.cons.inj (List.append_cancel_left hlines)
      have ht' : t = e.name ++ ':' :: newdesc := by
        rw [hp] at hhead
        exact (List.append_cancel_left hhead).symm
      have hsame : e.desc = newdesc := by
        rw [List.map_append, List.map_append, List.map_cons, List.map_cons] at htail
        have hline := (List.cons.inj (List.append_cancel_left htail)).1
        exact (List.cons.inj (List.append_cancel_left hline)).2
      rw [ht'] at ht
      exact Or.inr ⟨hsame, as1, a, as2, rfl, hnone, ht⟩
  · intro ⟨hdesc, hfound⟩
    rcases hfound with hfirst | ⟨rfl, as1, a, as2, rfl, hnone, ht⟩
    · exact cmdDescribe_own hes hdesc hne hlen hfirst
    · obtain ⟨-, p, hp⟩ := strstr_eq_some ht
      have hassoc : (as1 ++ a :: as2) ++ e :: bs = as1 ++ a :: (as2 ++ e :: bs) := by simp
      rw [hassoc] at hes ⊢
      rw [cmdDescribe_other hes hdesc hne hlen hnone hp ht]
      unfold describedBytes fileBytes
      rw [← hp]
      simp

/-! ## Rebuilding the index -/

/-- The description that the old index gives for a file, as far as a `LINE` holds it. -/
def keptDesc (es : List FileEntry) (fname : CString) : CString :=
  ((es.find? (·.name = fname)).map fun e => e.desc.take lineMax).getD []

/-- The new index has a line for each file, and keeps the descriptions of the old one. -/
def KeepsDescriptions (listing : List CString) (es : List FileEntry) (index : Option CString) : Prop :=
  ∃ desc : CString → CString, (∀ f ∈ listing, '\n' ∉ desc f) ∧
    index = some (fileBytes (listing.map fun f => ⟨f, desc f⟩)) ∧
    ∀ e ∈ es, e.name ∈ listing → desc e.name = e.desc

/-- The names and descriptions fit the buffers of `rebuild_index_file`. -/
def Rebuildable (listing : List CString) (es : List FileEntry) : Prop :=
  (∀ f ∈ listing, f.length ≤ lineMax) ∧
    ∀ e ∈ es, e.name ∈ listing → e.desc.length ≤ lineMax ∧ e.name.length + e.desc.length ≤ 156

theorem find_of_nodup {es : List FileEntry} (hnodup : (es.map (·.name)).Nodup) {e : FileEntry} (he : e ∈ es) :
    es.find? (·.name = e.name) = some e := by
  induction es with
  | nil => cases he
  | cons a es ih =>
    rw [List.map_cons, List.nodup_cons] at hnodup
    rcases List.mem_cons.mp he with rfl | he
    · exact List.find?_cons_of_pos (by simp)
    · have hne : a.name ≠ e.name := fun hc => hnodup.1 (hc ▸ List.mem_map_of_mem he)
      rw [List.find?_cons_of_neg (by simpa using hne)]
      exact ih hnodup.2 he

theorem keptDesc_of_mem {es : List FileEntry} (hnodup : (es.map (·.name)).Nodup) {e : FileEntry}
    (he : e ∈ es) : keptDesc es e.name = e.desc.take lineMax := by
  unfold keptDesc
  rw [find_of_nodup hnodup he]
  rfl

theorem newline_keptDesc {es : List FileEntry} (hes : ∀ e ∈ es, e.Fits) (fname : CString) :
    '\n' ∉ keptDesc es fname := by
  unfold keptDesc
  cases hfind : es.find? (·.name = fname) with
  | none => simp
  | some e =>
    intro hmem
    exact (hes e (List.mem_of_find?_eq_some hfind)).desc (List.mem_of_mem_take hmem)

/-- What is written for a file. -/
theorem indexLine_bytes {es : List FileEntry} (hes : ∀ e ∈ es, e.Fits) (f : CString) :
    indexLine (fileBytes es) f =
      if f ∈ es.map (·.name) → f.length + (keptDesc es f).length ≤ 156 then
        some (fileLine ⟨f, keptDesc es f⟩ ++ ['\n'])
      else none := by
  have hcount := length_le_fileBytes es
  unfold indexLine keptDesc
  rw [findFileEntry_bytes hes f _ (by omega)]
  cases hfind : es.find? (·.name = f) with
  | none =>
    have hnot : f ∉ es.map (·.name) := by
      intro hmem
      obtain ⟨e, he, hname⟩ := List.mem_map.mp hmem
      exact List.find?_eq_none.mp hfind e he (by simpa using hname)
    rw [if_pos fun hmem => absurd hmem hnot]
    simp [fileLine]
  | some e =>
    have hmem : f ∈ es.map (·.name) := by
      have hname : e.name = f := by simpa using List.find?_some hfind
      rw [← hname]
      exact List.mem_map_of_mem (List.mem_of_find?_eq_some hfind)
    simp only [Option.map_some, Option.getD_some, fileLine, hmem, forall_const, longLineSize,
      List.length_append, List.length_cons, List.length_nil]
    by_cases hlen : f.length + (e.desc.take lineMax).length ≤ 156
    · rw [if_pos (by omega), if_pos hlen]
    · rw [if_neg (by omega), if_neg hlen]

/-- One round of the loop. -/
theorem rebuildLoop_line {oldbuf f rest : CString} (hf : '\n' ∉ f) (fuel : Nat) :
    rebuildLoop oldbuf (fuel + 1) (f ++ '\n' :: rest) =
      if lineMax < f.length then none
      else (indexLine oldbuf f).bind fun outrec => (rebuildLoop oldbuf fuel rest).map (outrec ++ ·) := by
  conv_lhs => unfold rebuildLoop
  rw [strchr_append hf]
  dsimp only
  rw [take_before, List.tail_cons]
  split
  · rfl
  · simp only [Option.map_eq_bind, Function.comp_def, Option.bind_eq_bind, Option.pure_def]

/-- The loop writes a line for each file when all of them fit. -/
theorem rebuildLoop_lines {oldbuf : CString} {desc : CString → CString} {listing : List CString}
    (hlist : ∀ f ∈ listing, '\n' ∉ f) (hfits : ∀ f ∈ listing, f.length ≤ lineMax)
    (hline : ∀ f ∈ listing, indexLine oldbuf f = some (fileLine ⟨f, desc f⟩ ++ ['\n'])) (fuel : Nat)
    (hfuel : listing.length < fuel) :
    rebuildLoop oldbuf fuel (unlines listing) = some (fileBytes (listing.map fun f => ⟨f, desc f⟩)) := by
  induction listing generalizing fuel with
  | nil =>
    obtain ⟨fuel, rfl⟩ : ∃ k, fuel = k + 1 := ⟨fuel - 1, by simp at hfuel; omega⟩
    rfl
  | cons f listing ih =>
    obtain ⟨fuel, rfl⟩ : ∃ k, fuel = k + 1 := ⟨fuel - 1, by simp at hfuel; omega⟩
    obtain ⟨hf, hlist⟩ := List.forall_mem_cons.mp hlist
    obtain ⟨hfit, hfits⟩ := List.forall_mem_cons.mp hfits
    obtain ⟨hfline, hline⟩ := List.forall_mem_cons.mp hline
    rw [unlines_cons, rebuildLoop_line hf, if_neg (by omega), hfline,
      ih hlist hfits hline fuel (by simp at hfuel; omega), List.map_cons, fileBytes_cons]
    simp

/-- A loop that ends has found room for the line of each file. -/
theorem rebuildLoop_some {oldbuf : CString} {listing : List CString} (hlist : ∀ f ∈ listing, '\n' ∉ f)
    {fuel : Nat} (hfuel : listing.length < fuel) {r : CString}
    (h : rebuildLoop oldbuf fuel (unlines listing) = some r) :
    ∀ f ∈ listing, f.length ≤ lineMax ∧ ∃ l, indexLine oldbuf f = some l := by
  induction listing generalizing fuel r with
  | nil => simp
  | cons f listing ih =>
    obtain ⟨fuel, rfl⟩ : ∃ k, fuel = k + 1 := ⟨fuel - 1, by simp at hfuel; omega⟩
    obtain ⟨hf, hlist⟩ := List.forall_mem_cons.mp hlist
    rw [unlines_cons, rebuildLoop_line hf] at h
    split at h
    · cases h
    · next hlen =>
      obtain ⟨l, hl, h⟩ := Option.bind_eq_some_iff.mp h
      obtain ⟨rest, hrest, -⟩ := Option.map_eq_some_iff.mp h
      exact List.forall_mem_cons.mpr
        ⟨⟨by omega, l, hl⟩, ih hlist (by simp at hfuel; omega) hrest⟩

/-- The lines of an index tell the descriptions. -/
theorem desc_unique {listing : List CString} (hlist : ∀ f ∈ listing, '\n' ∉ f)
    {desc desc' : CString → CString} (hdesc : ∀ f ∈ listing, '\n' ∉ desc f)
    (hdesc' : ∀ f ∈ listing, '\n' ∉ desc' f)
    (h : fileBytes (listing.map fun f => ⟨f, desc f⟩) = fileBytes (listing.map fun f => ⟨f, desc' f⟩)) :
    ∀ f ∈ listing, desc f = desc' f := by
  have hlines : ∀ d : CString → CString, (∀ f ∈ listing, '\n' ∉ d f) →
      ∀ l ∈ (listing.map fun f => (⟨f, d f⟩ : FileEntry)).map fileLine, '\n' ∉ l := by
    intro d hd l hl
    rw [List.map_map, List.mem_map] at hl
    obtain ⟨f, hf, rfl⟩ := hl
    simp [fileLine, hlist f hf, hd f hf]
  have hmap := unlines_inj (hlines desc hdesc) (hlines desc' hdesc') h
  rw [List.map_map, List.map_map, List.map_inj_left] at hmap
  intro f hf
  have hline : f ++ ':' :: desc f = f ++ ':' :: desc' f := hmap f hf
  exact (List.cons.inj (List.append_cancel_left hline)).2

/-- The descriptions are kept exactly when names and descriptions fit. -/
theorem rebuildIndexFile_iff {es : List FileEntry} (hes : ∀ e ∈ es, e.Fits)
    (hnodup : (es.map (·.name)).Nodup) {listing : List CString} (hlist : ∀ f ∈ listing, '\n' ∉ f) :
    KeepsDescriptions listing es (rebuildIndexFile (unlines listing) (fileBytes es)) ↔
      Rebuildable listing es := by
  have hfuel := Nat.lt_succ_of_le (length_le_unlines listing)
  constructor
  · intro ⟨desc, hdesc, hindex, hkept⟩
    have hroom := rebuildLoop_some hlist hfuel hindex
    have hroom' : ∀ f ∈ listing, f ∈ es.map (·.name) → f.length + (keptDesc es f).length ≤ 156 := by
      intro f hf
      obtain ⟨-, l, hl⟩ := hroom f hf
      rw [indexLine_bytes hes] at hl
      by_contra hno
      rw [if_neg hno] at hl
      cases hl
    have hline : ∀ f ∈ listing,
        indexLine (fileBytes es) f = some (fileLine ⟨f, keptDesc es f⟩ ++ ['\n']) := by
      intro f hf
      rw [indexLine_bytes hes, if_pos (hroom' f hf)]
    have hbytes := rebuildLoop_lines hlist (fun f hf => (hroom f hf).1) hline _ hfuel
    have hsame := desc_unique hlist (fun f _ => newline_keptDesc hes f) hdesc
      (Option.some.inj (hbytes.symm.trans hindex))
    refine ⟨fun f hf => (hroom f hf).1, fun e he hmem => ?_⟩
    have hcut := hsame e.name hmem
    rw [keptDesc_of_mem hnodup he, hkept e he hmem] at hcut
    have hlen := hroom' e.name hmem (List.mem_map_of_mem he)
    rw [keptDesc_of_mem hnodup he, hcut] at hlen
    refine ⟨?_, hlen⟩
    rw [← hcut, List.length_take]
    omega
  · intro ⟨hnames, hdescs⟩
    have hline : ∀ f ∈ listing,
        indexLine (fileBytes es) f = some (fileLine ⟨f, keptDesc es f⟩ ++ ['\n']) := by
      intro f hf
      rw [indexLine_bytes hes, if_pos]
      intro hmem
      obtain ⟨e, he, rfl⟩ := List.mem_map.mp hmem
      have hsize := hdescs e he hf
      rw [keptDesc_of_mem hnodup he, List.take_of_length_le hsize.1]
      exact hsize.2
    refine ⟨keptDesc es, fun f _ => newline_keptDesc hes f,
      rebuildLoop_lines hlist hnames hline _ hfuel, fun e he hmem => ?_⟩
    rw [keptDesc_of_mem hnodup he, List.take_of_length_le (hdescs e he hmem).1]

/-- The command changes the line of the file and no other, and an index that is then rebuilt keeps the
descriptions. -/
def DescribesOne (fileExists : CString → Bool) (listing : List CString) (as : List FileEntry) (e : FileEntry)
    (newdesc : CString) (bs : List FileEntry) : Prop :=
  cmdDescribe fileExists e.name newdesc (fileBytes (as ++ e :: bs)) =
      .written (describedBytes as e newdesc bs) ∧
    KeepsDescriptions listing (as ++ { e with desc := newdesc } :: bs)
      (rebuildIndexFile (unlines listing) (describedBytes as e newdesc bs))

/-- Describing a file changes one entry exactly when the command finds the line of the file first. -/
theorem describesOne_iff {as bs : List FileEntry} {e : FileEntry} (hes : ∀ x ∈ as ++ e :: bs, x.Fits)
    (hnodup : ((as ++ e :: bs).map (·.name)).Nodup) {newdesc : CString} (hne : newdesc ≠ [])
    (hlen : newdesc.length ≤ 46) (hnl : '\n' ∉ newdesc) {listing : List CString}
    (hlist : ∀ f ∈ listing, '\n' ∉ f) (fileExists : CString → Bool) :
    DescribesOne fileExists listing as e newdesc bs ↔
      (Describable fileExists e.name ∧ FoundFirst as e newdesc) ∧
        Rebuildable listing (as ++ { e with desc := newdesc } :: bs) := by
  have hnodup' : ((as ++ { e with desc := newdesc } :: bs).map (·.name)).Nodup := by
    rw [List.map_append, List.map_cons] at hnodup ⊢
    exact hnodup
  unfold DescribesOne
  rw [cmdDescribe_iff hes hne hlen hnl]
  exact and_congr_right fun _ => rebuildIndexFile_iff (fits_described hes hnl) hnodup' hlist

theorem describesOne_readme :
    DescribesOne (fun _ => true) ["map.txt".toList, "new.txt".toList, "read.me".toList]
      [⟨"map.txt".toList, "Roads".toList⟩] ⟨"read.me".toList, "Old".toList⟩ "Read first".toList
      [⟨"gone.txt".toList, []⟩] := by
  refine (describesOne_iff ?_ (by decide) (by decide) (by decide) (by decide) (by decide +kernel)
    (fun _ => true)).mpr
      ⟨⟨⟨by decide, rfl⟩, .inl (by decide +kernel)⟩, by decide +kernel, by decide +kernel⟩
  intro x hx
  simp only [List.cons_append, List.nil_append, List.mem_cons, List.not_mem_nil, or_false] at hx
  rcases hx with rfl | rfl | rfl
  · exact ⟨by decide, by decide, by decide, by decide⟩
  · exact ⟨by decide, by decide, by decide, by decide⟩
  · exact ⟨by decide, by decide, by decide, by decide⟩

/-- A name that is the end of another name: the other file gets the description. -/
theorem describe_changes_other :
    ∃ fileExists listing as e newdesc bs, (∀ x ∈ as ++ e :: bs, FileEntry.Fits x) ∧
      ((as ++ e :: bs).map (·.name)).Nodup ∧ newdesc ≠ [] ∧ newdesc.length ≤ 46 ∧ '\n' ∉ newdesc ∧
      (∀ f ∈ listing, '\n' ∉ f) ∧ Describable fileExists e.name ∧
      cmdDescribe fileExists e.name newdesc (fileBytes (as ++ e :: bs)) =
        .written "roadmap.txt:Plan\nmap.txt:Old\n".toList ∧
      ¬ DescribesOne fileExists listing as e newdesc bs := by
  have hwritten : cmdDescribe (fun _ => true) "map.txt".toList "Plan".toList
      (fileBytes [⟨"roadmap.txt".toList, "Roads".toList⟩, ⟨"map.txt".toList, "Old".toList⟩]) =
        .written "roadmap.txt:Plan\nmap.txt:Old\n".toList := by decide +kernel
  refine ⟨fun _ => true, [], [⟨"roadmap.txt".toList, "Roads".toList⟩], ⟨"map.txt".toList, "Old".toList⟩,
    "Plan".toList, [], ?_, by decide, by decide, by decide, by decide, by simp, ⟨by decide, rfl⟩, hwritten, ?_⟩
  · intro x hx
    rcases List.mem_append.mp hx with hx | hx
    · rw [List.mem_singleton] at hx
      subst hx
      exact ⟨by decide, by decide, by decide, by decide⟩
    · rw [List.mem_singleton] at hx
      subst hx
      exact ⟨by decide, by decide, by decide, by decide⟩
  · intro h
    have hsame := h.1.symm.trans hwritten
    revert hsame
    decide +kernel

end SklaffKom
