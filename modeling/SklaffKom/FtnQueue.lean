import SklaffKom.Stdio
import SklaffKom.ConfFile

/-!
# Jobs for the export runner

Netmail and oneliners wait in files for the runner.  A job file has a line `KEY: value` for each
field, an empty line, and the text.
-/

open CString

namespace SklaffKom

/-! ## Writing -/

def isSafeFtnQueueHeaderValue (s : CString) : Bool := s.all fun c => !isEol c

/-- The arguments of `queue_ftn_netmail_reply`; `none` is a null pointer. -/
structure NetmailCall where
  fromuid : Int
  toname : CString
  toaddr : CString
  subject : Option CString
  body : CString
  reply : Option CString
deriving DecidableEq

/-- The body with the line end that is added when it is missing; an empty body stays empty. -/
def closeBody (body : CString) : CString :=
  if body ≠ [] ∧ body.getLast? ≠ some '\n' then body ++ ['\n'] else body

def jobLine (key value : CString) : CString := key ++ ' ' :: value

/-- The job file of `queue_ftn_netmail_reply`; `none` is a call that is refused. -/
def NetmailCall.file (c : NetmailCall) (now : Int) : Option CString :=
  let subject := c.subject.getD []
  let reply := c.reply.getD []
  if c.fromuid ≤ 0 ∨ c.toname = [] ∨ c.toaddr = [] then none
  else if !isSafeFtnQueueHeaderValue c.toname || !isSafeFtnQueueHeaderValue c.toaddr ||
      !isSafeFtnQueueHeaderValue subject || !isSafeFtnQueueHeaderValue reply then none
  else
    some (jobLine "TYPE:".toList "NETMAIL".toList ++ '\n' ::
      (jobLine "FROMUID:".toList (decimal c.fromuid) ++ '\n' ::
      (jobLine "TONAME:".toList c.toname ++ '\n' ::
      (jobLine "TOADDR:".toList c.toaddr ++ '\n' ::
      (jobLine "SUBJECT:".toList subject ++ '\n' ::
      (jobLine "REPLY:".toList reply ++ '\n' ::
      (jobLine "CREATED:".toList (decimal now) ++ '\n' :: ('\n' :: closeBody c.body))))))))

def ibolOnelinerMax : Nat := 65

/-- The arguments of `queue_ibol_oneliner`. -/
structure IbolCall where
  fromuid : Int
  author : CString
  text : CString
deriving DecidableEq

/-- The job file of `queue_ibol_oneliner`; `none` is a call that is refused. -/
def IbolCall.file (c : IbolCall) (now : Int) : Option CString :=
  if c.fromuid ≤ 0 ∨ c.author = [] ∨ c.text = [] then none
  else if c.text.length > ibolOnelinerMax then none
  else if !isSafeFtnQueueHeaderValue c.author || !isSafeFtnQueueHeaderValue c.text then none
  else
    some (jobLine "TYPE:".toList "IBOL".toList ++ '\n' ::
      (jobLine "FROMUID:".toList (decimal c.fromuid) ++ '\n' ::
      (jobLine "AUTHOR:".toList c.author ++ '\n' ::
      (jobLine "CREATED:".toList (decimal now) ++ '\n' :: ('\n' :: (c.text ++ ['\n']))))))

/-! ## Reading -/

/-- The value of a header line: what stands behind the key and the blanks after it. -/
def jobValue (key line : CString) : CString := (line.drop key.length).dropWhile isBlank

structure NetmailJob where
  fromuid : Int
  toname : CString
  toaddr : CString
  subject : CString
  reply : CString
  created : Int
  body : CString
deriving DecidableEq, Repr

/-- A header line in `read_netmail_job`; `none` is a job of another type. -/
def netmailHeader (job : NetmailJob) (line : CString) : Option NetmailJob :=
  if "TYPE:".toList.isPrefixOf line then
    if jobValue "TYPE:".toList line = "NETMAIL".toList then some job else none
  else if "FROMUID:".toList.isPrefixOf line then
    some { job with fromuid := atol (jobValue "FROMUID:".toList line) }
  else if "TONAME:".toList.isPrefixOf line then
    some { job with toname := strlcpy 128 (jobValue "TONAME:".toList line) }
  else if "TOADDR:".toList.isPrefixOf line then
    some { job with toaddr := strlcpy 64 (jobValue "TOADDR:".toList line) }
  else if "SUBJECT:".toList.isPrefixOf line then
    some { job with subject := strlcpy 128 (jobValue "SUBJECT:".toList line) }
  else if "REPLY:".toList.isPrefixOf line then
    some { job with reply := strlcpy 128 (jobValue "REPLY:".toList line) }
  else if "CREATED:".toList.isPrefixOf line then
    some { job with created := atol (jobValue "CREATED:".toList line) }
  else some job

def readNetmailLines : List CString → Bool → NetmailJob → Option NetmailJob
  | [], _, job => some job
  | line :: lines, true, job => readNetmailLines lines true { job with body := job.body ++ line }
  | line :: lines, false, job =>
    if stripEol line = [] then readNetmailLines lines true job
    else
      match netmailHeader job (stripEol line) with
      | none => none
      | some job => readNetmailLines lines false job

def jobLineMax : Nat := 1024

def readNetmailJob (file : Option CString) : Option NetmailJob := do
  let job ← readNetmailLines (fileLines jobLineMax (← file)) false ⟨0, [], [], [], [], 0, []⟩
  if job.fromuid ≤ 0 ∨ job.toname = [] ∨ job.toaddr = [] then none else pure job

structure IbolJob where
  fromuid : Int
  author : CString
  created : Int
  text : CString
deriving DecidableEq, Repr

/-- What `read_ibol_job` has seen so far. -/
structure IbolRead where
  inBody : Bool
  seenType : Bool
  seenText : Bool
  job : IbolJob

/-- A header line in `read_ibol_job`. -/
def ibolHeader (s : IbolRead) (line : CString) : Option IbolRead :=
  if "TYPE:".toList.isPrefixOf line then
    if jobValue "TYPE:".toList line = "IBOL".toList then some { s with seenType := true } else none
  else if "FROMUID:".toList.isPrefixOf line then
    some { s with job := { s.job with fromuid := atol (jobValue "FROMUID:".toList line) } }
  else if "AUTHOR:".toList.isPrefixOf line then
    some { s with job := { s.job with author := strlcpy 128 (jobValue "AUTHOR:".toList line) } }
  else if "CREATED:".toList.isPrefixOf line then
    some { s with job := { s.job with created := atol (jobValue "CREATED:".toList line) } }
  else some s

/-- A line in `read_ibol_job`. -/
def ibolLineStep (s : IbolRead) (line : CString) : Option IbolRead :=
  let line := stripEol line
  if s.inBody then
    if line = [] then some s
    -- a second line of text, or one that is too long
    else if s.seenText || line.length > ibolOnelinerMax then none
    else some { s with seenText := true, job := { s.job with text := strlcpy (ibolOnelinerMax + 1) line } }
  else if line = [] then some { s with inBody := true }
  else ibolHeader s line

def readIbolJob (file : Option CString) : Option IbolJob := do
  let s ← (fileLines jobLineMax (← file)).foldlM ibolLineStep ⟨false, false, false, ⟨0, [], 0, []⟩⟩
  if !s.seenType || s.job.fromuid ≤ 0 || s.job.author = [] || s.job.created ≤ 0 || !s.seenText ||
      s.job.text = [] then none
  else pure s.job

/-! ## Reading back what was written -/

theorem isPrefixOf_jobLine_self (key value : CString) :
    key.isPrefixOf (jobLine key value) = true :=
  List.isPrefixOf_iff_prefix.mpr (List.prefix_append key _)

theorem isPrefixOf_jobLine_other {a b : CString} (hab : a.isPrefixOf b = false)
    (hba : b.isPrefixOf a = false) (value : CString) : a.isPrefixOf (jobLine b value) = false := by
  rw [Bool.eq_false_iff, ne_eq, List.isPrefixOf_iff_prefix] at *
  intro h
  rcases List.prefix_or_prefix_of_prefix h (List.prefix_append b _) with h | h
  · exact hab h
  · exact hba h

/-- The value of a line that was written for it. -/
theorem jobValue_jobLine (key : CString) {value : CString}
    (hv : ∀ c ∈ value.head?, isBlank c = false) : jobValue key (jobLine key value) = value := by
  unfold jobValue jobLine
  rw [List.drop_left, List.dropWhile_cons_of_pos (by decide)]
  cases value with
  | nil => rfl
  | cons c t => exact List.dropWhile_cons_of_neg (by simp [hv c rfl])

/-- A value that fits a field of a job and does not begin with a blank. -/
structure FitsField (size : Nat) (value : CString) : Prop where
  length : value.length < size
  head : ∀ c ∈ value.head?, isBlank c = false

/-- No blank at the start, as a test. -/
theorem head_of_all {value : CString} (h : value.head?.all (fun c => !isBlank c) = true) :
    ∀ c ∈ value.head?, isBlank c = false := by
  intro c hc
  rw [Option.mem_def] at hc
  rw [hc] at h
  simpa using h

/-- A value that comes back from its line. -/
structure Fits (size : Nat) (value : CString) : Prop extends FitsField size value where
  safe : isSafeFtnQueueHeaderValue value = true

theorem isEol_of_safe {value : CString} (h : isSafeFtnQueueHeaderValue value = true) {c : Char}
    (hc : c ∈ value) : isEol c = false := by
  simpa using List.all_eq_true.mp h c hc

theorem FitsField.strlcpy {size : Nat} {value : CString} (h : FitsField size value) :
    SklaffKom.strlcpy size value = value :=
  List.take_of_length_le (Nat.le_sub_one_of_lt h.length)

/-- A key of a job file. -/
structure IsKey (key : CString) : Prop where
  length : key.length ≤ 8
  safe : ∀ c ∈ key, isEol c = false

theorem isKey_of_all {key : CString} (hlen : key.length ≤ 8)
    (hsafe : key.all (fun c => !isEol c) = true) : IsKey key :=
  ⟨hlen, fun c hc => by simpa using List.all_eq_true.mp hsafe c hc⟩

theorem stripEol_jobLine {size : Nat} {key value : CString} (hk : IsKey key) (hs : size ≤ 128)
    (hv : Fits size value) :
    (∀ rest, fileLines jobLineMax (jobLine key value ++ '\n' :: rest) =
      (jobLine key value ++ ['\n']) :: fileLines jobLineMax rest) ∧
    stripEol (jobLine key value ++ ['\n']) = jobLine key value := by
  have hsafe : ∀ c ∈ jobLine key value, isEol c = false := by
    intro c hc
    unfold jobLine at hc
    rw [List.mem_append, List.mem_cons] at hc
    rcases hc with hc | rfl | hc
    · exact hk.safe c hc
    · rfl
    · exact isEol_of_safe hv.safe hc
  refine ⟨fun rest => fileLines_line (fun h => ?_) ?_, stripEol_line hsafe⟩
  · have := hsafe _ h
    revert this
    decide
  · have h1 := hk.length
    have h2 := hv.length
    unfold jobLine jobLineMax
    rw [List.length_append, List.length_cons]
    omega

theorem fits_decimal {n : Int} (hn : n.natAbs ≤ longMax) : Fits 128 (decimal n) where
  length := Nat.lt_of_le_of_lt (length_decimal_long hn) (by decide)
  head := by
    intro c hc
    have hmem := List.mem_of_mem_head? hc
    rw [Bool.eq_false_iff]
    intro hb
    unfold isBlank at hb
    rw [Bool.or_eq_true, decide_eq_true_eq, decide_eq_true_eq] at hb
    rcases hb with rfl | rfl <;> exact notMem_decimal (by decide) (by decide) hmem
  safe := by
    refine List.all_eq_true.mpr fun c hc => ?_
    rw [Bool.not_eq_true', Bool.eq_false_iff]
    intro he
    unfold isEol at he
    rw [Bool.or_eq_true, decide_eq_true_eq, decide_eq_true_eq] at he
    rcases he with rfl | rfl <;> exact notMem_decimal (by decide) (by decide) hc

theorem jobLine_ne_nil (key value : CString) : jobLine key value ≠ [] := by simp [jobLine]

theorem atol_decimal_end (n : Int) : atol (decimal n) = n := by
  have h := atol_decimal n noDigit_nil
  rwa [List.append_nil] at h

/-- The empty line between the header and the text. -/
theorem fileLines_blank (rest : CString) :
    fileLines jobLineMax ('\n' :: rest) = ['\n'] :: fileLines jobLineMax rest :=
  fileLines_line (l := []) (by simp) (by decide)

/-! ## Netmail -/

theorem readNetmailLines_body (lines : List CString) (job : NetmailJob) :
    readNetmailLines lines true job = some { job with body := job.body ++ lines.flatten } := by
  induction lines generalizing job with
  | nil => rw [readNetmailLines, List.flatten_nil, List.append_nil]
  | cons line lines ih => rw [readNetmailLines, ih, List.flatten_cons, List.append_assoc]

theorem readNetmailLines_header {size : Nat} {key value : CString} {job job' : NetmailJob}
    (hk : IsKey key) (hs : size ≤ 128) (hv : Fits size value)
    (hstep : netmailHeader job (jobLine key value) = some job') (rest : CString) :
    readNetmailLines (fileLines jobLineMax (jobLine key value ++ '\n' :: rest)) false job =
      readNetmailLines (fileLines jobLineMax rest) false job' := by
  obtain ⟨hlines, hstrip⟩ := stripEol_jobLine hk hs hv
  rw [hlines, readNetmailLines, hstrip, if_neg (jobLine_ne_nil key value), hstep]

theorem readNetmailLines_blank (body : CString) (job : NetmailJob) :
    readNetmailLines (fileLines jobLineMax ('\n' :: body)) false job =
      some { job with body := job.body ++ body } := by
  rw [fileLines_blank, readNetmailLines, if_pos (by decide), readNetmailLines_body,
    flatten_fileLines (by decide)]

section NetmailHeader

variable {job : NetmailJob} {value : CString} (hv : ∀ c ∈ value.head?, isBlank c = false)

theorem netmailHeader_type :
    netmailHeader job (jobLine "TYPE:".toList "NETMAIL".toList) = some job := by
  unfold netmailHeader
  rw [if_pos (isPrefixOf_jobLine_self _ _), jobValue_jobLine _ (head_of_all (by decide)), if_pos rfl]

include hv

/-- The other fields. -/
theorem netmailHeader_fields :
    (netmailHeader job (jobLine "FROMUID:".toList value) = some { job with fromuid := atol value } ∧
      netmailHeader job (jobLine "TONAME:".toList value) =
        some { job with toname := strlcpy 128 value } ∧
      netmailHeader job (jobLine "TOADDR:".toList value) =
        some { job with toaddr := strlcpy 64 value }) ∧
    netmailHeader job (jobLine "SUBJECT:".toList value) =
      some { job with subject := strlcpy 128 value } ∧
    netmailHeader job (jobLine "REPLY:".toList value) = some { job with reply := strlcpy 128 value } ∧
    netmailHeader job (jobLine "CREATED:".toList value) = some { job with created := atol value } := by
  refine ⟨⟨?_, ?_, ?_⟩, ?_, ?_, ?_⟩
  all_goals
    simp (disch := decide) only [netmailHeader, isPrefixOf_jobLine_other, isPrefixOf_jobLine_self,
      jobValue_jobLine _ hv, Bool.false_eq_true, if_false, if_true]

end NetmailHeader

/-- What the members of `struct netmail_job` and the C types ask of a call. -/
structure NetmailCall.FitsJob (c : NetmailCall) : Prop where
  fromuid : c.fromuid.natAbs ≤ longMax
  toname : FitsField 128 c.toname
  toaddr : FitsField 64 c.toaddr
  subject : FitsField 128 (c.subject.getD [])
  reply : FitsField 128 (c.reply.getD [])

def NetmailCall.job (c : NetmailCall) (now : Int) : NetmailJob where
  fromuid := c.fromuid
  toname := c.toname
  toaddr := c.toaddr
  subject := c.subject.getD []
  reply := c.reply.getD []
  created := now
  body := closeBody c.body

theorem NetmailCall.file_eq_some {c : NetmailCall} {now : Int} {file : CString}
    (h : c.file now = some file) :
    (0 < c.fromuid ∧ c.toname ≠ [] ∧ c.toaddr ≠ []) ∧
      (isSafeFtnQueueHeaderValue c.toname = true ∧ isSafeFtnQueueHeaderValue c.toaddr = true ∧
        isSafeFtnQueueHeaderValue (c.subject.getD []) = true ∧
        isSafeFtnQueueHeaderValue (c.reply.getD []) = true) := by
  unfold NetmailCall.file at h
  dsimp only at h
  split at h
  · cases h
  · next hcall =>
    split at h
    · cases h
    · next hsafe =>
      simp only [not_or, Int.not_le] at hcall
      simp only [Bool.or_eq_true, Bool.not_eq_true', not_or, Bool.not_eq_false] at hsafe
      exact ⟨hcall, hsafe.1.1.1, hsafe.1.1.2, hsafe.1.2, hsafe.2⟩

theorem readNetmailJob_file {c : NetmailCall} {now : Int} {file : CString}
    (h : c.file now = some file) (hf : c.FitsJob) (hnow : now.natAbs ≤ longMax) :
    readNetmailJob (some file) = some (c.job now) := by
  obtain ⟨⟨h0, hname, haddr⟩, hsafe1, hsafe2, hsafe3, hsafe4⟩ := NetmailCall.file_eq_some h
  have hread : readNetmailLines (fileLines jobLineMax file) false ⟨0, [], [], [], [], 0, []⟩ =
      some (c.job now) := by
    unfold NetmailCall.file at h
    dsimp only at h
    rw [if_neg (by simp [hname, haddr]; omega), if_neg (by simp [hsafe1, hsafe2, hsafe3, hsafe4])] at h
    cases h
    have htype : Fits 128 "NETMAIL".toList :=
      ⟨⟨by decide, head_of_all (by decide)⟩, by decide⟩
    rw [readNetmailLines_header (isKey_of_all (by decide) (by decide)) (by decide) htype
        netmailHeader_type,
      readNetmailLines_header (isKey_of_all (by decide) (by decide)) (by decide)
        (fits_decimal hf.fromuid)
        (netmailHeader_fields (fits_decimal hf.fromuid).head).1.1,
      readNetmailLines_header (isKey_of_all (by decide) (by decide)) (by decide) ⟨hf.toname, hsafe1⟩
        (netmailHeader_fields hf.toname.head).1.2.1,
      readNetmailLines_header (isKey_of_all (by decide) (by decide)) (by decide) ⟨hf.toaddr, hsafe2⟩
        (netmailHeader_fields hf.toaddr.head).1.2.2,
      readNetmailLines_header (isKey_of_all (by decide) (by decide)) (by decide) ⟨hf.subject, hsafe3⟩
        (netmailHeader_fields hf.subject.head).2.1,
      readNetmailLines_header (isKey_of_all (by decide) (by decide)) (by decide) ⟨hf.reply, hsafe4⟩
        (netmailHeader_fields hf.reply.head).2.2.1,
      readNetmailLines_header (isKey_of_all (by decide) (by decide)) (by decide) (fits_decimal hnow)
        (netmailHeader_fields (fits_decimal hnow).head).2.2.2,
      readNetmailLines_blank]
    simp only [atol_decimal_end, hf.toname.strlcpy, hf.toaddr.strlcpy, hf.subject.strlcpy,
      hf.reply.strlcpy, List.nil_append]
    rfl
  unfold readNetmailJob
  rw [Option.bind_eq_bind, Option.bind_some, hread, Option.bind_eq_bind, Option.bind_some,
    if_neg (by simp [NetmailCall.job, hname, haddr]; omega)]
  rfl

/-! ## Oneliners -/

theorem ibolLines_header {size : Nat} {key value : CString} {s s' : IbolRead} (hk : IsKey key)
    (hs : size ≤ 128) (hv : Fits size value) (hbody : s.inBody = false)
    (hstep : ibolHeader s (jobLine key value) = some s') (rest : CString) :
    (fileLines jobLineMax (jobLine key value ++ '\n' :: rest)).foldlM ibolLineStep s =
      (fileLines jobLineMax rest).foldlM ibolLineStep s' := by
  obtain ⟨hlines, hstrip⟩ := stripEol_jobLine hk hs hv
  have hline : ibolLineStep s (jobLine key value ++ ['\n']) = some s' := by
    unfold ibolLineStep
    rw [hstrip]
    dsimp only
    rw [hbody, if_neg Bool.false_ne_true, if_neg (jobLine_ne_nil key value), hstep]
  rw [hlines, List.foldlM_cons, hline, Option.bind_eq_bind, Option.bind_some]

theorem ibolLines_text {text : CString} (hne : text ≠ []) (hlen : text.length ≤ ibolOnelinerMax)
    (hsafe : isSafeFtnQueueHeaderValue text = true) {s : IbolRead} (hbody : s.inBody = false)
    (htext : s.seenText = false) :
    (fileLines jobLineMax ('\n' :: (text ++ ['\n']))).foldlM ibolLineStep s =
      some { s with inBody := true, seenText := true, job := { s.job with text := text } } := by
  have hnl : '\n' ∉ text := fun h => by
    have := isEol_of_safe hsafe h
    revert this
    decide
  have hfit : text.length + 1 < jobLineMax := by
    unfold ibolOnelinerMax at hlen
    unfold jobLineMax
    omega
  have hblank : ibolLineStep s ['\n'] = some { s with inBody := true } := by
    unfold ibolLineStep
    dsimp only
    rw [hbody, if_neg Bool.false_ne_true, if_pos (by decide)]
  have hline : ibolLineStep { s with inBody := true } (text ++ ['\n']) = some
      { s with inBody := true, seenText := true, job := { s.job with text := text } } := by
    have hcopy : strlcpy (ibolOnelinerMax + 1) text = text := List.take_of_length_le hlen
    unfold ibolLineStep
    rw [stripEol_line fun c hc => isEol_of_safe hsafe hc]
    dsimp only
    rw [if_pos rfl, if_neg hne, htext, if_neg (by simpa using hlen), hcopy]
  rw [fileLines_blank, List.foldlM_cons, hblank, Option.bind_eq_bind, Option.bind_some,
    fileLines_line hnl hfit, List.foldlM_cons, hline, Option.bind_eq_bind, Option.bind_some]
  rfl

section IbolHeader

variable {s : IbolRead} {value : CString} (hv : ∀ c ∈ value.head?, isBlank c = false)

theorem ibolHeader_type :
    ibolHeader s (jobLine "TYPE:".toList "IBOL".toList) = some { s with seenType := true } := by
  unfold ibolHeader
  rw [if_pos (isPrefixOf_jobLine_self _ _), jobValue_jobLine _ (head_of_all (by decide)), if_pos rfl]

include hv

/-- The other fields. -/
theorem ibolHeader_fields :
    ibolHeader s (jobLine "FROMUID:".toList value) =
      some { s with job := { s.job with fromuid := atol value } } ∧
    ibolHeader s (jobLine "AUTHOR:".toList value) =
      some { s with job := { s.job with author := strlcpy 128 value } } ∧
    ibolHeader s (jobLine "CREATED:".toList value) =
      some { s with job := { s.job with created := atol value } } := by
  refine ⟨?_, ?_, ?_⟩
  all_goals
    simp (disch := decide) only [ibolHeader, isPrefixOf_jobLine_other, isPrefixOf_jobLine_self,
      jobValue_jobLine _ hv, Bool.false_eq_true, if_false, if_true]

end IbolHeader

theorem IbolCall.file_eq_some {c : IbolCall} {now : Int} {file : CString}
    (h : c.file now = some file) :
    (0 < c.fromuid ∧ c.author ≠ [] ∧ c.text ≠ []) ∧ c.text.length ≤ ibolOnelinerMax ∧
      isSafeFtnQueueHeaderValue c.author = true ∧ isSafeFtnQueueHeaderValue c.text = true := by
  unfold IbolCall.file at h
  split at h
  · cases h
  · next hcall =>
    split at h
    · cases h
    · next hlen =>
      split at h
      · cases h
      · next hsafe =>
        simp only [not_or, Int.not_le] at hcall
        simp only [Bool.or_eq_true, Bool.not_eq_true', not_or, Bool.not_eq_false] at hsafe
        exact ⟨hcall, Nat.not_lt.mp hlen, hsafe⟩

/-- What the members of `struct ibol_job` and the C types ask of a call. -/
structure IbolCall.FitsJob (c : IbolCall) : Prop where
  fromuid : c.fromuid.natAbs ≤ longMax
  author : FitsField 128 c.author

theorem readIbolJob_file {c : IbolCall} {now : Int} {file : CString} (h : c.file now = some file)
    (hf : c.FitsJob) (hnow : 0 < now ∧ now.natAbs ≤ longMax) :
    readIbolJob (some file) = some ⟨c.fromuid, c.author, now, c.text⟩ := by
  obtain ⟨⟨h0, hauthor, htext⟩, hlen, hsafe1, hsafe2⟩ := IbolCall.file_eq_some h
  have hread : (fileLines jobLineMax file).foldlM ibolLineStep ⟨false, false, false, ⟨0, [], 0, []⟩⟩ =
      some ⟨true, true, true, ⟨c.fromuid, c.author, now, c.text⟩⟩ := by
    unfold IbolCall.file at h
    rw [if_neg (by simp [hauthor, htext]; omega), if_neg (by omega),
      if_neg (by simp [hsafe1, hsafe2])] at h
    cases h
    have htype : Fits 128 "IBOL".toList :=
      ⟨⟨by decide, head_of_all (by decide)⟩, by decide⟩
    rw [ibolLines_header (isKey_of_all (by decide) (by decide)) (by decide) htype rfl ibolHeader_type,
      ibolLines_header (isKey_of_all (by decide) (by decide)) (by decide) (fits_decimal hf.fromuid) rfl
        (ibolHeader_fields (fits_decimal hf.fromuid).head).1,
      ibolLines_header (isKey_of_all (by decide) (by decide)) (by decide) ⟨hf.author, hsafe1⟩ rfl
        (ibolHeader_fields hf.author.head).2.1,
      ibolLines_header (isKey_of_all (by decide) (by decide)) (by decide) (fits_decimal hnow.2) rfl
        (ibolHeader_fields (fits_decimal hnow.2).head).2.2,
      ibolLines_text htext hlen hsafe2 rfl rfl]
    simp only [atol_decimal_end, hf.author.strlcpy]
  unfold readIbolJob
  rw [Option.bind_eq_bind, Option.bind_some, hread, Option.bind_eq_bind, Option.bind_some,
    if_neg (by simp [hauthor, htext]; omega)]
  rfl

/-- A netmail or a oneliner that is accepted reaches the runner as it was handed over; a body gets
the line end that it misses. -/
theorem queued_jobs_survive (now : Int) (hnow : 0 < now ∧ now.natAbs ≤ longMax) :
    (∀ (c : NetmailCall) (file : CString), c.file now = some file → c.FitsJob →
      readNetmailJob (some file) = some (c.job now)) ∧
    ∀ (c : IbolCall) (file : CString), c.file now = some file → c.FitsJob →
      readIbolJob (some file) = some ⟨c.fromuid, c.author, now, c.text⟩ :=
  ⟨fun _ _ h hf => readNetmailJob_file h hf hnow.2, fun _ _ h hf => readIbolJob_file h hf hnow⟩

/-- A reply whose body has lines that look like header lines. -/
def netmailCallExample : NetmailCall where
  fromuid := 7
  toname := "Anna".toList
  toaddr := "2:201/1".toList
  subject := none
  body := "TYPE: hej\n\nSUBJECT: nej".toList
  reply := some "2:201/1 0030007b".toList

def ibolCallExample : IbolCall := ⟨7, "Anna".toList, " TYPE: hej".toList⟩

theorem queued_jobs_survive_example :
    readNetmailJob (netmailCallExample.file 99) = some (netmailCallExample.job 99) ∧
      readIbolJob (ibolCallExample.file 99) = some ⟨7, "Anna".toList, 99, " TYPE: hej".toList⟩ := by
  have hsurvive := queued_jobs_survive 99 (by decide)
  refine ⟨?_, ?_⟩
  · obtain ⟨file, hfile⟩ : ∃ file, netmailCallExample.file 99 = some file := ⟨_, rfl⟩
    rw [hfile]
    exact hsurvive.1 netmailCallExample file hfile
      ⟨by decide, ⟨by decide, head_of_all (by decide)⟩, ⟨by decide, head_of_all (by decide)⟩,
        ⟨by decide, head_of_all (by decide)⟩, ⟨by decide, head_of_all (by decide)⟩⟩
  · obtain ⟨file, hfile⟩ : ∃ file, ibolCallExample.file 99 = some file := ⟨_, rfl⟩
    rw [hfile]
    exact hsurvive.2 ibolCallExample file hfile ⟨by decide, ⟨by decide, head_of_all (by decide)⟩⟩

end SklaffKom
