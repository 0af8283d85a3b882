import SklaffKom.SurveyQuestions
import SklaffKom.Lib.Lists
import Mathlib.Algebra.GroupWithZero.Nat

/-!
# The tallies of a survey

`input_survey_quest` asks again until the answer to a question is one that it takes, and the answers
of a respondent become lines of the result file.  `show_survey_result` cuts this file into records,
finds the answer to a question by walking over the strings of a record, and counts.
-/

open CString

namespace SklaffKom

/-! ## Asking -/

/-- `input_extended` without a default: of the typed characters those between the bounds that can be
printed, as far as the buffer takes them. -/
def inputExtended (low hi : Nat) (keys : CString) : CString :=
  (keys.filter fun c => low ≤ c.toNat ∧ c.toNat ≤ hi ∧ 32 ≤ c.toNat ∧ c.toNat ≤ 126).take 76

/-- The variable `i`: how many alternatives the prompt offers, none in the obsolete format with
another colon. -/
def offered (lin : CString) : Option Int :=
  match (strchr lin ':').bind fun s2 => strchr s2.tail ':' with
  | some _ => some 0
  | none => do
    let s ← strtok lin ':'
    let s ← strtok s.2 ':'
    pure (toInt (atol s.1))

/-- The variables `n1` and `n2`. -/
def offeredInterval (lin : CString) : Option (Int × Int) := do
  let s ← strtok lin ':'
  let s ← strtok s.2 ':'
  let s' ← strtok s.2 ':'
  pure (longAt s.1, longAt s'.1)

/-- The loop that looks for a letter that appears more than once: a letter is covered with a blank
while the others are searched. -/
def lettersDiffer (reply : CString) : Bool :=
  (List.range reply.length).all fun j => (strchr (reply.set j ' ') (reply.getD j ' ')).isNone

/-- A question as `input_survey_quest` asks it: the bounds of the characters and the replies that end
the loop; `none` where it crashes. -/
def askQuestion (lin : CString) : QuestionType → Option ((Nat × Nat) × (CString → Bool))
  | .freeText => some ((0, 255), fun _ => true)
  | .freeNumber => some (('-'.toNat, '9'.toNat), fun _ => true)
  | .singleChoice => (offered lin).map fun i =>
      (('0'.toNat, '9'.toNat), fun reply => !((longAt reply < 1 || longAt reply > i) && reply ≠ []))
  | .multipleChoice => (offered lin).map fun i =>
      (('a'.toNat, (('a'.toNat : Int) + i - 1).toNat), lettersDiffer)
  | .interval => (offeredInterval lin).map fun n =>
      (('0'.toNat, '9'.toNat), fun reply => !((longAt reply < n.1 || longAt reply > n.2) && reply ≠ []))

/-- The first reply that ends the loop, of what the user types. -/
def firstReply (low hi : Nat) (ends : CString → Bool) : List CString → Option CString
  | [] => none
  | keys :: typed =>
    let reply := inputExtended low hi keys
    if ends reply then some reply else firstReply low hi ends typed

/-- `input_survey_quest`: the reply, and none when the user breaks off. -/
def inputSurveyQuest (lin : CString) (qtype : QuestionType) (typed : List CString) : Option CString :=
  (askQuestion lin qtype).bind fun ask => firstReply ask.1.1 ask.1.2 ask.2 typed

/-- A reply that `input_survey_quest` can give for a line. -/
def Accepted (lin reply : CString) : Prop :=
  ∃ qtype typed, parseSurveyLine lin = some qtype ∧ inputSurveyQuest lin qtype typed = some reply

def surveyQuestions (body : List CString) : List CString := (body.map pageLine).filter IsQuestion

/-! ## Showing -/

/-- What `show_survey_result` counts for a question. -/
inductive SurveyTally where
  /-- no result file, or one without records -/
  | unanswered
  | texts (answers : List CString)
  | single (counts : List Nat) (blank : Int)
  | multiple (counts : List Nat)
  /-- the answers that are not blank, whose statistics are shown -/
  | numbers (answers : List CString)
deriving DecidableEq

/-- The answers up to `t` end with NUL. -/
def nulLines : Nat → CString → Option (CString × CString)
  | 0, t => some ([], t)
  | j + 1, t => do
    let nl ← strchr t '\n'
    let (lines, rest) ← nulLines j nl.tail
    pure (t.take (t.length - nl.length) ++ '\x00' :: lines, rest)

/-- The loop that cuts the file: the pointers to the records, and the buffer after it. -/
def cutRecords (nQuest : Nat) : Nat → CString → Option (List CString × CString)
  | 0, t => some ([], t)
  | n + 1, t => do
    let (lines, rest) ← nulLines nQuest t
    let (entries, buf) ← cutRecords nQuest n rest
    pure ((lines ++ buf) :: entries, lines ++ buf)

/-- `for (j = 0; j < quest; j++) t = t + strlen(t) + 1;` and the string there. -/
def answerAt : Nat → CString → CString
  | 0, t => t.takeWhile (· ≠ '\x00')
  | j + 1, t => answerAt j (t.dropWhile (· ≠ '\x00')).tail

/-- `nalt` -/
def alternatives (lin : CString) : Nat := ((strchr lin ':').elim 0 fun s => toInt (atol s.tail)).toNat

/-- `repbuf[i]++`; `none` is an access outside the array. -/
def countUp (repbuf : List Nat) (i : Int) : Option (List Nat) :=
  if 0 ≤ i ∧ i < repbuf.length then some (repbuf.modify i.toNat (· + 1)) else none

/-- A record of a single choice question. -/
def countSingle (repbuf : List Nat) (t : CString) : Option (List Nat) :=
  let repi := longAt t
  if 0 < repi then countUp repbuf (repi - 1) else some repbuf

def choiceLetter (j : Nat) : Char := Char.ofNat ('a'.toNat + j)

/-- A record of a multiple choice question: `for (j = 0; j < nalt; j++)`. -/
def countMultiple (repbuf : List Nat) (t : CString) : List Nat :=
  repbuf.mapIdx fun j c => if (strchr t (choiceLetter j)).isSome then c + 1 else c

/-- The answers to one question, counted. -/
def tallyQuestion (lin : CString) (qtype : QuestionType) (answers : List CString) : Option SurveyTally :=
  let repbuf := List.replicate (alternatives lin) 0
  match qtype with
  | .freeText => some (.texts answers)
  | .singleChoice => (answers.foldlM countSingle repbuf).map fun repbuf =>
      .single repbuf (answers.length - (repbuf.sum : Nat))
  | .multipleChoice => some (.multiple (answers.foldl countMultiple repbuf))
  | .interval => some (.numbers (answers.filter (· ≠ [])))
  | .freeNumber => some (.numbers (answers.filter (· ≠ [])))

def tallyLines (entries : List CString) : Nat → List CString → Option (List SurveyTally)
  | _, [] => some []
  | quest, tb :: rest =>
    match parseSurveyLine (pageLine tb) with
    | none => tallyLines entries quest rest
    | some qtype => do
      let tally ←
        if entries = [] then some .unanswered
        else tallyQuestion (pageLine tb) qtype (entries.map (answerAt quest))
      let tallies ← tallyLines entries (quest + 1) rest
      pure (tally :: tallies)

/-- `show_survey_result`; `none` is a crash or an access outside a buffer.  `(n + 0.25) / n_quest` is
cut down to an integer; without questions it has no value. -/
def showSurveyResult (body : List CString) (nQuest : Nat) : Option CString → Option (List SurveyTally)
  | none => tallyLines [] 0 body
  | some buf =>
    if nQuest = 0 then none
    else (cutRecords nQuest (buf.count '\n' / nQuest) buf).bind fun entries =>
      tallyLines entries.1 0 body

def resultBytes (records : List (List CString)) : CString := records.flatMap unlines

/-! ## Records -/

def nulStrings (r : List CString) : CString := r.flatMap (· ++ ['\x00'])

theorem nulStrings_cons (l : CString) (r : List CString) :
    nulStrings (l :: r) = l ++ '\x00' :: nulStrings r := by
  simp [nulStrings]

theorem nulLines_record {r : List CString} (h : ∀ l ∈ r, '\n' ∉ l) (rest : CString) :
    nulLines r.length (unlines r ++ rest) = some (nulStrings r, rest) := by
  induction r with
  | nil => rfl
  | cons l r ih =>
    obtain ⟨hl, hr⟩ := List.forall_mem_cons.mp h
    rw [unlines_cons, List.append_assoc, List.cons_append, List.length_cons, nulLines, strchr_append hl]
    dsimp only [Option.bind_eq_bind, Option.bind_some]
    rw [List.tail_cons, ih hr, take_before, nulStrings_cons]
    rfl

theorem cutRecords_result {nQuest : Nat} {records : List (List CString)}
    (h : ∀ r ∈ records, r.length = nQuest ∧ ∀ l ∈ r, '\n' ∉ l) :
    ∃ entries buf, cutRecords nQuest records.length (resultBytes records) = some (entries, buf) ∧
      List.Forall₂ (fun e r => ∃ rest, e = nulStrings r ++ rest) entries records := by
  induction records with
  | nil => exact ⟨[], [], rfl, List.Forall₂.nil⟩
  | cons r records ih =>
    obtain ⟨⟨hlen, hr⟩, hrecords⟩ := List.forall_mem_cons.mp h
    obtain ⟨entries, buf, hcut, hall⟩ := ih hrecords
    have hbytes : resultBytes (r :: records) = unlines r ++ resultBytes records := rfl
    refine ⟨(nulStrings r ++ buf) :: entries, nulStrings r ++ buf, ?_, hall.cons ⟨buf, rfl⟩⟩
    rw [hbytes, List.length_cons, cutRecords, ← hlen, nulLines_record hr]
    dsimp only [Option.bind_eq_bind, Option.bind_some]
    rw [hlen, hcut]
    rfl

/-- The strings before the answer are stepped over. -/
theorem answerAt_record {r : List CString} (h : ∀ l ∈ r, '\x00' ∉ l) {k : Nat} (hk : k < r.length)
    (rest : CString) : answerAt k (nulStrings r ++ rest) = r.getD k [] := by
  induction r generalizing k with
  | nil => cases hk
  | cons l r ih =>
    obtain ⟨hl, hr⟩ := List.forall_mem_cons.mp h
    have hstring : ∀ c ∈ l, decide (c ≠ '\x00') = true := by
      intro c hc
      rw [decide_eq_true_eq]
      intro h
      rw [h] at hc
      exact hl hc
    rw [nulStrings_cons, List.append_assoc, List.cons_append]
    cases k with
    | zero =>
      rw [answerAt, List.takeWhile_append_of_pos hstring]
      simp
    | succ k =>
      rw [answerAt, List.dropWhile_append_of_pos hstring, List.dropWhile_cons_of_neg (by simp),
        List.tail_cons, ih hr (by simpa using hk)]
      rfl

theorem count_resultBytes {nQuest : Nat} {records : List (List CString)}
    (h : ∀ r ∈ records, r.length = nQuest ∧ ∀ l ∈ r, '\n' ∉ l) :
    (resultBytes records).count '\n' = nQuest * records.length := by
  induction records with
  | nil => rfl
  | cons r records ih =>
    obtain ⟨⟨hlen, hr⟩, hrecords⟩ := List.forall_mem_cons.mp h
    have hbytes : resultBytes (r :: records) = unlines r ++ resultBytes records := rfl
    rw [hbytes, List.count_append, ih hrecords, count_unlines hr, hlen, List.length_cons,
      Nat.mul_succ, Nat.add_comm]

/-! ## Counting -/

/-- A reply to a single choice question of `n` alternatives that is counted, or blank. -/
def Chooses (n : Nat) (t : CString) : Prop := t = [] ∨ 1 ≤ longAt t ∧ longAt t ≤ n

theorem countUp_some {repbuf : List Nat} {i : Int} (h0 : 0 ≤ i) (h : i < repbuf.length) :
    countUp repbuf i = some (repbuf.modify i.toNat (· + 1)) := by
  unfold countUp
  rw [if_pos ⟨h0, h⟩]

theorem sum_modify (l : List Nat) {i : Nat} (h : i < l.length) : (l.modify i (· + 1)).sum = l.sum + 1 := by
  induction l generalizing i with
  | nil => cases h
  | cons a l ih =>
    cases i with
    | zero =>
      simp
      omega
    | succ i =>
      have hi : i < l.length := by simpa using h
      rw [List.modify_succ_cons, List.sum_cons, List.sum_cons, ih hi]
      omega

/-- One reply adds to the counter of its alternative, and to no other. -/
theorem countSingle_step {repbuf : List Nat} {t : CString} (h : Chooses repbuf.length t) :
    ∃ repbuf', countSingle repbuf t = some repbuf' ∧ repbuf'.length = repbuf.length ∧
      repbuf'.sum = repbuf.sum + (if t = [] then 0 else 1) ∧
      ∀ i : Nat, repbuf'[i]? = (repbuf[i]?).map (· + if longAt t = (i : Int) + 1 then 1 else 0) := by
  unfold countSingle
  rcases h with rfl | ⟨hlo, hhi⟩
  · have hnil : longAt [] = 0 := rfl
    refine ⟨repbuf, by simp [hnil], rfl, by simp, fun i => ?_⟩
    rw [hnil, if_neg (by omega)]
    simp
  · have hne : t ≠ [] := by
      intro h
      subst h
      have hnil : longAt [] = 0 := rfl
      omega
    have hup := @countUp_some repbuf (longAt t - 1) (by omega) (by omega)
    dsimp only
    rw [if_pos (by omega), hup]
    refine ⟨_, rfl, by simp, ?_, fun i => ?_⟩
    · rw [sum_modify _ (by omega), if_neg hne]
    · have hidx : (longAt t - 1).toNat = i ↔ longAt t = (i : Int) + 1 := by omega
      rw [List.getElem?_modify]
      simp only [hidx]
      by_cases hi : longAt t = (i : Int) + 1
      · simp [hi]
      · simp [hi]

/-- The counters after all replies. -/
theorem countSingle_run {n : Nat} {answers : List CString} (h : ∀ t ∈ answers, Chooses n t)
    {repbuf : List Nat} (hlen : repbuf.length = n) :
    ∃ repbuf', answers.foldlM countSingle repbuf = some repbuf' ∧ repbuf'.length = n ∧
      repbuf'.sum = repbuf.sum + answers.countP (· ≠ []) ∧
      ∀ i : Nat, repbuf'[i]? = (repbuf[i]?).map (· + answers.countP fun t => longAt t = (i : Int) + 1) := by
  induction answers generalizing repbuf with
  | nil => exact ⟨repbuf, rfl, hlen, by simp, fun i => by simp⟩
  | cons t answers ih =>
    obtain ⟨ht, hanswers⟩ := List.forall_mem_cons.mp h
    rw [← hlen] at ht
    obtain ⟨mid, hstep, hmidlen, hmidsum, hmid⟩ := countSingle_step ht
    obtain ⟨repbuf', hrun, hlen', hsum, hall⟩ := ih hanswers (hmidlen.trans hlen)
    refine ⟨repbuf', ?_, hlen', ?_, fun i => ?_⟩
    · rw [List.foldlM_cons, hstep]
      exact hrun
    · rw [hsum, hmidsum, List.countP_cons]
      by_cases hnil : t = []
      · simp [hnil]
      · simp [hnil]
        omega
    · rw [hall, hmid, Option.map_map, List.countP_cons]
      congr 1
      funext c
      by_cases hi : longAt t = (i : Int) + 1
      · simp [hi]
        omega
      · simp [hi]

theorem isSome_strchr (s : CString) (c : Char) : (strchr s c).isSome = decide (c ∈ s) := by
  cases h : strchr s c with
  | none => simp [notMem_of_strchr h]
  | some t =>
    obtain ⟨a, r, rfl, -, -⟩ := strchr_split h
    simp

/-- A letter is counted where it is in the reply. -/
theorem countMultiple_run (answers : List CString) (repbuf : List Nat) :
    (answers.foldl countMultiple repbuf).length = repbuf.length ∧
      ∀ i : Nat, (answers.foldl countMultiple repbuf)[i]? =
        (repbuf[i]?).map (· + answers.countP fun t => choiceLetter i ∈ t) := by
  induction answers generalizing repbuf with
  | nil => exact ⟨rfl, fun i => by simp⟩
  | cons t answers ih =>
    obtain ⟨hlen, hall⟩ := ih (countMultiple repbuf t)
    refine ⟨?_, fun i => ?_⟩
    · rw [List.foldl_cons, hlen]
      exact List.length_mapIdx
    · have hmem : (strchr t (choiceLetter i)).isSome = decide (choiceLetter i ∈ t) :=
        isSome_strchr t (choiceLetter i)
      rw [List.foldl_cons, hall, countMultiple, List.getElem?_mapIdx, Option.map_map, List.countP_cons]
      congr 1
      funext c
      rw [Function.comp_apply, hmem]
      by_cases hi : choiceLetter i ∈ t
      · simp [hi]
        omega
      · simp [hi]

/-! ## Accepted replies -/

theorem firstReply_some {low hi : Nat} {ends : CString → Bool} {typed : List CString} {reply : CString}
    (h : firstReply low hi ends typed = some reply) :
    ends reply = true ∧ ∃ keys, reply = inputExtended low hi keys := by
  induction typed with
  | nil => cases h
  | cons keys typed ih =>
    unfold firstReply at h
    dsimp only at h
    split at h
    · next hends =>
      cases h
      exact ⟨hends, keys, rfl⟩
    · exact ih h

theorem Accepted.plain {lin reply : CString} (h : Accepted lin reply) : '\n' ∉ reply ∧ '\x00' ∉ reply := by
  obtain ⟨qtype, typed, -, hinput⟩ := h
  obtain ⟨ask, -, hreply⟩ := Option.bind_eq_some_iff.mp hinput
  obtain ⟨-, keys, rfl⟩ := firstReply_some hreply
  have hprint : ∀ c ∈ inputExtended ask.1.1 ask.1.2 keys, 32 ≤ c.toNat := by
    intro c hc
    have hfilter := (List.mem_filter.mp (List.mem_of_mem_take hc)).2
    rw [decide_eq_true_eq] at hfilter
    exact hfilter.2.2.1
  constructor
  · intro hmem
    exact absurd (hprint _ hmem) (by decide)
  · intro hmem
    exact absurd (hprint _ hmem) (by decide)

theorem strtok_last {l : CString} {d : Char} (hl : d ∉ l) (hne : l ≠ []) : strtok l d = some (l, []) := by
  obtain ⟨c, t, rfl⟩ := List.exists_cons_of_ne_nil hne
  rw [List.mem_cons, not_or] at hl
  have ht : ∀ x ∈ t, decide (x ≠ d) = true := by
    intro x hx
    rw [decide_eq_true_eq]
    intro h
    rw [h] at hx
    exact hl.2 hx
  unfold strtok
  rw [List.dropWhile_cons_of_neg (by simpa using fun h => hl.1 h.symm)]
  dsimp only
  rw [List.takeWhile_eq_self_iff.mpr ht, List.dropWhile_eq_nil_iff.mpr ht]
  rfl

theorem hash_of_question {lin : CString} (h : IsQuestion lin) : ∃ t, lin = '#' :: t := by
  by_contra hno
  have hnot : ¬ ['#', '#'] <+: lin := by
    intro ⟨t, ht⟩
    exact hno ⟨'#' :: t, ht.symm⟩
  unfold IsQuestion at h
  rw [parseSurveyLine_of_not_hashes hnot] at h
  cases h

/-- A prompt that offers alternatives offers those that are counted. -/
theorem offered_eq {lin : CString} (hq : IsQuestion lin) {i : Int} (h : offered lin = some i)
    (hpos : 0 < i) : i = alternatives lin := by
  obtain ⟨t, ht⟩ := hash_of_question hq
  unfold offered at h
  unfold alternatives
  cases hs : strchr lin ':' with
  | none =>
    have hnone : strtok lin ':' = some (lin, []) :=
      strtok_last (notMem_of_strchr hs) (by rw [ht]; exact List.cons_ne_nil _ _)
    have hempty : strtok [] ':' = none := rfl
    rw [hs, Option.bind_none, hnone] at h
    dsimp only [Option.bind_eq_bind, Option.bind_some] at h
    rw [hempty] at h
    cases h
  | some s2 =>
    obtain ⟨a, r, hlin, rfl, ha⟩ := strchr_split hs
    have hne : a ≠ [] := by
      intro h
      rw [h, ht] at hlin
      cases hlin
    rw [hs, Option.bind_some, List.tail_cons] at h
    cases hs3 : strchr r ':' with
    | some s3 =>
      -- the obsolete format
      rw [hs3] at h
      cases h
      omega
    | none =>
      rw [hs3, hlin, strtok_line ha hne] at h
      dsimp only [Option.bind_eq_bind, Option.bind_some] at h
      by_cases hr : r = []
      · rw [hr] at h
        cases h
      · rw [strtok_last (notMem_of_strchr hs3) hr] at h
        cases h
        rw [Option.elim_some, List.tail_cons]
        dsimp only
        dsimp only at hpos
        omega

/-- What is accepted for a single choice question is blank or an alternative. -/
theorem Accepted.chooses {lin reply : CString} (h : Accepted lin reply)
    (hparse : parseSurveyLine lin = some .singleChoice) : Chooses (alternatives lin) reply := by
  obtain ⟨qtype, typed, hqtype, hinput⟩ := h
  rw [hparse] at hqtype
  cases hqtype
  obtain ⟨ask, hask, hreply⟩ := Option.bind_eq_some_iff.mp hinput
  obtain ⟨i, hi, rfl⟩ := Option.map_eq_some_iff.mp hask
  have hends := (firstReply_some hreply).1
  by_cases hblank : reply = []
  · exact Or.inl hblank
  · have hrange : 1 ≤ longAt reply ∧ longAt reply ≤ i := by
      simpa [hblank] using hends
    have halt := offered_eq (by rw [IsQuestion, hparse]; rfl) hi (by omega)
    exact Or.inr ⟨hrange.1, by omega⟩

/-! ## The tallies -/

/-- The records of respondents whose replies were accepted. -/
def AcceptedRecords (body : List CString) (records : List (List CString)) : Prop :=
  ∀ r ∈ records, List.Forall₂ Accepted (surveyQuestions body) r

/-- The tally of question number `k` adds up: each reply to a single choice question is counted for its
alternative or as blank, and each letter of a multiple choice question where a reply contains it. -/
def TallyRight (records : List (List CString)) (k : Nat) (lin : CString) (tally : SurveyTally) : Prop :=
  (parseSurveyLine lin = some .singleChoice → ∃ counts blank, tally = .single counts blank ∧
    counts.length = alternatives lin ∧ (counts.sum : Nat) + blank = records.length ∧
    blank = (records.countP fun r => r.getD k [] = [] : Nat) ∧
    ∀ i < alternatives lin, counts[i]? = some (records.countP fun r => atol (r.getD k []) = (i : Int) + 1)) ∧
  (parseSurveyLine lin = some .multipleChoice → ∃ counts, tally = .multiple counts ∧
    counts.length = alternatives lin ∧
    ∀ i < alternatives lin, counts[i]? = some (records.countP fun r => choiceLetter i ∈ r.getD k []))

/-- An alternative has a small number. -/
theorem longAt_eq_iff {lin : CString} {i : Nat} (hi : i < alternatives lin) (t : CString) :
    longAt t = (i : Int) + 1 ↔ atol t = (i : Int) + 1 := by
  have hint (n : Int) : toInt n < 2147483648 := Int.bmod_lt (by decide)
  have halt : (alternatives lin : Int) < 2147483648 := by
    unfold alternatives
    cases strchr lin ':' with
    | none => decide
    | some s =>
      have hs := hint (atol s.tail)
      rw [Option.elim_some]
      omega
  unfold longAt toLong
  omega

/-- The answers to a question of some accepted records are counted right. -/
theorem tallyQuestion_right {lin : CString} {qtype : QuestionType} (hparse : parseSurveyLine lin = some qtype)
    {records : List (List CString)} {k : Nat} (hrec : ∀ r ∈ records, Accepted lin (r.getD k [])) :
    ∃ tally, tallyQuestion lin qtype (records.map (·.getD k [])) = some tally ∧
      TallyRight records k lin tally := by
  unfold TallyRight
  rw [hparse]
  cases qtype with
  | freeText => exact ⟨_, rfl, fun h => (by cases h), fun h => (by cases h)⟩
  | interval => exact ⟨_, rfl, fun h => (by cases h), fun h => (by cases h)⟩
  | freeNumber => exact ⟨_, rfl, fun h => (by cases h), fun h => (by cases h)⟩
  | singleChoice =>
    have hchoose : ∀ t ∈ records.map (·.getD k []), Chooses (alternatives lin) t := by
      intro t ht
      obtain ⟨r, hr, rfl⟩ := List.mem_map.mp ht
      exact (hrec r hr).chooses hparse
    obtain ⟨counts, hrun, hlen, hsum, hall⟩ :=
      @countSingle_run _ _ hchoose (List.replicate (alternatives lin) 0) List.length_replicate
    have hzero : (List.replicate (alternatives lin) 0).sum = 0 := by simp
    rw [hzero, Nat.zero_add, List.countP_map] at hsum
    have hblank : (records.countP fun r => r.getD k [] = []) + records.countP ((· ≠ []) ∘ (·.getD k [])) =
        records.length := by
      rw [List.length_eq_countP_add_countP (fun r : List CString => decide (r.getD k [] = []))]
      simp [Function.comp_def]
    refine ⟨.single counts (records.length - (counts.sum : Nat)), ?_, fun _ => ?_, fun h => (by cases h)⟩
    · unfold tallyQuestion
      dsimp only
      rw [hrun, List.length_map]
      rfl
    · refine ⟨counts, _, rfl, hlen, by omega, by omega, fun i hi => ?_⟩
      rw [hall, List.getElem?_replicate, if_pos hi, List.countP_map]
      simp [Function.comp_def, longAt_eq_iff hi]
  | multipleChoice =>
    obtain ⟨hlen, hall⟩ := countMultiple_run (records.map (·.getD k [])) (List.replicate (alternatives lin) 0)
    refine ⟨_, rfl, fun h => (by cases h), fun _ =>
      ⟨_, rfl, hlen.trans List.length_replicate, fun i hi => ?_⟩⟩
    rw [hall, List.getElem?_replicate, if_pos hi, List.countP_map]
    simp [Function.comp_def]

/-- The loop over the lines counts each question by the answers with its index. -/
theorem tallyLines_right {records : List (List CString)} {entries : List CString} (hne : entries ≠ [])
    {body : List CString} (quest : Nat)
    (hanswer : ∀ k < (surveyQuestions body).length,
      entries.map (answerAt (quest + k)) = records.map (·.getD (quest + k) []))
    (hrec : ∀ r ∈ records, ∀ k lin, (surveyQuestions body)[k]? = some lin →
      Accepted lin (r.getD (quest + k) [])) :
    ∃ tallies, tallyLines entries quest body = some tallies ∧
      tallies.length = (surveyQuestions body).length ∧
      ∀ k lin, (surveyQuestions body)[k]? = some lin →
        ∃ tally, tallies[k]? = some tally ∧ TallyRight records (quest + k) lin tally := by
  induction body generalizing quest with
  | nil => exact ⟨[], rfl, rfl, fun k lin h => by cases h⟩
  | cons tb body ih =>
    cases hparse : parseSurveyLine (pageLine tb) with
    | none =>
      have hq : surveyQuestions (tb :: body) = surveyQuestions body := by
        unfold surveyQuestions
        rw [List.map_cons, List.filter_cons_of_neg (by simp [IsQuestion, hparse])]
      rw [hq] at hanswer hrec ⊢
      rw [tallyLines, hparse]
      exact ih quest hanswer hrec
    | some qtype =>
      have hq : surveyQuestions (tb :: body) = pageLine tb :: surveyQuestions body := by
        unfold surveyQuestions
        rw [List.map_cons, List.filter_cons_of_pos (by simp [IsQuestion, hparse])]
      rw [hq] at hanswer hrec ⊢
      have hfirst : ∀ r ∈ records, Accepted (pageLine tb) (r.getD quest []) := fun r hr => hrec r hr 0 _ rfl
      obtain ⟨tally, htally, hright⟩ := tallyQuestion_right hparse hfirst
      have hshift : ∀ k, quest + 1 + k = quest + (k + 1) := fun k => by omega
      obtain ⟨tallies, htallies, hlen, hall⟩ := ih (quest + 1)
        (fun k hk => by rw [hshift]; exact hanswer (k + 1) (by simpa using hk))
        (fun r hr k lin hk => by rw [hshift]; exact hrec r hr (k + 1) lin hk)
      have hentries := hanswer 0 (Nat.succ_pos _)
      rw [Nat.add_zero] at hentries
      refine ⟨tally :: tallies, ?_, by simp [hlen], fun k lin hk => ?_⟩
      · rw [tallyLines, hparse]
        dsimp only
        rw [if_neg hne, hentries, htally, htallies]
        rfl
      · cases k with
        | zero =>
          cases hk
          exact ⟨tally, rfl, hright⟩
        | succ k =>
          obtain ⟨t, ht, hr⟩ := hall k lin hk
          rw [hshift] at hr
          exact ⟨t, ht, hr⟩

/-- The answers to one question are found in all records. -/
theorem map_answerAt {entries : List CString} {records : List (List CString)} {k : Nat}
    (h : List.Forall₂ (fun e r => ∃ rest, e = nulStrings r ++ rest) entries records)
    (hplain : ∀ r ∈ records, k < r.length ∧ ∀ l ∈ r, '\x00' ∉ l) :
    entries.map (answerAt k) = records.map (·.getD k []) := by
  induction h with
  | nil => rfl
  | cons hr _ ih =>
    obtain ⟨⟨hk, hnul⟩, hplain⟩ := List.forall_mem_cons.mp hplain
    obtain ⟨rest, rfl⟩ := hr
    rw [List.map_cons, List.map_cons, ih hplain, answerAt_record hnul hk]

/-- For every survey and every positive number of respondents whose replies were accepted, the counters
are only used in their bounds, and the tallies add up. -/
theorem survey_tallies_add_up {body : List CString} (hq : surveyQuestions body ≠ [])
    {records : List (List CString)} (hn : records ≠ []) (hrec : AcceptedRecords body records) :
    ∃ tallies, showSurveyResult body (surveyQuestions body).length (some (resultBytes records)) = some tallies ∧
      tallies.length = (surveyQuestions body).length ∧
      ∀ k lin, (surveyQuestions body)[k]? = some lin →
        ∃ tally, tallies[k]? = some tally ∧ TallyRight records k lin tally := by
  have hpos : 0 < (surveyQuestions body).length := List.length_pos_of_ne_nil hq
  have hplain : ∀ r ∈ records, r.length = (surveyQuestions body).length ∧
      ∀ l ∈ r, '\n' ∉ l ∧ '\x00' ∉ l := by
    intro r hr
    have hall := hrec r hr
    refine ⟨hall.length_eq.symm, fun l hl => ?_⟩
    obtain ⟨lin, -, haccepted⟩ : ∃ lin ∈ surveyQuestions body, Accepted lin l :=
      Lists.forall₂_exists_mem hall.flip l hl
    exact haccepted.plain
  obtain ⟨entries, buf, hcut, hentries⟩ :=
    @cutRecords_result (surveyQuestions body).length records
      fun r hr => ⟨(hplain r hr).1, fun l hl => ((hplain r hr).2 l hl).1⟩
  have hcount := @count_resultBytes (surveyQuestions body).length records
      fun r hr => ⟨(hplain r hr).1, fun l hl => ((hplain r hr).2 l hl).1⟩
  have hne : entries ≠ [] := by
    intro h
    rw [h] at hentries
    cases hentries
    exact hn rfl
  have hanswer : ∀ k < (surveyQuestions body).length,
      entries.map (answerAt (0 + k)) = records.map (·.getD (0 + k) []) := by
    intro k hk
    apply map_answerAt hentries
    intro r hr
    obtain ⟨hlen, hlines⟩ := hplain r hr
    exact ⟨by omega, fun l hl => (hlines l hl).2⟩
  have haccept : ∀ r ∈ records, ∀ k lin, (surveyQuestions body)[k]? = some lin →
      Accepted lin (r.getD (0 + k) []) := by
    intro r hr k lin hk
    rw [Nat.zero_add]
    exact Lists.forall₂_getD (hrec r hr) hk []
  obtain ⟨tallies, htallies, hlen, hall⟩ := tallyLines_right hne 0 hanswer haccept
  refine ⟨tallies, ?_, hlen, fun k lin hk => ?_⟩
  · unfold showSurveyResult
    dsimp only
    rw [if_neg (by omega), hcount, Nat.mul_div_cancel_left _ hpos, hcut]
    exact htallies
  · have h := hall k lin hk
    rwa [Nat.zero_add] at h

def drinkSurvey : List CString := ["Drinks".toList, "## S:3".toList, "## M:2".toList]

def drinkRecords : List (List CString) :=
  [["3".toList, "ab".toList], ["".toList, "b".toList], ["3".toList, "".toList]]

theorem drinkRecords_accepted : AcceptedRecords drinkSurvey drinkRecords := by
  have hq : surveyQuestions drinkSurvey = ["## S:3".toList, "## M:2".toList] := by decide +kernel
  have hsingle : ∀ t ∈ ["3".toList, "".toList], Accepted "## S:3".toList t := by
    intro t ht
    refine ⟨.singleChoice, [t], by decide +kernel, ?_⟩
    revert t
    decide +kernel
  have hmultiple : ∀ t ∈ ["ab".toList, "b".toList, "".toList], Accepted "## M:2".toList t := by
    intro t ht
    refine ⟨.multipleChoice, [t], by decide +kernel, ?_⟩
    revert t
    decide +kernel
  intro r hr
  rw [hq]
  unfold drinkRecords at hr
  rcases List.mem_cons.mp hr with rfl | hr
  · exact .cons (hsingle _ (by decide)) (.cons (hmultiple _ (by decide)) .nil)
  rcases List.mem_cons.mp hr with rfl | hr
  · exact .cons (hsingle _ (by decide)) (.cons (hmultiple _ (by decide)) .nil)
  · rw [List.mem_singleton] at hr
    subst hr
    exact .cons (hsingle _ (by decide)) (.cons (hmultiple _ (by decide)) .nil)

theorem survey_tallies_add_up_drinks :
    ∃ tallies, showSurveyResult drinkSurvey (surveyQuestions drinkSurvey).length
        (some (resultBytes drinkRecords)) = some tallies ∧
      tallies.length = (surveyQuestions drinkSurvey).length ∧
      ∀ k lin, (surveyQuestions drinkSurvey)[k]? = some lin →
        ∃ tally, tallies[k]? = some tally ∧ TallyRight drinkRecords k lin tally :=
  survey_tallies_add_up (by decide +kernel) (by decide) drinkRecords_accepted

end SklaffKom
