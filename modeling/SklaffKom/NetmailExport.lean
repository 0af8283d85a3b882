import SklaffKom.FtnWrite
import SklaffKom.FtnAreas
import SklaffKom.FtnSpool
import SklaffKom.Netmail
import SklaffKom.FtnExport

/-!
# A netmail from one system to another

A netmail waits in a job file, is written to the spool directory of its area, and is read by the netmail
importer of another system.  The text is converted to UTF-8 when it leaves and back when it arrives.
-/

open CString

namespace SklaffKom

/-! ## The export -/

structure Passwd where
  name : CString
  gecos : CString

/-- What a process of `ftntoss` takes from its surroundings. -/
structure FtntossEnv where
  load : LoadEnv
  prefs : Option PrefsFile
  site : Site
  sysop : CString
  getpwuid : Int → Option Passwd
  clock : Clock
  readdir : CString → Option (List CString)

/-- `make_skom_from_name` into a buffer of 128 bytes -/
def makeSkomFromName (env : FtntossEnv) (uid : Int) : CString :=
  if uid ≤ 0 then strlcpy 128 env.sysop
  else
    match env.getpwuid uid with
    | none => strlcpy 128 env.sysop
    | some pw =>
      let gecos := (strlcpy 128 pw.gecos).takeWhile (· ≠ ',')
      if gecos ≠ [] then strlcpy 128 gecos
      else if pw.name ≠ [] then strlcpy 128 pw.name
      else strlcpy 128 env.sysop

/-- The `serial` of a job: the low bits of the time and of the message number. -/
def jobSerial (created msgnum : Int) : Nat :=
  (created % 65536).toNat * 65536 + (msgnum % 65536).toNat

/-- `export_netmail_job`: the path and the contents of the file; `none` is -1. -/
def exportNetmailJob (env : FtntossEnv) (jobfile : Option CString) : Option (CString × List Char) := do
  let job ← readNetmailJob jobfile
  let destination ← parseFtnAddr5d job.toaddr
  match loadNetmailAreaForDestination env.load env.prefs destination with
  | .error _ => none
  | .ok area =>
    let (path, msgnum) ← nextMsgPath area.path (env.readdir area.path)
    let msgid := makeFtnMsgidForAka area.aka (jobSerial job.created msgnum)
    let file ← writeFidoNetmailOut env.site env.clock job (makeSkomFromName env job.fromuid) area.aka
      destination.address msgid
    some (path, file)

/-! ## What arrives unchanged -/

/-- A header field that arrives unchanged. -/
structure ArrivesField (size : Nat) (s : CString) : Prop where
  letterFree : LetterFree s
  fits : (sf7ToUtf8 s).length < size
  trimmed : ∀ c ∈ s.getLast?, isSpace c = false
  noNul : '\x00' ∉ s

/-- A line of the text that arrives unchanged. -/
structure ArrivesLine (l : CString) : Prop where
  letterFree : LetterFree l
  fits : (sf7ToUtf8 l).length < bodyLineMax
  shown : shouldHideCleanLine l = false

/-- A netmail that arrives unchanged. -/
structure ArrivesWhole (c : NetmailCall) : Prop extends NetmailCall.FitsJob c where
  name : ArrivesField 36 c.toname
  subject_ : ArrivesField 72 (c.subject.getD [])
  replyChars : '\x00' ∉ c.reply.getD []
  lines : ∀ l ∈ textLines (closeBody c.body), ArrivesLine l
  noNul : '\x00' ∉ c.body

/-! ## Letters -/

theorem mem_of_mem_splitLines {s l : CString} {c : Char} (h : l ∈ splitLines s) (hc : c ∈ l) : c ∈ s := by
  induction s generalizing l with
  | nil => cases h
  | cons d s ih =>
    by_cases hd : isEol d = true
    · rw [splitLines, if_pos hd, List.mem_cons] at h
      rcases h with rfl | h
      · cases hc
      · exact List.mem_cons_of_mem d (ih h hc)
    · rw [Bool.not_eq_true] at hd
      rw [splitLines_char hd] at h
      cases hs : splitLines s with
      | nil =>
        rw [hs] at h
        have hl := List.mem_singleton.mp h
        rw [hl, List.mem_singleton] at hc
        rw [hc]
        exact List.mem_cons_self
      | cons m ms =>
        rw [hs] at h
        rcases List.mem_cons.mp h with rfl | h
        · rcases List.mem_cons.mp hc with rfl | hc
          · exact List.mem_cons_self
          · exact List.mem_cons_of_mem d (ih (by rw [hs]; exact List.mem_cons_self) hc)
        · exact List.mem_cons_of_mem d (ih (by rw [hs]; exact List.mem_cons_of_mem m h) hc)

theorem sf7Second_bytes {c d : Char} (h : sf7Second c = some d) :
    d ≠ '|' ∧ d ≠ '\x00' ∧ isEol d = false ∧ isSpace d = false := by
  unfold sf7Second at h
  repeat' split at h
  all_goals first
    | cases h
      decide
    | cases h

theorem mem_sf7ToUtf8 {s : CString} {d : Char} (h : d ∈ sf7ToUtf8 s) :
    d = '\xc3' ∨ (∃ c ∈ s, sf7Second c = some d) ∨ d ∈ s ∧ sf7Second d = none := by
  obtain ⟨c, hc, hd⟩ := List.mem_flatMap.mp h
  cases hsecond : sf7Second c with
  | some e =>
    rw [hsecond] at hd
    rcases List.mem_cons.mp hd with rfl | hd
    · exact Or.inl rfl
    · rw [List.mem_singleton.mp hd]
      exact Or.inr (Or.inl ⟨c, hc, hsecond⟩)
  | none =>
    rw [hsecond] at hd
    rw [List.mem_singleton.mp hd]
    exact Or.inr (Or.inr ⟨hc, hsecond⟩)

/-- No letter of the stored text is left. -/
theorem bar_notMem_sf7ToUtf8 (s : CString) : '|' ∉ sf7ToUtf8 s := by
  intro h
  rcases mem_sf7ToUtf8 h with h | ⟨c, -, hc⟩ | ⟨-, h⟩
  · cases h
  · exact (sf7Second_bytes hc).1 rfl
  · cases h

theorem nul_notMem_sf7ToUtf8 {s : CString} (hs : '\x00' ∉ s) : '\x00' ∉ sf7ToUtf8 s := by
  intro h
  rcases mem_sf7ToUtf8 h with h | ⟨c, -, hc⟩ | ⟨h, -⟩
  · cases h
  · exact (sf7Second_bytes hc).2.1 rfl
  · exact hs h

theorem stripPipeColors_eq_self {l : CString} (h : '|' ∉ l) : stripPipeColors l = l := by
  induction l with
  | nil => rfl
  | cons c l ih =>
    have hc : c ≠ '|' := fun heq => h (heq ▸ List.mem_cons_self)
    have hl := ih fun hl => h (List.mem_cons_of_mem c hl)
    unfold stripPipeColors
    split
    · rename_i heq
      cases heq
      exact absurd rfl hc
    · rename_i d r hno heq
      cases heq
      rw [hl]
    · rename_i heq
      cases heq

theorem sf7ToUtf8_append (a b : CString) : sf7ToUtf8 (a ++ b) = sf7ToUtf8 a ++ sf7ToUtf8 b :=
  List.flatMap_append

theorem sf7Second_of_isEol {c : Char} (h : isEol c = true) : sf7Second c = none := by
  simp only [isEol, Bool.or_eq_true, decide_eq_true_eq] at h
  rcases h with rfl | rfl <;> rfl

/-- The lines of the converted text are the converted lines. -/
theorem splitLines_sf7ToUtf8 (s : CString) : splitLines (sf7ToUtf8 s) = (splitLines s).map sf7ToUtf8 := by
  induction s with
  | nil => rfl
  | cons c s ih =>
    by_cases heol : isEol c = true
    · rw [sf7ToUtf8_plain (sf7Second_of_isEol heol), splitLines, if_pos heol, splitLines, if_pos heol,
        ih]
      rfl
    · have hline (d : Char) (hd : isEol d = false) (t : CString) (ls : List CString) :
          splitLines t = ls → splitLines (d :: t) = continueLine [d] ls := by
        intro h
        rw [splitLines_char hd, h]
      rw [Bool.not_eq_true] at heol
      rw [splitLines_char heol]
      cases hc : sf7Second c with
      | none =>
        rw [sf7ToUtf8_plain hc, hline c heol _ _ ih]
        cases splitLines s with
        | nil => simp [continueLine, sf7ToUtf8, hc]
        | cons l ls => simp [continueLine, sf7ToUtf8_plain hc]
      | some d =>
        rw [sf7ToUtf8_letter hc, hline '\xc3' rfl _ _ (hline d (sf7Second_bytes hc).2.2.1 _ _ ih)]
        cases splitLines s with
        | nil => simp [continueLine, sf7ToUtf8, hc]
        | cons l ls => simp [continueLine, sf7ToUtf8_letter hc]

theorem textLines_sf7ToUtf8 (s : CString) : textLines (sf7ToUtf8 s) = (textLines s).map sf7ToUtf8 := by
  unfold textLines
  rw [← splitLines_sf7ToUtf8, sf7ToUtf8_append]
  rfl

/-- A beginning without letters is not changed. -/
theorem prefix_sf7ToUtf8 {w l : CString} (hw : ∀ c ∈ w, sf7Second c = none ∧ c ≠ '\xc3') :
    w <+: sf7ToUtf8 l ↔ w <+: l := by
  induction w generalizing l with
  | nil => simp
  | cons c w ih =>
    have hc := hw c List.mem_cons_self
    have hrest := fun l => @ih l fun d hd => hw d (List.mem_cons_of_mem c hd)
    cases l with
    | nil => rfl
    | cons d l =>
      cases hd : sf7Second d with
      | none =>
        rw [sf7ToUtf8_plain hd, List.cons_prefix_cons, List.cons_prefix_cons, hrest]
      | some e =>
        rw [sf7ToUtf8_letter hd, List.cons_prefix_cons, List.cons_prefix_cons]
        constructor
        · rintro ⟨h, -⟩
          exact absurd h hc.2
        · rintro ⟨rfl, -⟩
          rw [hc.1] at hd
          cases hd

theorem shouldHideCleanLine_sf7ToUtf8 (l : CString) :
    shouldHideCleanLine (sf7ToUtf8 l) = shouldHideCleanLine l := by
  rw [Bool.eq_iff_iff, shouldHideCleanLine_iff, shouldHideCleanLine_iff]
  have hplain : controlWords.all (fun w => w.all fun c => sf7Second c = none && c ≠ '\xc3') = true := rfl
  have hword (w : CString) (hw : w ∈ controlWords) : w <+: sf7ToUtf8 l ↔ w <+: l := by
    apply prefix_sf7ToUtf8
    intro c hc
    simpa using List.all_eq_true.mp (List.all_eq_true.mp hplain w hw) c hc
  constructor
  · rintro ⟨w, hw, h⟩
    exact ⟨w, hw, (hword w hw).mp h⟩
  · rintro ⟨w, hw, h⟩
    exact ⟨w, hw, (hword w hw).mpr h⟩

theorem utf8ToSf7_line (l s : CString) : utf8ToSf7 (l ++ '\n' :: s) = utf8ToSf7 l ++ '\n' :: utf8ToSf7 s :=
  convertLetters_append (by decide) rfl l s

theorem utf8ToSf7_unlines (ls : List CString) (s : CString) :
    utf8ToSf7 (unlines ls ++ s) = unlines (ls.map utf8ToSf7) ++ utf8ToSf7 s := by
  induction ls with
  | nil => rfl
  | cons l ls ih =>
    have hcons (l : CString) (ls : List CString) : unlines (l :: ls) = l ++ '\n' :: unlines ls := by
      simp [unlines]
    rw [List.map_cons, hcons, hcons, List.append_assoc, List.cons_append, utf8ToSf7_line, ih]
    simp

theorem getLast?_sf7ToUtf8 {s : CString} (h : ∀ c ∈ s.getLast?, isSpace c = false) :
    ∀ c ∈ (sf7ToUtf8 s).getLast?, isSpace c = false := by
  intro c hc
  rcases List.eq_nil_or_concat s with rfl | ⟨t, d, rfl⟩
  · cases hc
  · have hd := h d (by simp)
    rw [List.concat_eq_append, sf7ToUtf8_append] at hc
    cases hsecond : sf7Second d with
    | none =>
      rw [sf7ToUtf8_plain hsecond, List.getLast?_append] at hc
      cases hc
      exact hd
    | some e =>
      rw [sf7ToUtf8_letter hsecond, List.getLast?_append] at hc
      cases hc
      exact (sf7Second_bytes hsecond).2.2.2

/-- A field arrives unchanged. -/
theorem ArrivesField.read {size : Nat} {s : CString} (h : ArrivesField size s) :
    utf8ToSf7 (trimEnd isSpace (fixedText size (sf7ToUtf8 s))) = s := by
  have hwhole : fixedText size (sf7ToUtf8 s) = sf7ToUtf8 s := by
    unfold fixedText
    rw [if_pos h.fits, List.take_length]
  rw [hwhole, trimEnd_eq_self (getLast?_sf7ToUtf8 h.trimmed), utf8ToSf7_sf7ToUtf8 h.letterFree]

/-! ## Jobs -/

theorem queueValue_oneLine {v : CString} (hsafe : isSafeFtnQueueHeaderValue v = true) (hnul : '\x00' ∉ v) :
    OneLine v :=
  fun _ hc => ⟨isEol_of_safe hsafe hc, fun h => hnul (h ▸ hc)⟩

theorem mem_makeFtnAddr {aka : FtnAddress} {c : Char} (h : c ∈ makeFtnAddr aka) :
    c.isDigit = true ∨ c ∈ ['-', ':', '/', '.'] := by
  have hdecimal {n : Int} (hc : c ∈ decimal n) : c.isDigit = true ∨ c ∈ ['-', ':', '/', '.'] := by
    rcases mem_decimal hc with hd | rfl
    · exact Or.inl hd
    · exact Or.inr (by decide)
  have hmem := List.mem_of_mem_take h
  split at hmem
  all_goals
    simp only [List.mem_append, List.mem_singleton] at hmem
  · rcases hmem with (((h | rfl) | h) | rfl) | h
    · exact hdecimal h
    · exact Or.inr (by decide)
    · exact hdecimal h
    · exact Or.inr (by decide)
    · exact hdecimal h
  · rcases hmem with (((((h | rfl) | h) | rfl) | h) | rfl) | h
    · exact hdecimal h
    · exact Or.inr (by decide)
    · exact hdecimal h
    · exact Or.inr (by decide)
    · exact hdecimal h
    · exact Or.inr (by decide)
    · exact hdecimal h

theorem isSpace_makeFtnAddr {aka : FtnAddress} {c : Char} (h : c ∈ makeFtnAddr aka) : isSpace c = false := by
  rcases mem_makeFtnAddr h with hd | hc
  · exact isSpace_of_isDigit hd
  · simp only [List.mem_cons, List.not_mem_nil, or_false] at hc
    rcases hc with rfl | rfl | rfl | rfl <;> rfl

theorem mem_hexDigits {n : Nat} {c : Char} (h : c ∈ Nat.toDigits 16 n) : ∃ d < 16, c = Nat.digitChar d := by
  induction n using Nat.strong_induction_on with
  | _ n ih =>
    rw [Nat.toDigits_eq_if (by decide)] at h
    split at h
    · rename_i hlt
      exact ⟨n, hlt, List.mem_singleton.mp h⟩
    · rcases List.mem_append.mp h with h | h
      · exact ih (n / 16) (by omega) h
      · exact ⟨n % 16, by omega, List.mem_singleton.mp h⟩

theorem isSpace_hex8 {n : Nat} {c : Char} (h : c ∈ hex8 n) : isSpace c = false := by
  have hdigit : ∀ d < 16, isSpace (Nat.digitChar d) = false := by decide
  rcases List.mem_append.mp h with h | h
  · rw [List.eq_of_mem_replicate h]
    rfl
  · obtain ⟨d, hd, rfl⟩ := mem_hexDigits h
    exact hdigit d hd

/-- A `MSGID` that is made here is kept by the reader. -/
theorem kludgeValue_msgid (aka : FtnAddress) (serial : Nat) :
    KludgeValue 256 (makeFtnMsgidForAka aka serial) := by
  have haddr : (makeFtnAddr aka).length ≤ 63 := List.length_take_le _ _
  have hhex := length_hex8 (Nat.mod_lt serial (show 0 < 2 ^ 32 by decide))
  have hchar {c : Char} (hc : isSpace c = false) (hnul : c ≠ '\x00') : isEol c = false ∧ c ≠ '\x00' := by
    refine ⟨?_, hnul⟩
    by_contra heol
    simp only [isEol, Bool.not_eq_false, Bool.or_eq_true, decide_eq_true_eq] at heol
    rcases heol with rfl | rfl <;> cases hc
  rw [makeFtnMsgidForAka_eq]
  refine ⟨?_, ?_, ?_⟩
  · intro c hc
    rw [List.append_assoc] at hc
    rcases List.mem_append.mp hc with hc | hc
    · refine hchar (isSpace_makeFtnAddr hc) ?_
      rintro rfl
      rcases mem_makeFtnAddr hc with hd | hd <;> revert hd <;> decide
    · rcases List.mem_append.mp hc with hc | hc
      · rw [List.mem_singleton.mp hc]
        decide
      · refine hchar (isSpace_hex8 hc) ?_
        rintro rfl
        rcases List.mem_append.mp hc with hc | hc
        · cases List.eq_of_mem_replicate hc
        · obtain ⟨d, hd, heq⟩ := mem_hexDigits hc
          have hdigit : ∀ d < 16, '\x00' ≠ Nat.digitChar d := by decide
          exact hdigit d hd heq
  · intro c hc
    have hmem : c ∈ makeFtnAddr aka := by
      obtain ⟨d, t, ht⟩ : ∃ d t, makeFtnAddr aka = d :: t := by
        apply List.exists_cons_of_ne_nil
        intro hnil
        have hlen := congrArg List.length hnil
        unfold makeFtnAddr strlcpy at hlen
        rw [List.length_take] at hlen
        split at hlen
        · simp at hlen
        · simp at hlen
      rw [ht] at hc
      cases hc
      rw [ht]
      exact List.mem_cons_self
    have hspace := isSpace_makeFtnAddr hmem
    cases hblank : isBlank c with
    | false => rfl
    | true =>
      simp only [isBlank, Bool.or_eq_true, decide_eq_true_eq] at hblank
      rcases hblank with rfl | rfl <;> cases hspace
  · rw [List.length_append, List.length_append, List.length_singleton, hhex]
    omega

/-- The sender of a message is found in its `MSGID`. -/
theorem ftnMsgidOrigin_made (aka : FtnAddress) (serial : Nat) :
    ftnMsgidOrigin 128 (makeFtnMsgidForAka aka serial) = makeFtnAddr aka := by
  have haddr : (makeFtnAddr aka).length ≤ 63 := List.length_take_le _ _
  unfold ftnMsgidOrigin
  rw [makeFtnMsgidForAka_eq, List.append_assoc,
    List.takeWhile_append_of_pos fun c hc => by simp [isSpace_makeFtnAddr hc],
    List.singleton_append, List.takeWhile_cons_of_neg (by decide), List.append_nil]
  exact List.take_of_length_le (by omega)

section Export

variable {env : FtntossEnv} {c : NetmailCall} {now n : Int} {file path : CString}
variable {destination : NetmailDestination} {area : FtnArea}

/-- The body of a job that arrives unchanged. -/
theorem ArrivesWhole.body (h : ArrivesWhole c) : PlainBody (sf7ToUtf8 (closeBody c.body)) := by
  have hnul : '\x00' ∉ closeBody c.body := by
    unfold closeBody
    split
    · simpa using h.noNul
    · exact h.noNul
  refine ⟨?_, nul_notMem_sf7ToUtf8 hnul⟩
  intro l hl
  rw [textLines_sf7ToUtf8] at hl
  obtain ⟨m, hm, rfl⟩ := List.mem_map.mp hl
  have hline := h.lines m hm
  have hin : sf7ToUtf8 m ∈ splitLines (sf7ToUtf8 (closeBody c.body) ++ ['\n']) := by
    change sf7ToUtf8 m ∈ textLines (sf7ToUtf8 (closeBody c.body))
    rw [textLines_sf7ToUtf8]
    exact List.mem_map_of_mem hm
  refine ⟨⟨?_, hline.fits⟩, ?_⟩
  · intro d hd
    refine ⟨isEol_of_mem_splitLines hin hd, ?_⟩
    rintro rfl
    have hmem := mem_of_mem_splitLines hin hd
    rcases List.mem_append.mp hmem with hmem | hmem
    · exact nul_notMem_sf7ToUtf8 hnul hmem
    · cases List.mem_singleton.mp hmem
  · intro hkludge
    have hshown := hline.shown
    rw [← shouldHideCleanLine_sf7ToUtf8, shouldHideCleanLine, hkludge] at hshown
    cases hshown

/-- The text of a netmail as it is shown, and the lines that this system puts behind it. -/
theorem netmailBody_arrives (h : ArrivesWhole c) {msg : FidoMsg}
    {route : List CString} {msgid : CString}
    (hclean : msg.cleanBody = unlines (((route ++ commonKludges env.clock msgid (c.reply.getD []) ++
      textLines (sf7ToUtf8 (closeBody c.body)) ++ originLines env.site area.aka).filter
        fun l => !shouldHideCleanLine l).map stripPipeColors))
    (hroute : route.filter (fun l => !shouldHideCleanLine l) = []) :
    utf8ToSf7 msg.cleanBody = '\n' :: (unlines (textLines (closeBody c.body)) ++
      utf8ToSf7 (unlines ((originLines env.site area.aka).map stripPipeColors))) := by
  have hlines : (textLines (sf7ToUtf8 (closeBody c.body))).filter (fun l => !shouldHideCleanLine l) =
      textLines (sf7ToUtf8 (closeBody c.body)) := by
    rw [List.filter_eq_self]
    intro l hl
    rw [textLines_sf7ToUtf8] at hl
    obtain ⟨m, hm, rfl⟩ := List.mem_map.mp hl
    rw [shouldHideCleanLine_sf7ToUtf8, (h.lines m hm).shown]
    rfl
  have hstrip : (textLines (sf7ToUtf8 (closeBody c.body))).map stripPipeColors =
      textLines (sf7ToUtf8 (closeBody c.body)) := by
    rw [textLines_sf7ToUtf8, List.map_map]
    exact List.map_congr_left fun l _ => stripPipeColors_eq_self (bar_notMem_sf7ToUtf8 l)
  have hback : (textLines (sf7ToUtf8 (closeBody c.body))).map utf8ToSf7 = textLines (closeBody c.body) := by
    rw [textLines_sf7ToUtf8, List.map_map]
    calc (textLines (closeBody c.body)).map (utf8ToSf7 ∘ sf7ToUtf8)
        = (textLines (closeBody c.body)).map id :=
          List.map_congr_left fun l hl => utf8ToSf7_sf7ToUtf8 (h.lines l hl).letterFree
      _ = textLines (closeBody c.body) := List.map_id _
  have hends : (originLines env.site area.aka).filter (fun l => !shouldHideCleanLine l) =
      originLines env.site area.aka := rfl
  rw [hclean, List.filter_append, List.filter_append, List.filter_append, hroute, filter_commonKludges, hlines,
    hends, List.map_append, List.map_append, hstrip]
  show utf8ToSf7 (unlines ([[]] ++ textLines _ ++ _)) = _
  rw [List.append_assoc, unlines_append, unlines_append, ← List.append_assoc, ← unlines_append,
    utf8ToSf7_unlines, List.map_append, hback]
  simp [unlines, utf8ToSf7, convertLetters]

/-- What arrives of a call. -/
structure NetmailArrives (env : FtntossEnv) (c : NetmailCall) (area : FtnArea) (serial : Nat) (msg : FidoMsg) :
    Prop where
  toName : netmailToSf7 msg.toName msg.chrs = c.toname
  subject : netmailToSf7 msg.subject msg.chrs = c.subject.getD []
  body : netmailToSf7 msg.cleanBody msg.chrs = '\n' :: (unlines (textLines (closeBody c.body)) ++
    utf8ToSf7 (unlines ((originLines env.site area.aka).map stripPipeColors)))
  fromName : msg.fromName = trimEnd isSpace (fixedText 36 (makeSkomFromName env c.fromuid))
  reply : msg.reply = c.reply.getD []
  msgid : msg.msgid = makeFtnMsgidForAka area.aka serial
  fromAddr : ∀ domain, netmailFromAddr msg domain = makeFtn5dAddr 192 (makeFtnAddr area.aka) domain

/-- A netmail that was queued is written to a new file of the only area for its address, and the importer of the
other system reads the names, the subject and the lines that the user wrote. -/
theorem netmail_arrives (hfile : c.file now = some file) (hnow : now.natAbs ≤ longMax) (h : ArrivesWhole c)
    (hdest : parseFtnAddr5d c.toaddr = some destination)
    (harea : loadNetmailAreaForDestination env.load env.prefs destination = .ok area)
    (hpath : nextMsgPath area.path (env.readdir area.path) = some (path, n))
    (hprints : Prints env.site env.clock area.aka) (hsender : '\x00' ∉ makeSkomFromName env c.fromuid) :
    ∃ data msg, exportNetmailJob env (some file) = some (path, data) ∧ readFidoMsg (some data) = some msg ∧
      NetmailArrives env c area (jobSerial now n) msg := by
  have hjob := readNetmailJob_file hfile h.toFitsJob hnow
  obtain ⟨-, hsafename, -, hsafesubject, hsafereply⟩ := NetmailCall.file_eq_some hfile
  obtain ⟨config, hload, hconfig⟩ := loadNetmailArea_ok.mp harea
  have horig : area.aka.InRange := by
    apply loadPrefs_inRange hload
    rcases hconfig.only with honly | ⟨-, -, honly⟩
    · exact (List.mem_filter.mp (by rw [honly]; exact List.mem_singleton_self _)).1
    · exact (List.mem_filter.mp (by rw [honly]; exact List.mem_singleton_self _)).1
  have hdestRange : destination.address.InRange := by
    obtain ⟨hdenotes, -⟩ := parseFtnAddr5d_iff.mp hdest
    generalize c.toaddr = toaddr at hdenotes
    cases hdenotes with
    | plain ht => exact ht.inRange
    | domain ht hne hall => exact ht.inRange
  have hreply : KludgeValue 256 (c.reply.getD []) := by
    refine ⟨queueValue_oneLine hsafereply h.replyChars, h.reply.head, ?_⟩
    have hlen := h.reply.length
    omega
  have hmsgid := kludgeValue_msgid area.aka (jobSerial now n)
  have hne : makeFtnMsgidForAka area.aka (jobSerial now n) ≠ [] := by
    rw [makeFtnMsgidForAka_eq]
    simp
  obtain ⟨data, hdata, hread⟩ := @readFidoMsg_netmail env.site env.clock area.aka destination.address
    (makeSkomFromName env c.fromuid) (makeFtnMsgidForAka area.aka (jobSerial now n)) (c.job now) hprints horig
    hdestRange h.body hmsgid hreply hsender (nul_notMem_sf7ToUtf8 h.name.noNul)
    (nul_notMem_sf7ToUtf8 h.subject_.noNul) hne
  have hexport : exportNetmailJob env (some file) = some (path, data) := by
    unfold exportNetmailJob
    rw [hjob]
    simp only [Option.bind_eq_bind, Option.bind_some]
    rw [show (c.job now).toaddr = c.toaddr from rfl, hdest]
    simp only [Option.bind_some]
    rw [harea]
    dsimp only
    rw [hpath]
    simp only [Option.bind_some]
    rw [show (c.job now).created = now from rfl, show (c.job now).fromuid = c.fromuid from rfl, hdata]
    rfl
  refine ⟨data, _, hexport, hread, ?_⟩
  have hutf8 (s : CString) : netmailToSf7 s "UTF-8 4".toList = utf8ToSf7 s := if_pos rfl
  refine ⟨?_, ?_, ?_, rfl, rfl, rfl, ?_⟩
  · exact (hutf8 _).trans h.name.read
  · exact (hutf8 _).trans h.subject_.read
  · exact (hutf8 _).trans (netmailBody_arrives h rfl (filter_routeKludges _ _))
  · intro domain
    show makeFtn5dAddr 192 (ftnMsgidOrigin 128 (makeFtnMsgidForAka area.aka (jobSerial now n))) domain = _
    rw [ftnMsgidOrigin_made]

end Export

/-! ## A message -/

def envExample : FtntossEnv where
  load := ⟨"prefs".toList, fun _ => true, []⟩
  prefs := some ⟨"AKA 2:201/1\nDOMAIN fidonet\nNETMAIL NET 2:201/1 MSG /ftn/net\n".toList, false⟩
  site := ⟨"1.32(#7)".toList, "SKLAFF".toList, "Lund".toList⟩
  sysop := "Sysop".toList
  getpwuid := fun _ => some ⟨"anna".toList, "Anna Ek,,".toList⟩
  clock := ⟨⟨2026, 5, 14, 21, 55, 49⟩, "+0200".toList⟩
  readdir := fun _ => some ["7.msg".toList]

/-- Its letters are those of the seven bit character set. -/
def callExample : NetmailCall where
  fromuid := 7
  toname := "Bj|rn".toList
  toaddr := "2:201/329@fidonet".toList
  subject := some "H\x7blsningar".toList
  body := "Hej\nd\x7d".toList
  reply := none

def areaExample : FtnArea :=
  ⟨.netmail, "NET".toList, "fidonet".toList, "MSG".toList, "/ftn/net".toList, ⟨2, 201, 1, 0⟩, []⟩

theorem letterFree_of_ascii {s : CString} (h : s.all (fun c => c ≠ '\xc3') = true) : LetterFree s := by
  intro d _ hin
  have hmem : '\xc3' ∈ s := hin.subset List.mem_cons_self
  have hne := List.all_eq_true.mp h _ hmem
  simp at hne

theorem arrivesField_of_ascii {size : Nat} {s : CString} (h : s.all (fun c => c ≠ '\xc3' && c ≠ '\x00') = true)
    (hfits : (sf7ToUtf8 s).length < size) (hlast : s.getLast?.all (fun c => !isSpace c) = true) :
    ArrivesField size s where
  letterFree := letterFree_of_ascii (List.all_eq_true.mpr fun c hc => by
    have hc := List.all_eq_true.mp h c hc
    rw [Bool.and_eq_true] at hc
    exact hc.1)
  fits := hfits
  trimmed := fun c hc => by
    rw [Option.mem_def.mp hc] at hlast
    simpa using hlast
  noNul := fun hc => by simpa using List.all_eq_true.mp h _ hc

theorem arrivesWhole_example : ArrivesWhole callExample where
  fromuid := by decide
  toname := ⟨by decide, head_of_all rfl⟩
  toaddr := ⟨by decide, head_of_all rfl⟩
  subject := ⟨by decide, head_of_all rfl⟩
  reply := ⟨by decide, head_of_all rfl⟩
  name := arrivesField_of_ascii rfl (by decide) rfl
  subject_ := arrivesField_of_ascii rfl (by decide) rfl
  replyChars := by decide
  lines := by
    intro l hl
    have hlines : textLines (closeBody callExample.body) = ["Hej".toList, "d\x7d".toList, []] := rfl
    rw [hlines] at hl
    simp only [List.mem_cons, List.not_mem_nil, or_false] at hl
    rcases hl with rfl | rfl | rfl
    all_goals exact ⟨letterFree_of_ascii rfl, by decide, rfl⟩
  noNul := by decide

theorem prints_example : Prints envExample.site envExample.clock areaExample.aka where
  tail := by
    intro l hl
    have hlines : originLines envExample.site areaExample.aka =
        ["--- SklaffKOM v1.32".toList, " * Origin: SKLAFF, Lund (2:201/1)".toList] := by decide +kernel
    rw [hlines] at hl
    simp only [List.mem_cons, List.not_mem_nil, or_false] at hl
    rcases hl with rfl | rfl
    all_goals exact ⟨⟨oneLine_of_all rfl, by decide⟩, by decide⟩
  zone := ⟨oneLine_of_all rfl, head_of_all rfl, by decide⟩

theorem netmail_arrives_example :
    ∃ data msg, exportNetmailJob envExample (callExample.file 1000) = some ("/ftn/net/8.msg".toList, data) ∧
      readFidoMsg (some data) = some msg ∧
      NetmailArrives envExample callExample areaExample (jobSerial 1000 8) msg :=
  @netmail_arrives envExample callExample 1000 8 _ _ ⟨⟨2, 201, 329, 0⟩, some "fidonet".toList⟩ areaExample rfl
    (by decide) arrivesWhole_example (by decide +kernel) (by decide +kernel) (by decide +kernel) prints_example
    (by decide +kernel)

end SklaffKom
