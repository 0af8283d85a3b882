import SklaffKom.FtnRescan
import SklaffKom.FtnBody
import SklaffKom.LetterConversion
import SklaffKom.FtnQueue
import SklaffKom.Ftnconf

/-!
# Writing `.MSG` files

`write_fido_msg_out` and `write_fido_netmail_out` write what `read_fido_msg` reads: a header of fixed fields,
kludge lines, the text with `CR` as its line end, and the tear and origin lines of this system.
-/

open CString

namespace SklaffKom

/-! ## The header -/

/-- The loop of `write_fixed_field`: back to the beginning of a character. -/
def cutBack (src : CString) : Nat → Nat
  | 0 => 0
  | n + 1 => if (src.drop (n + 1)).head?.any Utf8.isCont then cutBack src n else n + 1

/-- What `write_fixed_field` keeps of a string. -/
def fixedText (len : Nat) (src : CString) : CString :=
  src.take (if src.length < len then src.length else cutBack src (len - 1))

def writeFixedField (len : Nat) (src : CString) : List Char :=
  fixedText len src ++ List.replicate (len - (fixedText len src).length) '\x00'

def writeU16Le (val : Int) : List Char :=
  [Char.ofNat (val % 256).toNat, Char.ofNat (val / 256 % 256).toNat]

/-- `%02d` -/
def pad2 (n : Int) : CString := if (decimal n).length < 2 then '0' :: decimal n else decimal n

def monthsOut : List CString :=
  ["Jan", "Feb", "Mar", "Apr", "May", "Jun", "Jul", "Aug", "Sep", "Oct", "Nov", "Dec"].map String.toList

/-- `make_fido_date` of the local time. -/
def makeFidoDate (tm : Tm) : CString :=
  strlcpy 32 (pad2 tm.mday ++ ' ' :: (monthsOut.getD tm.mon [] ++ ' ' :: (pad2 ((tm.year - 1900).tmod 100) ++
    ' ' :: ' ' :: (pad2 tm.hour ++ ':' :: (pad2 tm.min ++ ':' :: pad2 tm.sec)))))

/-- The header of both writers. -/
def fidoHeader (fromName toName subject date : CString) (orig dest : FtnAddress) (attr : Int) : List Char :=
  writeFixedField 36 fromName ++ writeFixedField 36 toName ++ writeFixedField 72 subject ++
    writeFixedField 20 date ++
    -- times read, cost, the replies and the two addresses
    [0, dest.node, orig.node, 0, orig.net, dest.net, dest.zone, orig.zone, dest.point, orig.point, 0, attr,
      0].flatMap writeU16Le

/-! ## The body -/

/-- What the installation puts into a message: `sklaff_version`, `SKLAFF_ID` and `SKLAFF_LOC`. -/
structure Site where
  version : CString
  id : CString
  loc : CString

/-- The local time, and the `%z` of `strftime`. -/
structure Clock where
  tm : Tm
  zone : CString

def kludge (key value : CString) : CString := '\x01' :: (key ++ value)

def sklaffVersionNoBuild (version : CString) : CString :=
  let out := strlcpy 64 version
  match strstr out "(#".toList with
  | some p => out.take (out.length - p.length)
  | none => out

def originLines (site : Site) (orig : FtnAddress) : List CString :=
  ["--- SklaffKOM v".toList ++ sklaffVersionNoBuild site.version,
    " * Origin: ".toList ++ site.id ++ ", ".toList ++ site.loc ++ " (".toList ++ makeFtnAddr orig ++ [')']]

def crText (body : CString) : List Char := body.map fun c => if c = '\n' then '\r' else c

/-- The kludges that both writers put behind the `MSGID`. -/
def commonKludges (clock : Clock) (msgid reply : CString) : List CString :=
  kludge "MSGID: ".toList msgid :: ((if reply = [] then [] else [kludge "REPLY: ".toList reply]) ++
    [kludge "PID: SklaffKOM ftntoss".toList [], kludge "CHRS: UTF-8 4".toList [],
      kludge "TZUTC: ".toList clock.zone, []])

/-- `write_fido_msg_out`; `none` is -1. -/
def writeFidoMsgOut (site : Site) (clock : Clock) (orig dest : FtnAddress)
    (fromName toName subject body reply msgid : CString) : Option (List Char) :=
  if msgid = [] then none
  else some (fidoHeader fromName toName subject (makeFidoDate clock.tm) orig dest 0x0100 ++
    bodyOf ['\r'] (commonKludges clock msgid reply) ++ crText body ++ ['\r'] ++
    '\r' :: bodyOf ['\r'] (originLines site orig) ++ ['\x00'])

def bossAddr (a : FtnAddress) : CString :=
  strlcpy 64 (decimal a.zone ++ ':' :: (decimal a.net ++ '/' :: decimal a.node))

/-- The kludges of `write_fido_netmail_out` before the `MSGID`. -/
def routeKludges (orig dest : FtnAddress) : List CString :=
  kludge "INTL ".toList (bossAddr dest ++ ' ' :: bossAddr orig) ::
    ((if dest.point ≠ 0 then [kludge "TOPT ".toList (decimal dest.point)] else []) ++
      (if orig.point ≠ 0 then [kludge "FMPT ".toList (decimal orig.point)] else []))

/-- `write_fido_netmail_out`; `none` is -1. -/
def writeFidoNetmailOut (site : Site) (clock : Clock) (job : NetmailJob) (fromName : CString)
    (orig dest : FtnAddress) (msgid : CString) : Option (List Char) :=
  if msgid = [] then none
  else some (fidoHeader fromName (sf7ToUtf8 job.toname) (sf7ToUtf8 job.subject) (makeFidoDate clock.tm) orig
      dest 0x0101 ++
    bodyOf ['\r'] (routeKludges orig dest) ++ bodyOf ['\r'] (commonKludges clock msgid job.reply) ++
    crText (sf7ToUtf8 job.body) ++ '\r' :: bodyOf ['\r'] (originLines site orig) ++ ['\x00'])

/-! ## What is expected -/

/-- The lines of a text, the last one up to the end. -/
def textLines (body : CString) : List CString := splitLines (body ++ ['\n'])

/-- The message as it is read: the fields cut to their sizes, and the lines that are shown. -/
def readMessage (clock : Clock) (fromName toName subject msgid reply : CString) (lines : List CString) :
    FidoMsg where
  fromName := trimEnd isSpace (fixedText 36 fromName)
  toName := trimEnd isSpace (fixedText 36 toName)
  subject := trimEnd isSpace (fixedText 72 subject)
  date := trimEnd isSpace (fixedText 20 (makeFidoDate clock.tm))
  chrs := "UTF-8 4".toList
  msgid := msgid
  reply := reply
  tid := []
  tzutc := clock.zone
  rawBody := unlines lines
  cleanBody := unlines ((lines.filter fun l => !shouldHideCleanLine l).map stripPipeColors)

/-- A value of a kludge that the reader keeps. -/
structure KludgeValue (size : Nat) (v : CString) : Prop where
  chars : OneLine v
  head : ∀ c ∈ v.head?, isBlank c = false
  fits : v.length + 2 ≤ size

/-- A line that the reader takes for text. -/
structure TextLine (l : CString) : Prop extends PlainLine l where
  text : l.head? ≠ some '\x01'

/-! ## Fields -/

theorem cutBack_le (src : CString) (n : Nat) : cutBack src n ≤ n := by
  induction n with
  | zero => exact Nat.le_refl 0
  | succ n ih =>
    rw [cutBack]
    split
    · exact ih.trans (Nat.le_succ n)
    · exact Nat.le_refl _

theorem length_fixedText_lt {len : Nat} (hlen : 0 < len) (src : CString) :
    (fixedText len src).length < len := by
  unfold fixedText
  rw [List.length_take]
  split
  · omega
  · have hcut := cutBack_le src (len - 1)
    omega

theorem length_writeFixedField {len : Nat} (hlen : 0 < len) (src : CString) :
    (writeFixedField len src).length = len := by
  have hlt := length_fixedText_lt hlen src
  unfold writeFixedField
  rw [List.length_append, List.length_replicate]
  omega

/-- A field is read back up to the blanks at its end. -/
theorem copyField_writeFixedField {len : Nat} (hlen : 0 < len) {src : CString} (hnul : '\x00' ∉ src)
    (rest : List Char) :
    copyField len (writeFixedField len src ++ rest) = trimEnd isSpace (fixedText len src) := by
  have hlt := length_fixedText_lt hlen src
  have hsub : '\x00' ∉ fixedText len src := fun h => hnul (List.mem_of_mem_take h)
  obtain ⟨k, hk⟩ : ∃ k, len - (fixedText len src).length = k + 1 :=
    ⟨len - (fixedText len src).length - 1, by omega⟩
  unfold copyField
  rw [List.take_left' (length_writeFixedField hlen src), writeFixedField, hk, List.replicate_succ,
    List.takeWhile_append_of_pos fun c hc => by
      have hne : c ≠ '\x00' := fun h => hsub (h ▸ hc)
      simpa using hne,
    List.takeWhile_cons_of_neg (by simp), List.append_nil]

/-! ## Lines -/

theorem splitLines_append {c : Char} (hc : isEol c = true) (a b : CString) :
    splitLines (a ++ c :: b) = splitLines (a ++ [c]) ++ splitLines b := by
  induction a with
  | nil => simp [splitLines, hc]
  | cons d a ih =>
    by_cases hd : isEol d = true
    · simp only [List.cons_append, splitLines, if_pos hd, ih]
    · have hne : splitLines (a ++ [c]) ≠ [] := by
        cases a with
        | nil => simp [splitLines, hc]
        | cons e a =>
          rw [List.cons_append, splitLines]
          split
          · exact List.cons_ne_nil _ _
          · split
            · exact List.cons_ne_nil _ _
            · exact List.cons_ne_nil _ _
      obtain ⟨l, ls, hls⟩ := List.exists_cons_of_ne_nil hne
      rw [List.cons_append, List.cons_append, splitLines, if_neg hd, splitLines, if_neg hd, ih, hls]
      rfl

theorem splitLines_bodyOf {c : Char} (hc : isEol c = true) {ls : List CString} (h : ∀ l ∈ ls, PlainLine l)
    (s : CString) : splitLines (bodyOf [c] ls ++ s) = ls ++ splitLines s := by
  induction ls with
  | nil => rfl
  | cons l ls ih =>
    rw [bodyOf_cons, List.append_assoc, List.append_assoc, List.singleton_append,
      splitLines_line (fun d hd => ((h l List.mem_cons_self).chars d hd).1) hc,
      ih fun l' hl' => h l' (List.mem_cons_of_mem _ hl')]
    rfl

/-- The lines do not depend on which line end is used. -/
theorem splitLines_crText (s : CString) : splitLines (crText s) = splitLines s := by
  induction s with
  | nil => rfl
  | cons c s ih =>
    rw [crText, List.map_cons]
    change splitLines (_ :: crText s) = _
    by_cases hnl : c = '\n'
    · subst hnl
      rw [if_pos rfl, splitLines, if_pos (show isEol '\r' = true from rfl), splitLines,
        if_pos (show isEol '\n' = true from rfl), ih]
    · rw [if_neg hnl, splitLines, splitLines, ih]

theorem textLines_eq (body rest : CString) :
    splitLines (crText body ++ '\r' :: rest) = textLines body ++ splitLines rest := by
  rw [splitLines_append rfl]
  congr 1
  have hend : crText body ++ ['\r'] = crText (body ++ ['\n']) := by simp [crText]
  rw [hend, splitLines_crText]
  rfl

theorem noNul_crText {s : CString} (h : '\x00' ∉ s) : '\x00' ∉ crText s := by
  intro hin
  obtain ⟨c, hc, heq⟩ := List.mem_map.mp hin
  split at heq
  · cases heq
  · exact h (heq ▸ hc)

theorem noNul_bodyOf {ls : List CString} (h : ∀ l ∈ ls, PlainLine l) : '\x00' ∉ bodyOf ['\r'] ls := by
  intro hin
  obtain ⟨l, hl, hc⟩ := List.mem_flatMap.mp hin
  rcases List.mem_append.mp hc with hc | hc
  · exact ((h l hl).chars _ hc).2 rfl
  · cases List.mem_singleton.mp hc

/-- The lines of a written message: kludges, the text, and the last lines. -/
theorem bodyLines_written {ks tail : List CString} {body : CString} (hks : ∀ l ∈ ks, PlainLine l)
    (htail : ∀ l ∈ tail, PlainLine l) (hbody : ∀ l ∈ textLines body, PlainLine l) (hnul : '\x00' ∉ body) :
    bodyLines (bodyOf ['\r'] ks ++ crText body ++ '\r' :: bodyOf ['\r'] tail ++ ['\x00']) =
      ks ++ textLines body ++ tail := by
  have hclean : ∀ c ∈ bodyOf ['\r'] ks ++ crText body ++ '\r' :: bodyOf ['\r'] tail, c ≠ '\x00' := by
    intro c hc heq
    subst heq
    simp only [List.mem_append, List.mem_cons] at hc
    rcases hc with (hc | hc) | hc | hc
    · exact noNul_bodyOf hks hc
    · exact noNul_crText hnul hc
    · cases hc
    · exact noNul_bodyOf htail hc
  unfold bodyLines
  rw [List.takeWhile_append_of_pos fun c hc => by simpa using hclean c hc,
    List.takeWhile_cons_of_neg (by simp), List.append_nil, List.append_assoc, splitLines_bodyOf rfl hks,
    textLines_eq, ← List.append_nil (bodyOf ['\r'] tail), splitLines_bodyOf rfl htail]
  have hall : ∀ l ∈ ks ++ (textLines body ++ (tail ++ splitLines [])), PlainLine l := by
    intro l hl
    simp only [splitLines, List.append_nil, List.mem_append] at hl
    rcases hl with hl | hl | hl
    · exact hks l hl
    · exact hbody l hl
    · exact htail l hl
  rw [map_take_lines hall]
  simp [splitLines]

/-! ## Reading the lines -/

theorem foldl_bodyLine_text {ls : List CString} (h : ∀ l ∈ ls, l.head? ≠ some '\x01') (msg : FidoMsg) :
    ls.foldl bodyLine msg = { msg with
      rawBody := msg.rawBody ++ unlines ls
      cleanBody :=
        msg.cleanBody ++ unlines ((ls.filter fun l => !shouldHideCleanLine l).map stripPipeColors) } := by
  induction ls generalizing msg with
  | nil => simp [unlines]
  | cons l ls ih =>
    have hl : parseKludge msg l = msg := by
      have hhead := h l List.mem_cons_self
      unfold parseKludge
      split
      · exact absurd rfl hhead
      · rfl
    have hline : bodyLine msg l = { msg with
        rawBody := msg.rawBody ++ l ++ ['\n']
        cleanBody := if shouldHideCleanLine l then msg.cleanBody
          else msg.cleanBody ++ stripPipeColors l ++ ['\n'] } := by
      unfold bodyLine
      rw [hl]
      dsimp only
      split
      · rfl
      · rfl
    rw [List.foldl_cons, hline, ih fun l' hl' => h l' (List.mem_cons_of_mem _ hl')]
    by_cases hhide : shouldHideCleanLine l = true
    · simp [hhide, unlines]
    · simp [hhide, unlines]

theorem kludgeValue_kept {size : Nat} {v : CString} (h : KludgeValue size v) :
    kludgeValue size (' ' :: v) = v := by
  have hfits := h.fits
  unfold kludgeValue strlcpy trimLeadingSpaces
  rw [List.take_of_length_le (by rw [List.length_cons]; omega), List.dropWhile_cons_of_pos rfl]
  cases v with
  | nil => rfl
  | cons c v => exact List.dropWhile_cons_of_neg (by rw [h.head c rfl]; simp)

/-- A kludge line is kept in the raw body only. -/
theorem bodyLine_kludge (msg : FidoMsg) (p : CString) : bodyLine msg ('\x01' :: p) =
    { parseKludge msg ('\x01' :: p) with rawBody := msg.rawBody ++ ('\x01' :: p) ++ ['\n'] } := by
  have hhide : shouldHideCleanLine ('\x01' :: p) = true := rfl
  unfold bodyLine
  dsimp only
  rw [if_pos hhide, parseKludge_rawBody]

/-- Kludges that the reader does not know. -/
theorem foldl_routeKludges (orig dest : FtnAddress) (msg : FidoMsg) :
    (routeKludges orig dest).foldl bodyLine msg =
      { msg with rawBody := msg.rawBody ++ unlines (routeKludges orig dest) } := by
  have hroute (msg : FidoMsg) : ∀ l ∈ routeKludges orig dest, bodyLine msg l =
      { msg with rawBody := msg.rawBody ++ l ++ ['\n'] } := by
    intro l hl
    simp only [routeKludges, List.mem_cons, List.mem_append, List.mem_ite_nil_right, List.not_mem_nil,
      or_false] at hl
    rcases hl with rfl | ⟨-, rfl⟩ | ⟨-, rfl⟩
    · exact bodyLine_kludge msg _
    · exact bodyLine_kludge msg _
    · exact bodyLine_kludge msg _
  generalize routeKludges orig dest = ls at hroute
  induction ls generalizing msg with
  | nil => simp [unlines]
  | cons l ls ih =>
    rw [List.foldl_cons, hroute msg l List.mem_cons_self,
      ih _ fun m l' hl' => hroute m l' (List.mem_cons_of_mem _ hl')]
    simp [unlines]

theorem foldl_commonKludges {clock : Clock} {msgid reply : CString} (hmsgid : KludgeValue 256 msgid)
    (hreply : KludgeValue 256 reply) (hzone : KludgeValue 64 clock.zone) {msg : FidoMsg}
    (hnew : msg.reply = []) :
    (commonKludges clock msgid reply).foldl bodyLine msg = { msg with
      chrs := "UTF-8 4".toList
      msgid := msgid
      reply := reply
      tzutc := clock.zone
      rawBody := msg.rawBody ++ unlines (commonKludges clock msgid reply)
      cleanBody := msg.cleanBody ++ ['\n'] } := by
  have hid (m : FidoMsg) : parseKludge m (kludge "MSGID: ".toList msgid) = { m with msgid := msgid } := by
    show { m with msgid := kludgeValue 256 (' ' :: msgid) } = _
    rw [kludgeValue_kept hmsgid]
  have hrep (m : FidoMsg) : parseKludge m (kludge "REPLY: ".toList reply) = { m with reply := reply } := by
    show { m with reply := kludgeValue 256 (' ' :: reply) } = _
    rw [kludgeValue_kept hreply]
  have htz (m : FidoMsg) :
    parseKludge m (kludge "TZUTC: ".toList clock.zone) = { m with tzutc := clock.zone } := by
    show { m with tzutc := kludgeValue 64 (' ' :: clock.zone) } = _
    rw [kludgeValue_kept hzone]
  have hpid (m : FidoMsg) : parseKludge m (kludge "PID: SklaffKOM ftntoss".toList []) = m := rfl
  have hchrs (m : FidoMsg) :
    parseKludge m (kludge "CHRS: UTF-8 4".toList []) = { m with chrs := "UTF-8 4".toList } :=
    rfl
  have hline (m : FidoMsg) (key value : CString) : bodyLine m (kludge key value) =
      { parseKludge m (kludge key value) with rawBody := m.rawBody ++ kludge key value ++ ['\n'] } :=
    bodyLine_kludge m _
  have hempty (m : FidoMsg) : bodyLine m [] =
      { m with rawBody := m.rawBody ++ ['\n'], cleanBody := m.cleanBody ++ ['\n'] } := by
    simp [bodyLine, parseKludge, shouldHideCleanLine, stripPipeColors]
  unfold commonKludges
  by_cases hr : reply = []
  · simp only [if_pos hr, List.nil_append, List.foldl_cons, List.foldl_nil, hline, hid, hpid, hchrs, htz,
      hempty]
    simp [unlines, hnew, hr]
  · simp only [if_neg hr, List.singleton_append, List.foldl_cons, List.foldl_nil, hline, hid, hrep, hpid,
      hchrs, htz,
      hempty]
    simp [unlines]

/-! ## Reading a written message -/

theorem length_fidoHeader (fromName toName subject date : CString) (orig dest : FtnAddress) (attr : Int) :
    (fidoHeader fromName toName subject date orig dest attr).length = fidoHdrSize := by
  unfold fidoHeader
  simp only [List.length_append, length_writeFixedField (show 0 < 36 by decide),
    length_writeFixedField (show 0 < 72 by decide), length_writeFixedField (show 0 < 20 by decide),
    List.flatMap_cons, List.flatMap_nil, writeU16Le, List.length_cons, List.length_nil, fidoHdrSize]

/-- A header in front of a body is read back. -/
theorem readFidoMsg_header {fromName toName subject date : CString} (hfrom : '\x00' ∉ fromName)
    (hto : '\x00' ∉ toName) (hsubject : '\x00' ∉ subject) (hdate : '\x00' ∉ date) (orig dest : FtnAddress)
    (attr : Int) (body : List Char) :
    readFidoMsg (some (fidoHeader fromName toName subject date orig dest attr ++ body)) =
      some ((bodyLines body).foldl bodyLine
        ⟨trimEnd isSpace (fixedText 36 fromName), trimEnd isSpace (fixedText 36 toName),
          trimEnd isSpace (fixedText 72 subject), trimEnd isSpace (fixedText 20 date), [], [], [], [], [],
            [], []⟩) := by
  have hlen := length_fidoHeader fromName toName subject date orig dest attr
  have h36 (src : CString) : (writeFixedField 36 src).length = 36 := length_writeFixedField (by decide) src
  have h72 : (writeFixedField 72 subject).length = 72 := length_writeFixedField (by decide) subject
  unfold readFidoMsg
  rw [Option.bind_eq_bind, Option.bind_some, if_neg (by rw [List.length_append, hlen]; omega),
    List.drop_left' hlen,
    processBody_lines]
  unfold fidoHeader
  generalize [0, dest.node, orig.node, 0, orig.net, dest.net, dest.zone, orig.zone, dest.point,
    orig.point, 0, attr,
    0].flatMap writeU16Le = nums
  have hfrom' := copyField_writeFixedField (show 0 < 36 by decide) hfrom
  have hto' := copyField_writeFixedField (show 0 < 36 by decide) hto
  have hsubject' := copyField_writeFixedField (show 0 < 72 by decide) hsubject
  have hdate' := copyField_writeFixedField (show 0 < 20 by decide) hdate
  have hto36 (rest : List Char) :
      (writeFixedField 36 fromName ++ rest).drop 36 = rest := List.drop_left' (h36 fromName)
  have hsub72 (rest : List Char) :
      (writeFixedField 36 fromName ++ (writeFixedField 36 toName ++ rest)).drop 72 = rest := by
    rw [← List.append_assoc]
    exact List.drop_left' (by rw [List.length_append, h36, h36])
  have hdate144 (rest : List Char) :
      (writeFixedField 36 fromName ++
      (writeFixedField 36 toName ++ (writeFixedField 72 subject ++ rest))).drop 144 =
        rest := by
    rw [← List.append_assoc, ← List.append_assoc]
    exact List.drop_left' (by rw [List.length_append, List.length_append, h36, h36, h72])
  simp only [List.append_assoc, hfrom', hto36, hto', hsub72, hsubject', hdate144, hdate']
  rfl

/-! ## Plain lines -/

theorem oneLine_append {a b : CString} (ha : OneLine a) (hb : OneLine b) : OneLine (a ++ b) := by
  intro c hc
  rcases List.mem_append.mp hc with hc | hc
  · exact ha c hc
  · exact hb c hc

theorem oneLine_of_all {s : CString} (h : s.all (fun c => !isEol c && c ≠ '\x00') = true) : OneLine s :=
  fun c hc => by simpa using List.all_eq_true.mp h c hc

theorem oneLine_decimal (n : Int) : OneLine (decimal n) := by
  intro c hc
  rcases mem_decimal hc with hd | rfl
  · refine ⟨?_, fun h => by rw [h] at hd; revert hd; decide⟩
    by_contra heol
    simp only [isEol, Bool.not_eq_false, Bool.or_eq_true, decide_eq_true_eq] at heol
    rcases heol with rfl | rfl <;> revert hd <;> decide
  · decide

theorem plainLine_kludge {key value : CString} (hkey : OneLine key) (hvalue : OneLine value)
    (hfits : key.length + value.length < 4000) : PlainLine (kludge key value) := by
  constructor
  · intro c hc
    rcases List.mem_cons.mp hc with rfl | hc
    · decide
    · exact oneLine_append hkey hvalue c hc
  · show (key ++ value).length + 1 < 4096
    rw [List.length_append]
    omega

theorem oneLine_bossAddr (a : FtnAddress) : OneLine (bossAddr a) := by
  intro c hc
  have hsep (d : Char) (hd : d = ':' ∨ d = '/') : isEol d = false ∧ d ≠ '\x00' := by
    rcases hd with rfl | rfl <;> decide
  have hmem := List.mem_of_mem_take hc
  simp only [List.mem_append, List.mem_cons] at hmem
  rcases hmem with h | h | h | h | h
  · exact oneLine_decimal _ c h
  · exact hsep c (Or.inl h)
  · exact oneLine_decimal _ c h
  · exact hsep c (Or.inr h)
  · exact oneLine_decimal _ c h

theorem plainLine_routeKludges {orig dest : FtnAddress} (horig : orig.InRange) (hdest : dest.InRange) :
    ∀ l ∈ routeKludges orig dest, PlainLine l := by
  have hpoint (n : Int) (hn : 0 ≤ n ∧ n ≤ 65535) : (decimal n).length ≤ 11 :=
    length_decimal (by decide) (by omega)
  have hboss (a : FtnAddress) : (bossAddr a).length ≤ 63 := List.length_take_le _ _
  intro l hl
  simp only [routeKludges, List.mem_cons, List.mem_append, List.mem_ite_nil_right, List.not_mem_nil,
    or_false] at hl
  rcases hl with rfl | ⟨-, rfl⟩ | ⟨-, rfl⟩
  · have hd := hboss dest
    have ho := hboss orig
    refine plainLine_kludge (oneLine_of_all rfl) ?_ ?_
    · intro c hc
      simp only [List.mem_append, List.mem_cons] at hc
      rcases hc with hc | rfl | hc
      · exact oneLine_bossAddr _ c hc
      · decide
      · exact oneLine_bossAddr _ c hc
    · show 5 + (bossAddr dest ++ ' ' :: bossAddr orig).length < 4000
      rw [List.length_append, List.length_cons]
      omega
  · have hp := hpoint _ hdest.point
    refine plainLine_kludge (oneLine_of_all rfl) (oneLine_decimal _) ?_
    show 5 + (decimal dest.point).length < 4000
    omega
  · have hp := hpoint _ horig.point
    refine plainLine_kludge (oneLine_of_all rfl) (oneLine_decimal _) ?_
    show 5 + (decimal orig.point).length < 4000
    omega

theorem plainLine_commonKludges {clock : Clock} {msgid reply : CString} (hmsgid : KludgeValue 256 msgid)
    (hreply : KludgeValue 256 reply) (hzone : KludgeValue 64 clock.zone) :
    ∀ l ∈ commonKludges clock msgid reply, PlainLine l := by
  have hvalue {size : Nat} {key v : CString} (hkey : OneLine key) (hlen : key.length ≤ 10) (hsize : size ≤ 256)
      (h : KludgeValue size v) : PlainLine (kludge key v) := by
    have hfits := h.fits
    exact plainLine_kludge hkey h.chars (by omega)
  have hnil : OneLine [] := fun c hc => (List.not_mem_nil hc).elim
  intro l hl
  simp only [commonKludges, List.mem_cons, List.mem_append, List.mem_ite_nil_left, List.not_mem_nil,
    or_false] at hl
  rcases hl with rfl | ⟨-, rfl⟩ | rfl | rfl | rfl | rfl
  · exact hvalue (oneLine_of_all rfl) (by decide) (by decide) hmsgid
  · exact hvalue (oneLine_of_all rfl) (by decide) (by decide) hreply
  · exact plainLine_kludge (oneLine_of_all rfl) hnil (by decide)
  · exact plainLine_kludge (oneLine_of_all rfl) hnil (by decide)
  · exact hvalue (oneLine_of_all rfl) (by decide) (by decide) hzone
  · exact ⟨hnil, by decide⟩

theorem notMem_makeFidoDate {c : Char} (hd : c.isDigit = false) (hsep : c ≠ '-' ∧ c ≠ ' ' ∧ c ≠ ':')
    (hmonths : monthsOut.all (fun m => decide (c ∉ m)) = true) (tm : Tm) : c ∉ makeFidoDate tm := by
  have hzero : c ≠ '0' := by
    rintro rfl
    cases hd
  have hpad (n : Int) : c ∉ pad2 n := by
    have hdec : c ∉ decimal n := notMem_decimal hd hsep.1
    unfold pad2
    split
    · simpa [hzero] using hdec
    · exact hdec
  have hmon : c ∉ monthsOut[tm.mon]?.getD [] := by
    cases h : monthsOut[tm.mon]? with
    | none => exact List.not_mem_nil
    | some m => simpa using List.all_eq_true.mp hmonths m (List.mem_of_getElem? h)
  intro h
  have hmem := List.mem_of_mem_take h
  simp [hpad, hmon, hsep] at hmem

/-! ## What is read -/

/-- What the writers take from the installation and the clock. -/
structure Prints (site : Site) (clock : Clock) (orig : FtnAddress) : Prop where
  tail : ∀ l ∈ originLines site orig, TextLine l
  zone : KludgeValue 64 clock.zone

/-- A text as the writers get it. -/
structure PlainBody (body : CString) : Prop where
  lines : ∀ l ∈ textLines body, TextLine l
  noNul : '\x00' ∉ body

theorem filter_routeKludges (orig dest : FtnAddress) :
    (routeKludges orig dest).filter (fun l => !shouldHideCleanLine l) = [] := by
  rw [List.filter_eq_nil_iff]
  intro l hl
  simp only [routeKludges, List.mem_cons, List.mem_append, List.mem_ite_nil_right, List.not_mem_nil,
    or_false] at hl
  rcases hl with rfl | ⟨-, rfl⟩ | ⟨-, rfl⟩ <;> simp [shouldHideCleanLine, kludge]

theorem filter_commonKludges (clock : Clock) (msgid reply : CString) :
    (commonKludges clock msgid reply).filter (fun l => !shouldHideCleanLine l) = [[]] := by
  have hkludge (key value : CString) : (!shouldHideCleanLine (kludge key value)) = false := rfl
  have hnil : (!shouldHideCleanLine []) = true := rfl
  unfold commonKludges
  split <;> simp [hkludge, hnil]

section Read

variable {site : Site} {clock : Clock} {orig dest : FtnAddress}
variable {fromName toName subject body reply msgid : CString} {attr : Int}

/-- Kludges, text and last lines behind a header are read line by line. -/
theorem readFidoMsg_written (hprints : Prints site clock orig) (hbody : PlainBody body)
    (hmsgid : KludgeValue 256 msgid) (hreply : KludgeValue 256 reply) (hfrom : '\x00' ∉ fromName)
    (hto : '\x00' ∉ toName) (hsubject : '\x00' ∉ subject) {route tail : List CString}
    (hroute : route = [] ∨ route = routeKludges orig dest ∧ orig.InRange ∧ dest.InRange)
    (htail : ∀ l ∈ tail, TextLine l) :
    readFidoMsg (some (fidoHeader fromName toName subject (makeFidoDate clock.tm) orig dest attr ++
        (bodyOf ['\r'] (route ++ commonKludges clock msgid reply) ++ crText body ++
        '\r' :: bodyOf ['\r'] tail ++
          ['\x00']))) =
      some (readMessage clock fromName toName subject msgid reply
        (route ++ commonKludges clock msgid reply ++ textLines body ++ tail)) := by
  have hks : ∀ l ∈ route ++ commonKludges clock msgid reply, PlainLine l := by
    intro l hl
    rcases List.mem_append.mp hl with hl | hl
    · rcases hroute with rfl | ⟨rfl, horig, hdest⟩
      · exact absurd hl List.not_mem_nil
      · exact plainLine_routeKludges horig hdest l hl
    · exact plainLine_commonKludges hmsgid hreply hprints.zone l hl
  have hroutes (msg : FidoMsg) :
    route.foldl bodyLine msg = { msg with rawBody := msg.rawBody ++ unlines route } ∧
      route.filter (fun l => !shouldHideCleanLine l) = [] := by
    rcases hroute with rfl | ⟨rfl, -, -⟩
    · simp [unlines]
    · exact ⟨foldl_routeKludges orig dest msg, filter_routeKludges orig dest⟩
  rw [readFidoMsg_header hfrom hto hsubject (notMem_makeFidoDate rfl (by decide) rfl _),
    bodyLines_written hks (fun l hl => (htail l hl).toPlainLine) (fun l hl => (hbody.lines l hl).toPlainLine)
      hbody.noNul,
    List.foldl_append, List.foldl_append, List.foldl_append, (hroutes _).1,
    foldl_commonKludges hmsgid hreply hprints.zone rfl, foldl_bodyLine_text fun l hl => (hbody.lines l hl).text,
    foldl_bodyLine_text fun l hl => (htail l hl).text]
  unfold readMessage
  rw [List.filter_append, List.filter_append, List.filter_append, (hroutes noBody).2, filter_commonKludges]
  simp [unlines, stripPipeColors]

/-- A netmail job that was written is read back: fields cut at a character, kludges, and lines. -/
theorem readFidoMsg_netmail {job : NetmailJob} (hprints : Prints site clock orig) (horig : orig.InRange)
    (hdest : dest.InRange) (hbody : PlainBody (sf7ToUtf8 job.body)) (hmsgid : KludgeValue 256 msgid)
    (hreply : KludgeValue 256 job.reply) (hfrom : '\x00' ∉ fromName) (hto : '\x00' ∉ sf7ToUtf8 job.toname)
    (hsubject : '\x00' ∉ sf7ToUtf8 job.subject) (hne : msgid ≠ []) :
    ∃ file, writeFidoNetmailOut site clock job fromName orig dest msgid = some file ∧
      readFidoMsg (some file) = some (readMessage clock fromName (sf7ToUtf8 job.toname) (sf7ToUtf8 job.subject)
        msgid job.reply (routeKludges orig dest ++ commonKludges clock msgid job.reply ++
          textLines (sf7ToUtf8 job.body) ++ originLines site orig)) := by
  have hread := @readFidoMsg_written site clock orig dest fromName (sf7ToUtf8 job.toname)
    (sf7ToUtf8 job.subject)
    (sf7ToUtf8 job.body) job.reply msgid 0x0101 hprints hbody hmsgid hreply hfrom hto hsubject _ _
    (Or.inr ⟨rfl, horig, hdest⟩) hprints.tail
  refine ⟨_, if_neg hne, ?_⟩
  rw [← hread]
  simp [bodyOf]

/-- An echomail message that was written is read back. -/
theorem readFidoMsg_echomail (hprints : Prints site clock orig) (hbody : PlainBody body)
    (hmsgid : KludgeValue 256 msgid) (hreply : KludgeValue 256 reply) (hfrom : '\x00' ∉ fromName)
    (hto : '\x00' ∉ toName) (hsubject : '\x00' ∉ subject) (hne : msgid ≠ []) :
    ∃ file, writeFidoMsgOut site clock orig dest fromName toName subject body reply msgid = some file ∧
      readFidoMsg (some file) = some (readMessage clock fromName toName subject msgid reply
        (commonKludges clock msgid reply ++ textLines body ++ [] :: originLines site orig)) := by
  have htail : ∀ l ∈ [] :: originLines site orig, TextLine l := by
    intro l hl
    rcases List.mem_cons.mp hl with rfl | hl
    · exact ⟨⟨fun c hc => (List.not_mem_nil hc).elim, by decide⟩, by simp⟩
    · exact hprints.tail l hl
  have hread :=
    @readFidoMsg_written site clock orig dest fromName toName subject body reply msgid 0x0100 hprints
    hbody hmsgid hreply hfrom hto hsubject [] _ (Or.inl rfl) htail
  refine ⟨_, if_neg hne, ?_⟩
  rw [List.nil_append] at hread
  rw [← hread]
  simp [bodyOf]

end Read

end SklaffKom
