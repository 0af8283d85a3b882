import SklaffKom.Lib.Substrings
import SklaffKom.MailParse

/-!
# The body of a mail

`mailbody.c` chooses the best readable part of a MIME message and decodes it.
`extract_best_part_rec` walks through the parts between the delimiters and calls itself on a copy of
a part that is a multipart.
-/

open CString

namespace SklaffKom

/-! ## Headers -/

def ciStrstr (haystack : CString) (needle : String) : Option CString :=
  haystack.tails.find? (hasPrefixCase needle.toList)

def headerValue (headers name : CString) : Option CString := headerField name (headers.splitOn '\n')

def paramValue (s : CString) (name : String) : Option CString := do
  let p ← ciStrstr s name
  match (p.drop name.length).dropWhile isSpace with
  | '=' :: p =>
    match p.dropWhile isSpace with
    | '"' :: p => (cutAt '"' p).map Prod.fst
    | p => some (p.takeWhile fun c => c ≠ ';' && !isSpace c)
  | _ => none

/-- `struct part`; `body_len` is the length of the body. -/
structure MailPart where
  ctype : CString
  charset : CString
  cte : CString
  body : CString
deriving DecidableEq

def parsePartHeaders (headers : CString) : MailPart :=
  let ct := headerValue headers "Content-Type".toList
  { ctype := match ct with
      | some ct => trim (ct.takeWhile (· ≠ ';'))
      | none => "text/plain".toList
    charset := (ct.bind (paramValue · "charset")).getD "utf-8".toList
    cte := (headerValue headers "Content-Transfer-Encoding".toList).getD "7bit".toList
    body := [] }

def isMultipartType (ctype : CString) : Bool := ciStrstr ctype "multipart/" = some ctype

/-! ## Decoding -/

def decodeQp : CString → CString
  | '=' :: a :: b :: r =>
    if a = '\r' ∧ b = '\n' then decodeQp r
    else if a = '\n' then decodeQp (b :: r)
    else
      match hexval a, hexval b with
      | some hi, some lo => Char.ofNat ((hi <<< 4) ||| lo) :: decodeQp r
      | _, _ => '=' :: decodeQp (a :: b :: r)
  | c :: r => c :: decodeQp r
  | [] => []

/-- The loop of `decode_base64`; `val` is an `int`. -/
def decodeBase64Loop (val : Nat) (valb : Int) : CString → CString
  | [] => []
  | c :: r =>
    if c = '=' then []
    else
      match b64val c with
      | none => decodeBase64Loop val valb r
      | some d =>
        let val := ((val <<< 6) ||| d) % 2 ^ 32
        let valb := valb + 6
        if 0 ≤ valb then
          Char.ofNat ((val >>> valb.toNat) % 256) :: decodeBase64Loop val (valb - 8) r
        else decodeBase64Loop val valb r

def decodeBase64 (s : CString) : CString := decodeBase64Loop 0 (-8) s

def decodeBody (body cte charset : CString) : CString :=
  let tmp := if (ciStrstr cte "quoted-printable").isSome then decodeQp body
    else if (ciStrstr cte "base64").isSome then decodeBase64 body
    else body
  if (ciStrstr charset "iso-8859-1").isSome ∨ (ciStrstr charset "latin1").isSome ∨
      (ciStrstr charset "latin-1").isSome then latin1ToUtf8 tmp
  else tmp

/-- `looks_like_html` of a decoded body, which ends at its first NUL. -/
def looksLikeHtml (body : CString) : Bool :=
  let s := (stringOf body).dropWhile isSpace
  ["<!doctype html", "<html", "<body", "<table", "<div"].any (fun tag => (ciStrstr s tag).isSome) ||
    (ciStrstr s "<p").isSome && (ciStrstr s "</p>").isSome

/-- `ci_strstr(p.ctype, "text/html") != NULL || looks_like_html(p.body)` -/
def isHtmlish (p : MailPart) : Bool := (ciStrstr p.ctype "text/html").isSome || looksLikeHtml p.body

/-! ## The parts -/

def findBodyStart (msg : CString) : Option CString :=
  match strstr msg "\r\n\r\n".toList with
  | some p => some (p.drop 4)
  | none => (strstr msg "\n\n".toList).map (·.drop 2)

/-- `best_plain` and `best_html`. -/
structure BestParts where
  plain : Option MailPart
  html : Option MailPart

/-- The first part of each kind is kept. -/
def BestParts.store (best : BestParts) (p : MailPart) : BestParts :=
  if isHtmlish p then { best with html := best.html.or (some p) }
  else if (ciStrstr p.ctype "text/plain").isSome then { best with plain := best.plain.or (some p) }
  else best

/-- The part that is selected, with `selected_reason`. -/
def BestParts.select (best : BestParts) : Option (MailPart × String) :=
  match best.plain, best.html with
  | some plain, some html =>
    if looksLikeHtml plain.body then some (html, "html via text/plain fallback")
    else some (plain, "plain text")
  | some plain, none =>
    some (plain, if looksLikeHtml plain.body then "plain text fallback" else "plain text")
  | none, some html => some (html, "html")
  | none, none => none

/-- `pos + n`; `none` is behind the NUL of the buffer. -/
def advance (n : Nat) (pos : CString) : Option CString :=
  if n ≤ pos.length then some (pos.drop n) else none

def skipLineBreak : CString → CString
  | '\r' :: '\n' :: pos => pos
  | '\n' :: pos => pos
  | pos => pos

def partMarker (boundary : CString) : CString := strlcpy 512 ("--".toList ++ boundary)

/-! ## How far a step moves -/

theorem strstr_length {s pat t : CString} (h : strstr s pat = some t) :
    t.length ≤ s.length ∧ pat.length ≤ t.length := by
  obtain ⟨hpat, a, rfl⟩ := strstr_eq_some h
  rw [List.length_append]
  exact ⟨by omega, hpat.length_le⟩

theorem findBodyStart_length {s t : CString} (h : findBodyStart s = some t) :
    t.length + 2 ≤ s.length := by
  unfold findBodyStart at h
  split at h
  · rename_i p hp
    cases h
    obtain ⟨hle, hpat⟩ := strstr_length hp
    have hfour : "\r\n\r\n".toList.length = 4 := by decide
    rw [List.length_drop]
    omega
  · obtain ⟨p, hp, rfl⟩ := Option.map_eq_some_iff.mp h
    obtain ⟨hle, hpat⟩ := strstr_length hp
    have htwo : "\n\n".toList.length = 2 := by decide
    rw [List.length_drop]
    omega

theorem advance_length {n : Nat} {s t : CString} (h : advance n s = some t) :
    t.length + n = s.length := by
  unfold advance at h
  split at h
  · cases h
    rw [List.length_drop]
    omega
  · cases h

theorem skipLineBreak_length (s : CString) : (skipLineBreak s).length ≤ s.length := by
  unfold skipLineBreak
  split
  · simp only [List.length_cons]
    omega
  · simp only [List.length_cons]
    omega
  · exact Nat.le_refl _

theorem length_before_le (s t : CString) : (before s t).length ≤ s.length :=
  List.length_take_le' _ _

theorem nextPart_length (marker s : CString) : ((strstr s marker).getD []).length ≤ s.length := by
  cases h : strstr s marker with
  | none => exact Nat.zero_le _
  | some t => exact (strstr_length h).1

theorem part_length {n : Nat} {marker pos pos' partBody : CString} (hpos : advance n pos = some pos')
    (hbody : findBodyStart (skipLineBreak pos') = some partBody) :
    (before (skipLineBreak pos') ((strstr partBody marker).getD [])).length ≤ pos.length ∧
      ((strstr partBody marker).getD []).length < pos.length := by
  have hadvance := advance_length hpos
  have hskip := skipLineBreak_length pos'
  have hstart := findBodyStart_length hbody
  have hnext := nextPart_length marker partBody
  have hcopy := length_before_le (skipLineBreak pos') ((strstr partBody marker).getD [])
  exact ⟨by omega, by omega⟩

/-! ## The walk -/

mutual
/-- `extract_best_part_rec`: `none` is a position behind the NUL, and `some none` is -1. -/
def extractBestPartRec (msg : CString) : Option (Option (MailPart × String)) :=
  match _hbody : findBodyStart msg with
  | none => some none
  | some bodyStart =>
    let headers := before msg bodyStart
    let container := parsePartHeaders headers
    let boundary := (headerValue headers "Content-Type".toList).bind (paramValue · "boundary")
    match isMultipartType container.ctype, boundary with
    | true, some boundary =>
      match _hpos : strstr bodyStart (partMarker boundary) with
      | none => some (BestParts.select ⟨none, none⟩)
      | some pos => (partLoop (partMarker boundary) pos ⟨none, none⟩).map BestParts.select
    | _, _ =>
      some (some ({ container with body := decodeBody bodyStart container.cte container.charset },
        "single part"))
termination_by 2 * msg.length + 1
decreasing_by
  have hbody := findBodyStart_length _hbody
  have hpos := (strstr_length _hpos).1
  omega

/-- The loop over the parts; `pos` is at a delimiter, or at the NUL. -/
def partLoop (marker pos : CString) (best : BestParts) : Option BestParts :=
  match _hpos : advance marker.length pos with
  | none => none
  | some pos' =>
    if "--".toList.isPrefixOf pos' then some best
    else
      let partStart := skipLineBreak pos'
      match _hbody : findBodyStart partStart with
      | none => some best
      | some partBody =>
        let next := (strstr partBody marker).getD []
        let p := parsePartHeaders (before partStart partBody)
        if isMultipartType p.ctype then
          match extractBestPartRec (before partStart next) with
          | none => none
          | some none => partLoop marker next best
          | some (some (child, _)) => partLoop marker next (best.store child)
        else
          partLoop marker next
            (best.store { p with body := decodeBody (before partBody next) p.cte p.charset })
termination_by 2 * pos.length + 2
decreasing_by
  all_goals
    obtain ⟨hcopy, hnext⟩ := @part_length _ marker _ _ _ _hpos _hbody
    omega
end

/-! ## Messages that are closed -/

/-- The message is a multipart with a delimiter: `pos` is the first one. -/
def FirstDelimiter (msg marker pos : CString) : Prop :=
  ∃ bodyStart boundary, findBodyStart msg = some bodyStart ∧
    isMultipartType (parsePartHeaders (before msg bodyStart)).ctype = true ∧
    (headerValue (before msg bodyStart) "Content-Type".toList).bind (paramValue · "boundary") =
      some boundary ∧
    marker = partMarker boundary ∧ strstr bodyStart marker = some pos

/-- A part begins at the delimiter: `start` is the part, and `body` what follows its headers. -/
def PartBegins (marker pos start body : CString) : Prop :=
  ∃ pos', pos = marker ++ pos' ∧ ¬ "--".toList <+: pos' ∧ start = skipLineBreak pos' ∧
    findBodyStart start = some body

/-- The parts from a delimiter on. -/
inductive PartAt (marker : CString) : CString → CString → CString → Prop
  | here {pos start body : CString} (h : PartBegins marker pos start body) :
      PartAt marker pos start body
  | later {pos start body next start' body' : CString} (h : PartBegins marker pos start body)
      (hnext : strstr body marker = some next) (hpart : PartAt marker next start' body') :
      PartAt marker pos start' body'

def partText (marker start body : CString) : CString := before start ((strstr body marker).getD [])

/-- The multiparts in a message, and the message. -/
inductive Within : CString → CString → Prop
  | self {msg : CString} : Within msg msg
  | part {msg marker pos start body e : CString} (hfirst : FirstDelimiter msg marker pos)
      (hpart : PartAt marker pos start body)
      (htype : isMultipartType (parsePartHeaders (before start body)).ctype = true)
      (h : Within (partText marker start body) e) : Within msg e

/-- Another delimiter follows every part of every multipart. -/
def Delimited (msg : CString) : Prop :=
  ∀ e, Within msg e → ∀ marker pos start body, FirstDelimiter e marker pos →
    PartAt marker pos start body → marker <:+: body

/-- The parts from a delimiter on, with those within them. -/
def PartsDelimited (marker pos : CString) : Prop :=
  ∀ start body, PartAt marker pos start body → marker <:+: body ∧
    (isMultipartType (parsePartHeaders (before start body)).ctype = true →
      Delimited (partText marker start body))

variable {msg marker pos pos' start body next : CString} {best : BestParts}

theorem delimited_iff :
    Delimited msg ↔ ∀ marker pos, FirstDelimiter msg marker pos → PartsDelimited marker pos := by
  constructor
  · intro h marker pos hfirst start body hpart
    refine ⟨h msg .self marker pos start body hfirst hpart, fun htype e he => ?_⟩
    exact h e (.part hfirst hpart htype he)
  · intro h e he
    cases he with
    | self =>
      intro marker pos start body hfirst hpart
      exact (h marker pos hfirst start body hpart).1
    | part hfirst hpart htype he => exact (h _ _ hfirst _ _ hpart).2 htype e he

theorem FirstDelimiter.unique {marker' : CString} (h : FirstDelimiter msg marker pos)
    (h' : FirstDelimiter msg marker' pos') : marker' = marker ∧ pos' = pos := by
  obtain ⟨b, boundary, hb, -, hboundary, rfl, hpos⟩ := h
  obtain ⟨b', boundary', hb', -, hboundary', rfl, hpos'⟩ := h'
  cases hb.symm.trans hb'
  cases hboundary.symm.trans hboundary'
  exact ⟨rfl, Option.some.inj (hpos'.symm.trans hpos)⟩

theorem PartBegins.unique {start' body' : CString} (h : PartBegins marker pos start body)
    (h' : PartBegins marker pos start' body') : start' = start ∧ body' = body := by
  obtain ⟨p, hp, -, rfl, hbody⟩ := h
  obtain ⟨p', hp', -, rfl, hbody'⟩ := h'
  cases List.append_cancel_left (hp.symm.trans hp')
  exact ⟨rfl, Option.some.inj (hbody'.symm.trans hbody)⟩

/-- The first part, and the parts from the next delimiter on. -/
theorem partsDelimited_iff (h : PartBegins marker pos start body) :
    PartsDelimited marker pos ↔ marker <:+: body ∧
      (isMultipartType (parsePartHeaders (before start body)).ctype = true →
        Delimited (partText marker start body)) ∧
      ∀ next, strstr body marker = some next → PartsDelimited marker next := by
  constructor
  · intro hall
    obtain ⟨hmarker, hnested⟩ := hall start body (.here h)
    exact ⟨hmarker, hnested, fun next hnext s b hpart => hall s b (.later h hnext hpart)⟩
  · rintro ⟨hmarker, hnested, hrest⟩ s b hpart
    cases hpart with
    | here h' =>
      obtain ⟨rfl, rfl⟩ := h.unique h'
      exact ⟨hmarker, hnested⟩
    | later h' hnext hpart =>
      obtain ⟨rfl, rfl⟩ := h.unique h'
      exact hrest _ hnext s b hpart

/-- Nothing is read behind the last delimiter. -/
theorem partsDelimited_of_not_begins (h : ∀ start body, ¬ PartBegins marker pos start body) :
    PartsDelimited marker pos := by
  intro s b hpart
  cases hpart with
  | here h' => exact absurd h' (h _ _)
  | later h' hnext hpart => exact absurd h' (h _ _)

/-! ## The loop -/

theorem advance_append (marker pos : CString) : advance marker.length (marker ++ pos) = some pos := by
  unfold advance
  rw [if_pos (by simp), List.drop_left]

theorem partLoop_end (hmarker : marker ≠ []) : partLoop marker [] best = none := by
  have hadvance : advance marker.length [] = none := by
    have hpos := List.length_pos_iff.mpr hmarker
    exact if_neg (by simpa using hmarker)
  rw [partLoop]
  split
  · rfl
  · rename_i p hp
    rw [hadvance] at hp
    cases hp

/-- The loop stops at a delimiter that no part begins at. -/
theorem partLoop_stop (h : ∀ start body, ¬ PartBegins marker (marker ++ pos) start body) :
    partLoop marker (marker ++ pos) best = some best := by
  rw [partLoop]
  split
  · rename_i hnone
    rw [advance_append] at hnone
    cases hnone
  · rename_i p hp
    rw [advance_append] at hp
    cases hp
    split
    · rfl
    · rename_i hclosing
      dsimp only
      split
      · rfl
      · rename_i body hbody
        rw [List.isPrefixOf_iff_prefix] at hclosing
        exact absurd ⟨pos, rfl, hclosing, rfl, hbody⟩ (h _ body)

/-- A part is looked at, and then the next delimiter. -/
theorem partLoop_part (h : PartBegins marker pos start body) : partLoop marker pos best =
    if isMultipartType (parsePartHeaders (before start body)).ctype then
      (extractBestPartRec (partText marker start body)).bind fun child =>
        partLoop marker ((strstr body marker).getD []) (child.elim best fun c => best.store c.1)
    else partLoop marker ((strstr body marker).getD [])
      (best.store { parsePartHeaders (before start body) with
        body := decodeBody (before body ((strstr body marker).getD []))
          (parsePartHeaders (before start body)).cte
          (parsePartHeaders (before start body)).charset }) := by
  obtain ⟨p, rfl, hclosing, rfl, hbody⟩ := h
  rw [partLoop]
  split
  · rename_i hnone
    rw [advance_append] at hnone
    cases hnone
  · rename_i p' hp
    rw [advance_append] at hp
    cases hp
    rw [if_neg (fun hc => hclosing (List.isPrefixOf_iff_prefix.mp hc))]
    dsimp only
    split
    · rename_i hnone
      rw [hbody] at hnone
      cases hnone
    · rename_i b hb
      cases hbody.symm.trans hb
      split
      · unfold partText
        cases extractBestPartRec (before (skipLineBreak p) ((strstr body marker).getD [])) with
        | none => rfl
        | some child =>
          cases child with
          | none => rfl
          | some c => rfl
      · rfl

theorem extractBestPartRec_multipart (h : FirstDelimiter msg marker pos) :
    extractBestPartRec msg = (partLoop marker pos ⟨none, none⟩).map BestParts.select := by
  obtain ⟨b, boundary, hb, htype, hboundary, rfl, hpos⟩ := h
  rw [extractBestPartRec]
  split
  · rename_i hnone
    rw [hb] at hnone
    cases hnone
  · rename_i b' hb'
    cases hb.symm.trans hb'
    dsimp only
    rw [htype, hboundary]
    dsimp only
    split
    · rename_i hnone
      rw [hpos] at hnone
      cases hnone
    · rename_i p hp
      cases hpos.symm.trans hp
      rfl

/-- A message without a delimiter has no part to walk through. -/
theorem extractBestPartRec_single (h : ∀ marker pos, ¬ FirstDelimiter msg marker pos) :
    (extractBestPartRec msg).isSome := by
  rw [extractBestPartRec]
  split
  · rfl
  · rename_i b hb
    dsimp only
    split
    · rename_i boundary htype hboundary
      split
      · rfl
      · rename_i p hp
        exact absurd ⟨b, boundary, hb, htype, hboundary, rfl, hp⟩ (h _ p)
    · rfl

theorem partMarker_ne_nil (boundary : CString) : partMarker boundary ≠ [] := by
  intro h
  have hlen := congrArg List.length h
  simp [partMarker, strlcpy] at hlen

theorem FirstDelimiter.length_lt (h : FirstDelimiter msg marker pos) : pos.length < msg.length := by
  obtain ⟨b, boundary, hb, -, -, rfl, hpos⟩ := h
  have hbody := findBodyStart_length hb
  have hle := (strstr_length hpos).1
  omega

theorem FirstDelimiter.starts (h : FirstDelimiter msg marker pos) : marker ≠ [] ∧ marker <+: pos := by
  obtain ⟨b, boundary, -, -, -, rfl, hpos⟩ := h
  exact ⟨partMarker_ne_nil boundary, (strstr_eq_some hpos).1⟩

theorem PartBegins.length_lt (hne : marker ≠ []) (h : PartBegins marker pos start body) :
    (partText marker start body).length < pos.length ∧ body.length < pos.length := by
  obtain ⟨p, rfl, -, rfl, hbody⟩ := h
  have hmarker := List.length_pos_iff.mpr hne
  have hskip := skipLineBreak_length p
  have hstart := findBodyStart_length hbody
  have hcopy := length_before_le (skipLineBreak p) ((strstr body marker).getD [])
  rw [List.length_append]
  unfold partText
  exact ⟨by omega, by omega⟩

/-- The walk stays inside when another delimiter follows every part, and only then. -/
theorem walk_iff (n : Nat) :
    (∀ msg : CString, msg.length < n → ((extractBestPartRec msg).isSome ↔ Delimited msg)) ∧
    ∀ (marker pos : CString) (best : BestParts), pos.length < n → marker ≠ [] → marker <+: pos →
      ((partLoop marker pos best).isSome ↔ PartsDelimited marker pos) := by
  induction n with
  | zero =>
    exact ⟨fun _ h => absurd h (Nat.not_lt_zero _), fun _ _ _ h => absurd h (Nat.not_lt_zero _)⟩
  | succ n ih =>
    obtain ⟨ihmsg, ihloop⟩ := ih
    constructor
    · intro msg hlen
      by_cases hfirst : ∃ marker pos, FirstDelimiter msg marker pos
      · obtain ⟨marker, pos, hfirst⟩ := hfirst
        obtain ⟨hne, hpre⟩ := hfirst.starts
        have hlt := hfirst.length_lt
        rw [extractBestPartRec_multipart hfirst, Option.isSome_map,
          ihloop marker pos _ (by omega) hne hpre, delimited_iff]
        constructor
        · intro h marker' pos' hfirst'
          obtain ⟨rfl, rfl⟩ := hfirst.unique hfirst'
          exact h
        · exact fun h => h marker pos hfirst
      · have hnone : ∀ marker pos, ¬ FirstDelimiter msg marker pos :=
          fun marker pos h => hfirst ⟨marker, pos, h⟩
        refine iff_of_true (extractBestPartRec_single hnone) ?_
        exact delimited_iff.mpr fun marker pos h => absurd h (hnone marker pos)
    · intro marker pos best hlen hne hpre
      obtain ⟨p, rfl⟩ := hpre
      by_cases hbegins : ∃ start body, PartBegins marker (marker ++ p) start body
      · obtain ⟨start, body, h⟩ := hbegins
        obtain ⟨htext, hbody⟩ := h.length_lt hne
        rw [partsDelimited_iff h, partLoop_part h]
        -- the rest of the loop, whatever the part was
        have hrest : ∀ best', (partLoop marker ((strstr body marker).getD []) best').isSome ↔
            marker <:+: body ∧ ∀ next, strstr body marker = some next → PartsDelimited marker next := by
          intro best'
          cases hnext : strstr body marker with
          | none =>
            rw [Option.getD_none, partLoop_end hne]
            refine iff_of_false (by simp) fun hmarker => ?_
            obtain ⟨t, ht⟩ := exists_strstr hmarker.1
            rw [hnext] at ht
            cases ht
          | some next =>
            obtain ⟨hstart, a, rfl⟩ := strstr_eq_some hnext
            have hle : next.length ≤ (a ++ next).length := by simp
            rw [Option.getD_some, ihloop marker next best' (by omega) hne hstart]
            constructor
            · intro hparts
              refine ⟨hstart.isInfix.trans (List.suffix_append a next).isInfix, fun t ht => ?_⟩
              rw [← Option.some.inj ht]
              exact hparts
            · exact fun hparts => hparts.2 next rfl
        by_cases htype : isMultipartType (parsePartHeaders (before start body)).ctype = true
        · have hchild := ihmsg (partText marker start body) (by omega)
          rw [if_pos htype]
          cases hextract : extractBestPartRec (partText marker start body) with
          | none =>
            rw [hextract] at hchild
            refine iff_of_false (by simp) fun hparts => ?_
            exact absurd (hchild.mpr (hparts.2.1 htype)) (by simp)
          | some child =>
            rw [hextract] at hchild
            rw [Option.bind_some, hrest]
            have hdelimited := hchild.mp rfl
            exact ⟨fun h => ⟨h.1, fun _ => hdelimited, h.2⟩, fun h => ⟨h.1, h.2.2⟩⟩
        · rw [if_neg htype, hrest]
          exact ⟨fun h => ⟨h.1, fun h' => absurd h' htype, h.2⟩, fun h => ⟨h.1, h.2.2⟩⟩
      · have hnone : ∀ start body, ¬ PartBegins marker (marker ++ p) start body :=
          fun start body h => hbegins ⟨start, body, h⟩
        rw [partLoop_stop hnone]
        exact iff_of_true rfl (partsDelimited_of_not_begins hnone)

/-- No position is behind the NUL when another delimiter follows every part of every multipart. -/
theorem extractBestPartRec_inside_iff (msg : CString) :
    (∃ selected, extractBestPartRec msg = some selected) ↔ Delimited msg := by
  rw [← (walk_iff (msg.length + 1)).1 msg (Nat.lt_succ_self _), Option.isSome_iff_exists]

/-- A multipart that ends after its part. -/
def cutMultipart : CString :=
  "Content-Type: multipart/mixed; boundary=b\n\n--b\nContent-Type: text/plain\n\nHej\n".toList

theorem extractBestPartRec_cut : ¬ ∃ selected, extractBestPartRec cutMultipart = some selected := by
  have hfirst : FirstDelimiter cutMultipart "--b".toList
      "--b\nContent-Type: text/plain\n\nHej\n".toList :=
    ⟨"--b\nContent-Type: text/plain\n\nHej\n".toList, "b".toList, by decide +kernel,
      by decide +kernel, by decide +kernel, by decide +kernel, by decide +kernel⟩
  have hpart : PartBegins "--b".toList "--b\nContent-Type: text/plain\n\nHej\n".toList
      "Content-Type: text/plain\n\nHej\n".toList "Hej\n".toList :=
    ⟨"\nContent-Type: text/plain\n\nHej\n".toList, by decide +kernel, by decide +kernel,
      by decide +kernel, by decide +kernel⟩
  have hlast : strstr "Hej\n".toList "--b".toList = none := by decide +kernel
  have htype : ¬ isMultipartType (parsePartHeaders (before "Content-Type: text/plain\n\nHej\n".toList
    "Hej\n".toList)).ctype = true := by decide +kernel
  rintro ⟨selected, hselected⟩
  rw [extractBestPartRec_multipart hfirst, partLoop_part hpart, if_neg htype, hlast, Option.getD_none,
    partLoop_end (by decide)] at hselected
  cases hselected

end SklaffKom
