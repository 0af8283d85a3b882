import SklaffKom.FtnAddress
import SklaffKom.Lib.Lists

/-!
# The CrashMail preferences

`ftn_config_load_crashmail` reads the preferences line by line.  An `AKA` or an area is stored when
its line is met, and the lines behind it go on with it; the domains of the areas are looked up when
all lines have been read.
-/

open CString

namespace SklaffKom

inductive FtnAreaType
  | echomail
  | netmail
  | local
deriving DecidableEq

structure FtnAka where
  address : FtnAddress
  domain : CString
deriving DecidableEq

structure FtnLink where
  address : FtnAddress
  modifier : Char
deriving DecidableEq

structure FtnArea where
  type : FtnAreaType
  tag : CString
  domain : CString
  messagebase : CString
  path : CString
  aka : FtnAddress
  links : List FtnLink
deriving DecidableEq

/-- `struct ftn_config` -/
structure CrashmailConfig where
  akas : List FtnAka
  areas : List FtnArea
deriving DecidableEq

def ftnConfigInit : CrashmailConfig := ⟨[], []⟩

/-! ## Lines -/

def isTokenChar (c : Char) : Bool := !isSpace c && c ≠ ';'

/-- `tokenize_line`, with room for `room` more tokens; `none` is -1. -/
def tokenizeLine (room : Nat) (p : CString) : Option (List CString) :=
  match p.dropWhile isSpace with
  | [] => some []
  | c :: q =>
    if c = ';' then some []
    else
      match room with
      | 0 => none
      | room + 1 =>
        if c = '"' then
          match q.dropWhile (· ≠ '"') with
          -- the quote is not closed
          | [] => none
          | _ :: t => (tokenizeLine room t).map (q.takeWhile (· ≠ '"') :: ·)
        else
          let token := (c :: q).takeWhile isTokenChar
          match (c :: q).dropWhile isTokenChar with
          | [] => some [token]
          | d :: t => if d = ';' then some [token] else (tokenizeLine room t).map (token :: ·)

def ftnconfigLineLen : Nat := 4096

def ftnconfigMaxTokens : Nat := 64

/-- What the loader runs on: `realloc`, depending on what is stored already, and `strerror(errno)`. -/
structure LoadEnv where
  path : CString
  realloc : CrashmailConfig → Bool
  strerror : CString

/-- What has been parsed; `current_aka` and `current_area` as the indices they point to. -/
structure CrashmailRead where
  parsed : CrashmailConfig
  currentAka : Option Nat
  currentArea : Option Nat

/-- An error with the number of the line. -/
def atLine (env : LoadEnv) (lineno : Nat) (text : CString) : CString :=
  env.path ++ ":".toList ++ decimal lineno ++ ": ".toList ++ text

def copyString (dstsz : Nat) (src : CString) : Option CString :=
  if dstsz ≤ src.length then none else some src

/-- `value`, or -1 with an error. -/
def orFail {α : Type} (text : CString) : Option α → Except CString α
  | some value => .ok value
  | none => .error text

/-- The address of a link, with its modifier in front. -/
def linkOf (text : CString) : Option FtnLink :=
  match text with
  | [] => none
  | c :: p =>
    if c = '!' ∨ c = '@' ∨ c = '%' then (ftnAddressParse p).map (⟨·, c⟩)
    else (ftnAddressParse (c :: p)).map (⟨·, '\x00'⟩)

def akaLine (env : LoadEnv) (lineno : Nat) (s : CrashmailRead) (tokens : List CString) :
    Except CString CrashmailRead := do
  let text ← orFail (atLine env lineno "AKA requires an address".toList) tokens[1]?
  if !env.realloc s.parsed then .error (atLine env lineno "out of memory".toList)
  else
    let address ← orFail (atLine env lineno ("invalid AKA address: ".toList ++ text))
      (ftnAddressParse text)
    .ok ⟨{ s.parsed with akas := s.parsed.akas ++ [⟨address, []⟩] }, some s.parsed.akas.length, none⟩

def domainLine (env : LoadEnv) (lineno : Nat) (s : CrashmailRead) (tokens : List CString) :
    Except CString CrashmailRead :=
  match tokens[1]?, s.currentAka with
  | some text, some i => do
    let domain ← orFail (atLine env lineno "DOMAIN is too long".toList) (copyString 64 text)
    .ok { s with
      parsed := { s.parsed with akas := s.parsed.akas.modify i fun a => { a with domain } } }
  | _, _ => .error (atLine env lineno "DOMAIN must follow an AKA".toList)

/-- The line of an `AREA`, a `NETMAIL` or a `LOCALAREA`. -/
def areaLine (env : LoadEnv) (lineno : Nat) (s : CrashmailRead) (type : FtnAreaType)
    (tokens : List CString) : Except CString CrashmailRead :=
  match tokens with
  | _ :: tagText :: akaText :: more => do
    if !env.realloc s.parsed then .error (atLine env lineno "out of memory".toList)
    else
      let tag ← orFail (atLine env lineno "area tag is too long".toList) (copyString 128 tagText)
      let aka ← orFail (atLine env lineno ("invalid area AKA: ".toList ++ akaText))
        (ftnAddressParse akaText)
      let messagebase ← orFail (atLine env lineno "messagebase name is too long".toList)
        (copyString 32 (more[0]?.getD []))
      let path ← orFail (atLine env lineno "area path is too long".toList)
        (copyString 4096 (more[1]?.getD []))
      .ok ⟨{ s.parsed with areas := s.parsed.areas ++ [⟨type, tag, [], messagebase, path, aka, []⟩] },
        none, some s.parsed.areas.length⟩
  | _ => .error (atLine env lineno (tokens.head?.getD [] ++ " requires a tag and AKA".toList))

def exportLinks (env : LoadEnv) (lineno : Nat) (i : Nat) (s : CrashmailRead) :
    List CString → Except CString CrashmailRead
  | [] => .ok s
  | token :: tokens => do
    let link ← orFail (atLine env lineno ("unsupported or invalid EXPORT address: ".toList ++ token ++
      "; use a full zone:net/node.point address".toList)) (if env.realloc s.parsed then linkOf token else none)
    exportLinks env lineno i
      { s with
        parsed := { s.parsed with
          areas := s.parsed.areas.modify i fun a => { a with links := a.links ++ [link] } } } tokens

def exportLine (env : LoadEnv) (lineno : Nat) (s : CrashmailRead) (tokens : List CString) :
    Except CString CrashmailRead :=
  match s.currentArea with
  | some i =>
    if (s.parsed.areas[i]?).map FtnArea.type = some .echomail then
      exportLinks env lineno i s tokens.tail
    else .error (atLine env lineno "EXPORT must follow an AREA".toList)
  | none => .error (atLine env lineno "EXPORT must follow an AREA".toList)

/-- What the loop does with the tokens of a line. -/
def takeTokens (env : LoadEnv) (lineno : Nat) (s : CrashmailRead) (tokens : List CString) :
    Except CString CrashmailRead :=
  match tokens with
  | [] => .ok s
  | word :: _ =>
    if sameNoCase word "AKA".toList then akaLine env lineno s tokens
    else if sameNoCase word "DOMAIN".toList then domainLine env lineno s tokens
    else if sameNoCase word "AREA".toList then areaLine env lineno s .echomail tokens
    else if sameNoCase word "NETMAIL".toList then areaLine env lineno s .netmail tokens
    else if sameNoCase word "LOCALAREA".toList then areaLine env lineno s .local tokens
    else if sameNoCase word "EXPORT".toList then exportLine env lineno s tokens
    else .ok s

/-- The tokens of what `fgets` has read; it has met the end of the file when the buffer is not full. -/
def lineTokens (env : LoadEnv) (lineno : Nat) (line : CString) : Except CString (List CString) :=
  let feof := '\n' ∉ line ∧ line.length < ftnconfigLineLen - 1
  if '\n' ∉ stringOf line ∧ ¬ feof then
    .error (atLine env lineno ("line exceeds ".toList ++ decimal (ftnconfigLineLen - 1 : Nat) ++
      " bytes".toList))
  else
    orFail (atLine env lineno "malformed or overlong configuration line".toList)
      (tokenizeLine ftnconfigMaxTokens (stringOf line))

def readPrefsLines (env : LoadEnv) : Nat → CrashmailRead → List CString → Except CString CrashmailRead
  | _, s, [] => .ok s
  | lineno, s, line :: lines => do
    let tokens ← lineTokens env lineno line
    let s ← takeTokens env lineno s tokens
    readPrefsLines env (lineno + 1) s lines

/-! ## The domains -/

def findAka (config : CrashmailConfig) (address : FtnAddress) : Option FtnAka :=
  config.akas.find? (·.address = address)

def resolveAreaDomains (env : LoadEnv) (config : CrashmailConfig) : Except CString CrashmailConfig := do
  let areas ← config.areas.mapM fun area : FtnArea => do
    let addr := ftnAddressFormat area.aka 64
    let aka ← orFail (env.path ++ ": area ".toList ++ area.tag ++ " uses unknown AKA ".toList ++ addr)
      (findAka config area.aka)
    if aka.domain = [] then
      .error (env.path ++ ": AKA ".toList ++ addr ++ " used by area ".toList ++ area.tag ++
        " has no DOMAIN".toList)
    else
      let domain ← orFail (env.path ++ ": DOMAIN is too long for area ".toList ++ area.tag)
        (copyString 64 aka.domain)
      .ok { area with domain }
  .ok { config with areas }

/-- A file that is read, and whether `ferror` says that reading it failed. -/
structure PrefsFile where
  bytes : CString
  ferror : Bool

/-- The configuration that is parsed. -/
def parseCrashmail (env : LoadEnv) : Option PrefsFile → Except CString CrashmailConfig
  | none => .error (env.path ++ ": ".toList ++ env.strerror)
  | some file => do
    let s ← readPrefsLines env 1 ⟨ftnConfigInit, none, none⟩ (fileLines ftnconfigLineLen file.bytes)
    if file.ferror then .error (env.path ++ ": read error: ".toList ++ env.strerror)
    else resolveAreaDomains env s.parsed

/-- What a call leaves: its value, `*config` and `error`. -/
structure LoadResult where
  ret : Int
  config : CrashmailConfig
  error : CString

def setError (errorsz : Nat) (error text : CString) : CString :=
  if errorsz = 0 then error else strlcpy errorsz text

def ftnConfigLoadCrashmail (env : LoadEnv) (file : Option PrefsFile) (config : CrashmailConfig)
    (errorsz : Nat) (error : CString) : LoadResult :=
  match parseCrashmail env file with
  | .ok parsed => ⟨0, parsed, if errorsz = 0 then error else []⟩
  | .error text => ⟨-1, config, setError errorsz error text⟩

/-! ## What a file says -/

/-- What a line of the preferences says. -/
inductive Statement
  | aka (address : FtnAddress)
  | domain (text : CString)
  | area (area : FtnArea)
  | export (links : List FtnLink)
  | other

def crashmailKeywords : List CString :=
  ["AKA", "DOMAIN", "AREA", "NETMAIL", "LOCALAREA", "EXPORT"].map String.toList

/-- The keyword that begins an area. -/
inductive BeginsArea : CString → FtnAreaType → Prop
  | area {word : CString} (h : sameNoCase word "AREA".toList = true) : BeginsArea word .echomail
  | netmail {word : CString} (h : sameNoCase word "NETMAIL".toList = true) : BeginsArea word .netmail
  | localarea {word : CString} (h : sameNoCase word "LOCALAREA".toList = true) :
      BeginsArea word .local

/-- The tokens of a line make a statement. -/
inductive Says : List CString → Statement → Prop
  | aka {word text : CString} {more : List CString} {address : FtnAddress}
      (h : sameNoCase word "AKA".toList = true) (ha : ftnAddressParse text = some address) :
      Says (word :: text :: more) (.aka address)
  | domain {word text : CString} {more : List CString}
      (h : sameNoCase word "DOMAIN".toList = true) : Says (word :: text :: more) (.domain text)
  | area {word tag text : CString} {more : List CString} {type : FtnAreaType} {aka : FtnAddress}
      (h : BeginsArea word type) (ha : ftnAddressParse text = some aka) :
      Says (word :: tag :: text :: more)
        (.area ⟨type, tag, [], more[0]?.getD [], more[1]?.getD [], aka, []⟩)
  | export {word : CString} {texts : List CString} {links : List FtnLink}
      (h : sameNoCase word "EXPORT".toList = true)
      (hl : List.Forall₂ (fun text link => linkOf text = some link) texts links) :
      Says (word :: texts) (.export links)
  | empty : Says [] .other
  | other {word : CString} {texts : List CString}
      (h : ∀ keyword ∈ crashmailKeywords, sameNoCase word keyword = false) :
      Says (word :: texts) .other

def domainIn : Statement → Option CString
  | .domain text => some text
  | _ => none

def linksIn : Statement → List FtnLink
  | .export links => links
  | _ => []

/-- The lines that go on with an AKA: the last `DOMAIN` counts. -/
structure AkaBody (body : List Statement) (a b : FtnAka) : Prop where
  only : ∀ st ∈ body, st = .other ∨ ∃ text, st = .domain text
  last : b = { a with domain := (body.filterMap domainIn).getLastD a.domain }

/-- The lines that go on with an area: the links of each `EXPORT` are added. -/
structure AreaBody (body : List Statement) (a b : FtnArea) : Prop where
  only : ∀ st ∈ body, st = .other ∨ a.type = .echomail ∧ ∃ links, st = .export links
  all : b = { a with links := a.links ++ body.flatMap linksIn }

/-- The AKAs and the areas of a file, each in the order of their lines. -/
inductive Entries : List Statement → List FtnAka → List FtnArea → Prop
  | nil : Entries [] [] []
  | other {sts : List Statement} {akas : List FtnAka} {areas : List FtnArea}
      (h : Entries sts akas areas) : Entries (.other :: sts) akas areas
  | aka {address : FtnAddress} {aka : FtnAka} {body sts : List Statement} {akas : List FtnAka}
      {areas : List FtnArea} (hbody : AkaBody body ⟨address, []⟩ aka) (h : Entries sts akas areas) :
      Entries (.aka address :: (body ++ sts)) (aka :: akas) areas
  | area {head area : FtnArea} {body sts : List Statement} {akas : List FtnAka}
      {areas : List FtnArea} (hbody : AreaBody body head area) (h : Entries sts akas areas) :
      Entries (.area head :: (body ++ sts)) akas (area :: areas)

/-- The domain of the first AKA with an address. -/
def FirstDomain (akas : List FtnAka) (address : FtnAddress) (domain : CString) : Prop :=
  ∃ before aka after, akas = before ++ aka :: after ∧ (∀ b ∈ before, b.address ≠ address) ∧
    aka.address = address ∧ aka.domain = domain

/-- The area of the file, with its domain. -/
structure Resolved (akas : List FtnAka) (read stored : FtnArea) : Prop where
  same : stored = { read with domain := stored.domain }
  first : FirstDomain akas stored.aka stored.domain
  nonempty : stored.domain ≠ []

/-- The configuration that a file describes. -/
structure Describes (lines : List CString) (config : CrashmailConfig) : Prop where
  entries : ∃ tokens sts areas,
    List.Forall₂ (fun line ts => tokenizeLine ftnconfigMaxTokens (stringOf line) = some ts)
      lines tokens ∧
    List.Forall₂ Says tokens sts ∧ Entries sts config.akas areas ∧
    List.Forall₂ (Resolved config.akas) areas config.areas

/-! ## One line -/

/-- The entry that the next line may go on with. -/
inductive Open
  | none
  | aka (a : FtnAka)
  | area (a : FtnArea)

def Open.akas : Open → List FtnAka
  | .aka a => [a]
  | _ => []

def Open.areas : Open → List FtnArea
  | .area a => [a]
  | _ => []

/-- The state with an open entry: it is the last one of its kind. -/
def openState (akas : List FtnAka) (areas : List FtnArea) : Open → CrashmailRead
  | .none => ⟨⟨akas, areas⟩, none, none⟩
  | .aka a => ⟨⟨akas ++ [a], areas⟩, some akas.length, none⟩
  | .area a => ⟨⟨akas, areas ++ [a]⟩, none, some areas.length⟩

/-- What a statement does with the open entry. -/
inductive Goes : Open → Statement → Open → Prop
  | domain {a : FtnAka} {text : CString} : Goes (.aka a) (.domain text) (.aka { a with domain := text })
  | export {a : FtnArea} {links : List FtnLink} (h : a.type = .echomail) :
      Goes (.area a) (.export links) (.area { a with links := a.links ++ links })
  | other {o : Open} : Goes o .other o

/-- What a statement opens. -/
inductive Begins : Statement → Open → Prop
  | aka {address : FtnAddress} : Begins (.aka address) (.aka ⟨address, []⟩)
  | area {a : FtnArea} : Begins (.area a) (.area a)

variable {env : LoadEnv} {lineno : Nat} {akas : List FtnAka} {areas : List FtnArea}
  {tokens : List CString} {s s' : CrashmailRead} {st : Statement}

theorem openState_parsed (akas : List FtnAka) (areas : List FtnArea) (o : Open) :
    (openState akas areas o).parsed = ⟨akas ++ o.akas, areas ++ o.areas⟩ := by
  cases o with
  | none => simp [openState, Open.akas, Open.areas]
  | aka a => simp [openState, Open.akas, Open.areas]
  | area a => simp [openState, Open.akas, Open.areas]

theorem modify_last {α : Type*} (l : List α) (a : α) (f : α → α) :
    (l ++ [a]).modify l.length f = l ++ [f a] := by
  induction l with
  | nil => rfl
  | cons b l ih =>
    rw [List.cons_append, List.length_cons, List.modify_succ_cons, ih]
    rfl

theorem orFail_ok {α : Type} {text : CString} {x : Option α} {a : α} :
    orFail text x = .ok a ↔ x = some a := by
  cases x with
  | none => simp [orFail]
  | some b => simp [orFail]

theorem copyString_some {dstsz : Nat} {src t : CString} (h : copyString dstsz src = some t) : t = src := by
  unfold copyString at h
  split at h
  · cases h
  · exact (Option.some.inj h).symm

theorem akaLine_ok {word : CString} (hword : sameNoCase word "AKA".toList = true)
    (h : akaLine env lineno s (word :: tokens) = .ok s') :
    ∃ address, Says (word :: tokens) (.aka address) ∧
      s' = openState s.parsed.akas s.parsed.areas (.aka ⟨address, []⟩) := by
  unfold akaLine at h
  obtain ⟨text, htext, hrest⟩ := Lists.except_bind_iff.mp h
  rw [orFail_ok] at htext
  obtain ⟨more, rfl⟩ : ∃ more, tokens = text :: more := by
    cases tokens with
    | nil => cases htext
    | cons t more => exact ⟨more, by rw [Option.some.inj htext]⟩
  split at hrest
  · cases hrest
  · obtain ⟨address, haddress, hstate⟩ := Lists.except_bind_iff.mp hrest
    rw [orFail_ok] at haddress
    rw [← Except.ok.inj hstate]
    exact ⟨address, .aka hword haddress, rfl⟩

theorem areaLine_ok {word : CString} {type : FtnAreaType} (hword : BeginsArea word type)
    (h : areaLine env lineno s type (word :: tokens) = .ok s') :
    ∃ a, Says (word :: tokens) (.area a) ∧
      s' = openState s.parsed.akas s.parsed.areas (.area a) := by
  unfold areaLine at h
  split at h
  · rename_i w tagText akaText more heq
    obtain ⟨rfl, rfl⟩ := List.cons.inj heq
    split at h
    · cases h
    · obtain ⟨tag, htag, h⟩ := Lists.except_bind_iff.mp h
      obtain ⟨aka, haka, h⟩ := Lists.except_bind_iff.mp h
      obtain ⟨messagebase, hbase, h⟩ := Lists.except_bind_iff.mp h
      obtain ⟨path, hpath, h⟩ := Lists.except_bind_iff.mp h
      rw [orFail_ok] at htag haka hbase hpath
      cases h
      rw [copyString_some htag, copyString_some hbase, copyString_some hpath]
      exact ⟨_, .area hword haka, rfl⟩
  · cases h

theorem domainLine_ok {word : CString} (hword : sameNoCase word "DOMAIN".toList = true) {o : Open}
    (h : domainLine env lineno (openState akas areas o) (word :: tokens) = .ok s') :
    ∃ st o', Says (word :: tokens) st ∧ Goes o st o' ∧ s' = openState akas areas o' := by
  unfold domainLine at h
  split at h
  · rename_i text i htext hi
    obtain ⟨more, rfl⟩ : ∃ more, tokens = text :: more := by
      cases tokens with
      | nil => cases htext
      | cons t more => exact ⟨more, by rw [Option.some.inj htext]⟩
    obtain ⟨domain, hdomain, h⟩ := Lists.except_bind_iff.mp h
    rw [orFail_ok] at hdomain
    cases copyString_some hdomain
    cases o with
    | none => cases hi
    | area a => cases hi
    | aka a =>
      cases hi
      cases h
      refine ⟨_, _, .domain hword, .domain, ?_⟩
      simp only [openState, modify_last]
  · cases h

theorem exportLinks_ok {a : FtnArea}
    (h : exportLinks env lineno areas.length (openState akas areas (.area a)) tokens = .ok s') :
    ∃ links, List.Forall₂ (fun text link => linkOf text = some link) tokens links ∧
      s' = openState akas areas (.area { a with links := a.links ++ links }) := by
  induction tokens generalizing a with
  | nil =>
    cases h
    exact ⟨[], .nil, by rw [List.append_nil]⟩
  | cons token tokens ih =>
    rw [exportLinks] at h
    obtain ⟨link, hlink, h⟩ := Lists.except_bind_iff.mp h
    rw [orFail_ok] at hlink
    split at hlink
    · simp only [openState, modify_last] at h
      obtain ⟨links, hlinks, hs⟩ := ih h
      exact ⟨link :: links, .cons hlink hlinks, by rw [hs]; simp⟩
    · cases hlink

theorem exportLine_ok {word : CString} (hword : sameNoCase word "EXPORT".toList = true) {o : Open}
    (h : exportLine env lineno (openState akas areas o) (word :: tokens) = .ok s') :
    ∃ st o', Says (word :: tokens) st ∧ Goes o st o' ∧ s' = openState akas areas o' := by
  cases o with
  | none => cases h
  | aka a => cases h
  | area a =>
    unfold exportLine at h
    simp only [openState, List.getElem?_concat_length, Option.map_some, Option.some.injEq] at h
    split at h
    · rename_i htype
      obtain ⟨links, hlinks, hs⟩ := exportLinks_ok h
      exact ⟨_, _, .export hword hlinks, .export htype, hs⟩
    · cases h

/-- A line goes on with the open entry, or opens another one. -/
theorem takeTokens_ok {o : Open} (h : takeTokens env lineno (openState akas areas o) tokens = .ok s') :
    ∃ st, Says tokens st ∧
      ((∃ o', Goes o st o' ∧ s' = openState akas areas o') ∨
        ∃ o', Begins st o' ∧ s' = openState (akas ++ o.akas) (areas ++ o.areas) o') := by
  unfold takeTokens at h
  have hparsed := openState_parsed akas areas o
  split at h
  · cases h
    exact ⟨.other, .empty, .inl ⟨o, .other, rfl⟩⟩
  · rename_i word tokens
    have hopens : ∀ {a}, (Says (word :: tokens) (.area a) ∧
        s' = openState (openState akas areas o).parsed.akas (openState akas areas o).parsed.areas
          (.area a)) → ∃ st, Says (word :: tokens) st ∧
        ((∃ o', Goes o st o' ∧ s' = openState akas areas o') ∨
          ∃ o', Begins st o' ∧ s' = openState (akas ++ o.akas) (areas ++ o.areas) o') := by
      rintro a ⟨hsaid, hs⟩
      rw [hparsed] at hs
      exact ⟨_, hsaid, .inr ⟨_, .area, hs⟩⟩
    split at h
    · rename_i hword
      obtain ⟨address, hsaid, hs⟩ := akaLine_ok hword h
      rw [hparsed] at hs
      exact ⟨_, hsaid, .inr ⟨_, .aka, hs⟩⟩
    split at h
    · rename_i hword
      obtain ⟨st, o', hsaid, hgoes, hs⟩ := domainLine_ok hword h
      exact ⟨st, hsaid, .inl ⟨o', hgoes, hs⟩⟩
    split at h
    · rename_i hword
      obtain ⟨a, ha⟩ := areaLine_ok (.area hword) h
      exact hopens ha
    split at h
    · rename_i hword
      obtain ⟨a, ha⟩ := areaLine_ok (.netmail hword) h
      exact hopens ha
    split at h
    · rename_i hword
      obtain ⟨a, ha⟩ := areaLine_ok (.localarea hword) h
      exact hopens ha
    split at h
    · rename_i hword
      obtain ⟨st, o', hsaid, hgoes, hs⟩ := exportLine_ok hword h
      exact ⟨st, hsaid, .inl ⟨o', hgoes, hs⟩⟩
    · rename_i haka hdomain harea hnetmail hlocal hexport
      cases h
      refine ⟨.other, .other ?_, .inl ⟨o, .other, rfl⟩⟩
      simp only [crashmailKeywords, List.map_cons, List.map_nil, List.forall_mem_cons,
        List.not_mem_nil, false_imp_iff, implies_true, and_true, ← Bool.not_eq_true]
      exact ⟨haka, hdomain, harea, hnetmail, hlocal, hexport⟩

/-! ## All lines -/

/-- The statements that go on with an open entry. -/
inductive GoesOn : Open → List Statement → Open → Prop
  | nil {o : Open} : GoesOn o [] o
  | cons {o o' o'' : Open} {st : Statement} {sts : List Statement} (h : Goes o st o')
      (hs : GoesOn o' sts o'') : GoesOn o (st :: sts) o''

theorem GoesOn.aka {sts : List Statement} {a : FtnAka} {o : Open} (h : GoesOn (.aka a) sts o) :
    ∃ b, o = .aka b ∧ AkaBody sts a b := by
  induction sts generalizing a with
  | nil =>
    cases h
    exact ⟨a, rfl, by simp, rfl⟩
  | cons st sts ih =>
    cases h with
    | cons hgoes hs =>
      cases hgoes with
      | domain =>
        obtain ⟨b, rfl, hb⟩ := ih hs
        refine ⟨b, rfl, List.forall_mem_cons.mpr ⟨.inr ⟨_, rfl⟩, hb.only⟩, ?_⟩
        rw [hb.last, List.filterMap_cons_some (show domainIn (.domain _) = some _ from rfl),
          List.getLastD_cons]
      | other =>
        obtain ⟨b, rfl, hb⟩ := ih hs
        exact ⟨b, rfl, List.forall_mem_cons.mpr ⟨.inl rfl, hb.only⟩, hb.last⟩

theorem GoesOn.area {sts : List Statement} {a : FtnArea} {o : Open} (h : GoesOn (.area a) sts o) :
    ∃ b, o = .area b ∧ AreaBody sts a b := by
  induction sts generalizing a with
  | nil =>
    cases h
    exact ⟨a, rfl, by simp, by simp⟩
  | cons st sts ih =>
    cases h with
    | cons hgoes hs =>
      cases hgoes with
      | «export» htype =>
        obtain ⟨b, rfl, hb⟩ := ih hs
        refine ⟨b, rfl, List.forall_mem_cons.mpr ⟨.inr ⟨htype, _, rfl⟩, hb.only⟩, ?_⟩
        rw [hb.all, List.flatMap_cons, ← List.append_assoc]
        rfl
      | other =>
        obtain ⟨b, rfl, hb⟩ := ih hs
        exact ⟨b, rfl, List.forall_mem_cons.mpr ⟨.inl rfl, hb.only⟩, hb.all⟩

/-- An entry with the lines that go on with it, before the other entries. -/
theorem entries_of_begins {st : Statement} {o o' : Open} {body sts : List Statement}
    (hbegins : Begins st o) (hbody : GoesOn o body o') (h : Entries sts akas areas) :
    Entries (st :: (body ++ sts)) (o'.akas ++ akas) (o'.areas ++ areas) := by
  cases hbegins with
  | aka =>
    obtain ⟨b, rfl, hb⟩ := hbody.aka
    exact .aka hb h
  | area =>
    obtain ⟨b, rfl, hb⟩ := hbody.area
    exact .area hb h

/-- The statements that were read: those that go on with the open entry, and new entries. -/
theorem readPrefsLines_ok {o : Open} {lines : List CString}
    (h : readPrefsLines env lineno (openState akas areas o) lines = .ok s') :
    ∃ tokens body sts o' akas' areas',
      List.Forall₂ (fun line ts => tokenizeLine ftnconfigMaxTokens (stringOf line) = some ts)
        lines tokens ∧
      List.Forall₂ Says tokens (body ++ sts) ∧ GoesOn o body o' ∧ Entries sts akas' areas' ∧
      s'.parsed = ⟨akas ++ o'.akas ++ akas', areas ++ o'.areas ++ areas'⟩ := by
  induction lines generalizing lineno akas areas o with
  | nil =>
    cases h
    refine ⟨[], [], [], o, [], [], .nil, .nil, .nil, .nil, ?_⟩
    rw [openState_parsed, List.append_nil, List.append_nil]
  | cons line lines ih =>
    rw [readPrefsLines] at h
    obtain ⟨ts, hts, h⟩ := Lists.except_bind_iff.mp h
    obtain ⟨s, hs, h⟩ := Lists.except_bind_iff.mp h
    have htok : tokenizeLine ftnconfigMaxTokens (stringOf line) = some ts := by
      unfold lineTokens at hts
      dsimp only at hts
      split at hts
      · cases hts
      · exact orFail_ok.mp hts
    obtain ⟨st, hsaid, ⟨o', hgoes, rfl⟩ | ⟨o', hbegins, rfl⟩⟩ := takeTokens_ok hs
    · obtain ⟨tokens, body, sts, o'', akas', areas', htokens, hall, hbody, hrest, hparsed⟩ := ih h
      exact ⟨ts :: tokens, st :: body, sts, o'', akas', areas', .cons htok htokens,
        .cons hsaid hall, .cons hgoes hbody, hrest, hparsed⟩
    · obtain ⟨tokens, body, sts, o'', akas', areas', htokens, hall, hbody, hrest, hparsed⟩ := ih h
      refine ⟨ts :: tokens, [], st :: (body ++ sts), o, o''.akas ++ akas', o''.areas ++ areas',
        .cons htok htokens, .cons hsaid hall, .nil, entries_of_begins hbegins hbody hrest, ?_⟩
      rw [hparsed, ← List.append_assoc, ← List.append_assoc]

theorem GoesOn.none {sts : List Statement} {o : Open} (h : GoesOn .none sts o) :
    o = .none ∧ ∀ st ∈ sts, st = .other := by
  induction sts with
  | nil =>
    cases h
    exact ⟨rfl, by simp⟩
  | cons st sts ih =>
    cases h with
    | cons hgoes hs =>
      cases hgoes with
      | other =>
        obtain ⟨ho, hsts⟩ := ih hs
        exact ⟨ho, List.forall_mem_cons.mpr ⟨rfl, hsts⟩⟩

theorem Entries.others {body sts : List Statement} (hbody : ∀ st ∈ body, st = .other)
    (h : Entries sts akas areas) : Entries (body ++ sts) akas areas := by
  induction body with
  | nil => exact h
  | cons st body ih =>
    obtain ⟨hst, hbody⟩ := List.forall_mem_cons.mp hbody
    rw [hst]
    exact .other (ih hbody)

/-! ## The whole file -/

theorem findAka_some {config : CrashmailConfig} {address : FtnAddress} {a : FtnAka}
    (h : findAka config address = some a) : FirstDomain config.akas address a.domain := by
  obtain ⟨haddress, before, after, hsplit, hbefore⟩ := List.find?_eq_some_iff_append.mp h
  refine ⟨before, a, after, hsplit, fun b hb heq => ?_, of_decide_eq_true haddress, rfl⟩
  have hne := hbefore b hb
  rw [decide_eq_true heq] at hne
  cases hne

theorem resolveAreaDomains_ok {config config' : CrashmailConfig}
    (h : resolveAreaDomains env config = .ok config') :
    config'.akas = config.akas ∧ List.Forall₂ (Resolved config.akas) config.areas config'.areas := by
  unfold resolveAreaDomains at h
  obtain ⟨areas, hareas, h⟩ := Lists.except_bind_iff.mp h
  cases h
  refine ⟨rfl, List.Forall₂.imp (fun read stored hread => ?_) (Lists.forall₂_of_mapM_ok hareas)⟩
  obtain ⟨aka, haka, hread⟩ := Lists.except_bind_iff.mp hread
  rw [orFail_ok] at haka
  split at hread
  · cases hread
  · rename_i hne
    obtain ⟨domain, hdomain, hread⟩ := Lists.except_bind_iff.mp hread
    rw [orFail_ok] at hdomain
    cases copyString_some hdomain
    cases hread
    exact ⟨rfl, findAka_some haka, hne⟩

/-- Nothing is changed, or the configuration is the one that the file describes. -/
theorem ftnConfigLoadCrashmail_atomic (env : LoadEnv) (file : Option PrefsFile)
    (config : CrashmailConfig) (errorsz : Nat) (error : CString) :
    ((ftnConfigLoadCrashmail env file config errorsz error).ret = -1 ∧
      (ftnConfigLoadCrashmail env file config errorsz error).config = config) ∨
    ((ftnConfigLoadCrashmail env file config errorsz error).ret = 0 ∧ ∃ f ∈ file,
      Describes (fileLines ftnconfigLineLen f.bytes)
        (ftnConfigLoadCrashmail env file config errorsz error).config) := by
  unfold ftnConfigLoadCrashmail
  cases hparse : parseCrashmail env file with
  | error text => exact .inl ⟨rfl, rfl⟩
  | ok parsed =>
    refine .inr ⟨rfl, ?_⟩
    cases file with
    | none => cases hparse
    | some f =>
      unfold parseCrashmail at hparse
      obtain ⟨s, hs, hresolve⟩ := Lists.except_bind_iff.mp hparse
      split at hresolve
      · cases hresolve
      · obtain ⟨tokens, body, sts, o, akas, areas, htokens, hsaid, hbody, hentries, hparsed⟩ :=
          readPrefsLines_ok (show readPrefsLines env 1 (openState [] [] .none) _ = .ok s from hs)
        obtain ⟨rfl, hothers⟩ := hbody.none
        obtain ⟨hakas, hareas⟩ := resolveAreaDomains_ok hresolve
        rw [hparsed] at hakas hareas
        refine ⟨f, rfl, ⟨tokens, body ++ sts, areas, htokens, hsaid, ?_, ?_⟩⟩
        · rw [hakas]
          exact hentries.others hothers
        · rw [hakas]
          exact hareas

-- the AKA may stand behind its area
example : (ftnConfigLoadCrashmail ⟨"prefs".toList, fun _ => true, []⟩
    (some ⟨"AREA T 1:2/3 jam\nEXPORT %1:2/4.5 1:2/6\naka 1:2/3\nDomain \"fido net\" ; d\n".toList,
      false⟩) ftnConfigInit 80 []).config =
      ⟨[⟨⟨1, 2, 3, 0⟩, "fido net".toList⟩], [⟨.echomail, ['T'], "fido net".toList, "jam".toList, [],
        ⟨1, 2, 3, 0⟩, [⟨⟨1, 2, 4, 5⟩, '%'⟩, ⟨⟨1, 2, 6, 0⟩, '\x00'⟩]⟩]⟩ := by
  decide +kernel

end SklaffKom
