import SklaffKom.Crashmail
import SklaffKom.Ftnconf
import SklaffKom.NetmailAddress

/-!
# Areas for what goes out

An export looks for its area in the configuration, and for the feed in the links of the area.  Each search
counts what matches and keeps the last match.
-/

open CString

namespace SklaffKom

/-! ## Searches -/

/-- The loops over areas and links: the last match, and how many there are. -/
def scanMatches {α : Type} (P : α → Bool) (l : List α) : Option α × Nat :=
  l.foldl (fun s a => if P a then (some a, s.2 + 1) else s) (none, 0)

/-- `a` is the only match. -/
def OnlyMatch {α : Type} (P : α → Bool) (l : List α) (a : α) : Prop := l.filter P = [a]

theorem scanMatches_eq {α : Type} (P : α → Bool) (l : List α) :
    scanMatches P l = ((l.filter P).getLast?, (l.filter P).length) := by
  have hfold (s : Option α × Nat) : l.foldl (fun s a => if P a then (some a, s.2 + 1) else s) s =
      ((l.filter P).getLast?.or s.1, s.2 + (l.filter P).length) := by
    induction l generalizing s with
    | nil => simp
    | cons a l ih =>
      rw [List.foldl_cons]
      by_cases ha : P a = true
      · rw [if_pos ha, ih, List.filter_cons_of_pos ha, List.getLast?_cons, List.length_cons]
        refine Prod.ext ?_ (by dsimp only; omega)
        cases (l.filter P).getLast? with
        | none => rfl
        | some b => rfl
      · rw [if_neg ha, ih, List.filter_cons_of_neg ha]
  unfold scanMatches
  rw [hfold]
  simp

theorem scanMatches_one {α : Type} {P : α → Bool} {l : List α} {a : α} :
    scanMatches P l = (some a, 1) ↔ OnlyMatch P l a := by
  rw [scanMatches_eq, Prod.mk.injEq, OnlyMatch]
  constructor
  · rintro ⟨hlast, hlen⟩
    obtain ⟨b, hb⟩ := List.length_eq_one_iff.mp hlen
    rw [hb] at hlast ⊢
    cases hlast
    rfl
  · intro h
    rw [h]
    exact ⟨rfl, rfl⟩

/-- What a search returns when nothing or one thing matches does not depend on the order. -/
theorem scanMatches_perm {α : Type} (P : α → Bool) {l l' : List α} (h : l.Perm l') :
    (scanMatches P l).2 = (scanMatches P l').2 ∧
      ((scanMatches P l).2 ≤ 1 → scanMatches P l = scanMatches P l') := by
  have hfilter := h.filter P
  have hlen := hfilter.length_eq
  rw [scanMatches_eq, scanMatches_eq]
  refine ⟨hlen, fun hone => ?_⟩
  dsimp only at hone
  rcases Nat.le_one_iff_eq_zero_or_eq_one.mp hone with h0 | h1
  · rw [List.length_eq_zero_iff.mp h0] at hfilter ⊢
    rw [hfilter.nil_eq]
  · obtain ⟨b, hb⟩ := List.length_eq_one_iff.mp h1
    rw [hb] at hfilter ⊢
    rw [List.singleton_perm.mp hfilter]

/-- The search for a feed: the only match, or the only element when nothing matches. -/
theorem scanMatches_feed {α : Type} {P : α → Bool} {l : List α} {a : α} :
    (if (scanMatches P l).2 = 0 ∧ l.length = 1 then l.head? else (scanMatches P l).1) = some a ∧
        (scanMatches P l).2 ≤ 1 ↔
      OnlyMatch P l a ∨ l = [a] := by
  rw [scanMatches_eq]
  dsimp only
  constructor
  · rintro ⟨hfeed, hone⟩
    split at hfeed
    · rename_i hsingle
      obtain ⟨b, rfl⟩ := List.length_eq_one_iff.mp hsingle.2
      cases hfeed
      exact Or.inr rfl
    · rcases Nat.le_one_iff_eq_zero_or_eq_one.mp hone with h0 | h1
      · rw [List.length_eq_zero_iff.mp h0] at hfeed
        cases hfeed
      · obtain ⟨b, hb⟩ := List.length_eq_one_iff.mp h1
        rw [hb] at hfeed
        cases hfeed
        exact Or.inl hb
  · rintro (h | rfl)
    · unfold OnlyMatch at h
      rw [h]
      simp
    · by_cases ha : P a = true <;> simp [ha]

/-! ## The configuration -/

def crashmailPrefsFile : CString := "/ftn/etc/crashmail.prefs".toList

/-- A message of the runner. -/
def ftntossError (text : CString) : CString := "[ERROR] ftntoss: ".toList ++ text ++ ['\n']

/-- The beginning of every search: the configuration, or the error that is printed. -/
def loadPrefs (env : LoadEnv) (file : Option PrefsFile) : Except CString CrashmailConfig :=
  let load := ftnConfigLoadCrashmail env file ftnConfigInit 512 []
  if load.ret ≠ 0 then .error (ftntossError load.error) else .ok load.config

/-- The checks that an area of this type is written to as `.MSG` files. -/
def checkMessagebase (name : CString) (area : FtnArea) : Except CString Unit :=
  if area.messagebase = [] ∨ sameNoCase area.messagebase "MSG".toList = false then
    .error (ftntossError (name ++ " '".toList ++ area.tag ++ "' uses unsupported messagebase '".toList ++
      (if area.messagebase = [] then "(missing)".toList else area.messagebase) ++
      "'; only MSG is currently supported".toList))
  else if area.path = [] then
    .error (ftntossError (name ++ " '".toList ++ area.tag ++ "' has no messagebase path in ".toList ++
      crashmailPrefsFile))
  else .ok ()

/-- An area that can be written to. -/
structure WritableArea (area : FtnArea) : Prop where
  messagebase : sameNoCase area.messagebase "MSG".toList = true
  path : area.path ≠ []

theorem checkMessagebase_ok {name : CString} {area : FtnArea} :
    checkMessagebase name area = .ok () ↔ WritableArea area := by
  have hmissing : sameNoCase [] "MSG".toList = false := rfl
  unfold checkMessagebase
  constructor
  · intro h
    split at h
    · cases h
    · rename_i hbase
      split at h
      · cases h
      · rename_i hpath
        push Not at hbase
        exact ⟨by simpa using hbase.2, hpath⟩
  · rintro ⟨hbase, hpath⟩
    rw [if_neg, if_neg hpath]
    rintro (hnil | hno)
    · rw [hnil, hmissing] at hbase
      cases hbase
    · rw [hno] at hbase
      cases hbase

/-! ## Netmail -/

def isNetmail (candidate : FtnArea) : Bool := candidate.type = .netmail

/-- The test of an area in `load_netmail_area_for_destination`. -/
def netmailMatches (destination : NetmailDestination) (candidate : FtnArea) : Bool :=
  isNetmail candidate &&
    match destination.domain with
    | some domain => sameNoCase candidate.domain domain
    | none => candidate.aka.zone = destination.address.zone

/-- The errors about the number of areas that match. -/
def netmailCountError (destination : NetmailDestination) (several : Bool) : CString :=
  let zone := decimal destination.address.zone
  match destination.domain, several with
  | some domain, false =>
    ftntossError ("no NETMAIL area for domain '".toList ++ domain ++ "' in ".toList ++ crashmailPrefsFile)
  | some domain, true =>
    ftntossError ("more than one NETMAIL area uses domain '".toList ++ domain ++ "' in ".toList ++
      crashmailPrefsFile)
  | none, false =>
    ftntossError ("4D destination zone ".toList ++ zone ++
      " does not identify a unique NETMAIL domain".toList) ++
      ftntossError ("use a 5D address such as ".toList ++ zone ++ ':' :: (decimal destination.address.net ++
        '/' :: (decimal destination.address.node ++ "@domain".toList)))
  | none, true =>
    ftntossError ("destination zone ".toList ++ zone ++ " matches more than one NETMAIL area".toList) ++
      ftntossError "use a full 5D destination address with @domain".toList

/-- What `load_netmail_area_for_destination` finds: `found` and `matches`.  A 4D address is accepted when there
is only one area. -/
def netmailSearch (destination : NetmailDestination) (config : CrashmailConfig) : Option FtnArea × Nat :=
  let all := scanMatches isNetmail config.areas
  let found := scanMatches (netmailMatches destination) config.areas
  if destination.domain = none ∧ found.2 = 0 ∧ all.2 = 1 then (all.1, 1) else found

/-- `load_netmail_area_for_destination` behind the loading. -/
def netmailAreaIn (destination : NetmailDestination) (config : CrashmailConfig) : Except CString FtnArea :=
  if (scanMatches isNetmail config.areas).2 = 0 then
    .error (ftntossError ("no NETMAIL areas were found in ".toList ++ crashmailPrefsFile))
  else if (netmailSearch destination config).2 > 1 then .error (netmailCountError destination true)
  else
    match netmailSearch destination config with
    | (some area, _ + 1) => do
      checkMessagebase "NETMAIL area".toList area
      if area.domain = [] then
        .error (ftntossError ("NETMAIL area '".toList ++ area.tag ++ "' has no resolved domain in ".toList ++
          crashmailPrefsFile))
      else .ok area
    | _ => .error (netmailCountError destination false)

def loadNetmailAreaForDestination (env : LoadEnv) (file : Option PrefsFile) (destination : NetmailDestination) :
    Except CString FtnArea := do
  let config ← loadPrefs env file
  netmailAreaIn destination config

/-- The areas that netmail to a destination could be written to. -/
structure NetmailArea (destination : NetmailDestination) (config : CrashmailConfig) (area : FtnArea) : Prop
    extends WritableArea area where
  only : OnlyMatch (netmailMatches destination) config.areas area ∨
    destination.domain = none ∧ config.areas.filter (netmailMatches destination) = [] ∧
      OnlyMatch isNetmail config.areas area
  domain : area.domain ≠ []

theorem netmailSearch_one {destination : NetmailDestination} {config : CrashmailConfig} {area : FtnArea} :
    netmailSearch destination config = (some area, 1) ↔
      OnlyMatch (netmailMatches destination) config.areas area ∨
        destination.domain = none ∧ config.areas.filter (netmailMatches destination) = [] ∧
          OnlyMatch isNetmail config.areas area := by
  unfold netmailSearch
  dsimp only
  by_cases hfour : destination.domain = none ∧ (scanMatches (netmailMatches destination) config.areas).2 = 0 ∧
      (scanMatches isNetmail config.areas).2 = 1
  · rw [if_pos hfour]
    obtain ⟨hdomain, hnone, hone⟩ := hfour
    rw [scanMatches_eq] at hnone
    have hnil := List.length_eq_zero_iff.mp hnone
    have hpair : ((scanMatches isNetmail config.areas).1, 1) = scanMatches isNetmail config.areas :=
      Prod.ext rfl hone.symm
    rw [hpair, scanMatches_one]
    constructor
    · exact fun h => Or.inr ⟨hdomain, hnil, h⟩
    · rintro (h | ⟨-, -, h⟩)
      · unfold OnlyMatch at h
        rw [hnil] at h
        cases h
      · exact h
  · rw [if_neg hfour, scanMatches_one]
    constructor
    · exact Or.inl
    · rintro (h | ⟨hdomain, hnil, h⟩)
      · exact h
      · refine absurd ⟨hdomain, ?_, ?_⟩ hfour
        · rw [scanMatches_eq, hnil]
          rfl
        · rw [scanMatches_one.mpr h]

theorem netmailAreaIn_ok {destination : NetmailDestination} {config : CrashmailConfig} {area : FtnArea} :
    netmailAreaIn destination config = .ok area ↔ NetmailArea destination config area := by
  have hfound : netmailSearch destination config = (some area, 1) →
      (scanMatches isNetmail config.areas).2 ≠ 0 := by
    intro h hnone
    rw [scanMatches_eq] at hnone
    have hnil := List.length_eq_zero_iff.mp hnone
    rcases netmailSearch_one.mp h with honly | ⟨-, -, honly⟩
    · have hmem : area ∈ config.areas.filter (netmailMatches destination) := by
        rw [honly]
        exact List.mem_singleton_self _
      have hboth := List.mem_filter.mp hmem
      have hnet : isNetmail area = true := (Bool.and_eq_true_iff.mp hboth.2).1
      have hin := List.mem_filter.mpr ⟨hboth.1, hnet⟩
      rw [hnil] at hin
      exact List.not_mem_nil hin
    · unfold OnlyMatch at honly
      rw [hnil] at honly
      cases honly
  constructor
  · intro h
    unfold netmailAreaIn at h
    split at h
    · cases h
    · split at h
      · cases h
      · rename_i hone
        split at h
        · rename_i found n hsearch
          have hn : n = 0 := by
            rw [hsearch] at hone
            dsimp only at hone
            omega
          subst hn
          cases hcheck : checkMessagebase "NETMAIL area".toList found with
          | error text =>
            rw [hcheck] at h
            cases h
          | ok u =>
            rw [hcheck] at h
            change (if found.domain = [] then _ else _) = _ at h
            split at h
            · cases h
            · rename_i hdomain
              cases h
              exact ⟨checkMessagebase_ok.mp hcheck, netmailSearch_one.mp hsearch, hdomain⟩
        · cases h
  · intro h
    have hsearch := netmailSearch_one.mpr h.only
    unfold netmailAreaIn
    rw [if_neg (hfound hsearch), hsearch, if_neg (Nat.lt_irrefl 1)]
    dsimp only
    rw [checkMessagebase_ok.mpr h.toWritableArea]
    exact if_neg h.domain

/-- The order of the areas in the preferences makes no difference, errors included. -/
theorem netmailAreaIn_perm (destination : NetmailDestination) {config config' : CrashmailConfig}
    (h : config.areas.Perm config'.areas) :
    netmailAreaIn destination config = netmailAreaIn destination config' := by
  have hall := scanMatches_perm isNetmail h
  have hfound := scanMatches_perm (netmailMatches destination) h
  have hcount : (netmailSearch destination config).2 = (netmailSearch destination config').2 := by
    unfold netmailSearch
    dsimp only
    rw [← hall.1, ← hfound.1]
    split
    · rfl
    · exact hfound.1
  have hsearch : (netmailSearch destination config).2 ≤ 1 →
      netmailSearch destination config = netmailSearch destination config' := by
    intro hone
    unfold netmailSearch at hone ⊢
    dsimp only at hone ⊢
    rw [← hall.1, ← hfound.1]
    split
    · rename_i hfour
      rw [hall.2 (by omega)]
    · rename_i hfour
      rw [if_neg hfour] at hone
      exact hfound.2 hone
  unfold netmailAreaIn
  rw [← hall.1, ← hcount]
  split
  · rfl
  · split
    · rfl
    · rw [hsearch (by omega)]

/-! ## Echomail -/

/-- The test of an area in the two searches for an echomail area. -/
def echomailMatches (domain : Option CString) (tag : CString) (candidate : FtnArea) : Bool :=
  candidate.type = .echomail && sameNoCase candidate.tag tag &&
    domain.all fun domain => sameNoCase candidate.domain domain

/-- The loops of `load_echomail_area_config` and `load_echomail_area_by_identity`, with their texts about no
area and about several. -/
def echomailAreaIn (noArea several : CString) (domain : Option CString) (tag : CString)
    (config : CrashmailConfig) : Except CString FtnArea :=
  let found := scanMatches (echomailMatches domain tag) config.areas
  if found.2 > 1 then .error several
  else
    match found with
    | (some area, _ + 1) => do
      checkMessagebase "area".toList area
      .ok area
    | _ => .error noArea

/-- The feed of an area: the link with a `%`, or the only link; `advice` is a second line of an error. -/
def feedOf (advice : CString) (area : FtnArea) : Except CString FtnLink :=
  let primary := scanMatches (fun link : FtnLink => link.modifier = '%') area.links
  let feed := if primary.2 = 0 ∧ area.links.length = 1 then area.links.head? else primary.1
  if primary.2 > 1 then
    .error (ftntossError ("area '".toList ++ area.tag ++ "' has more than one % feed in ".toList ++
      crashmailPrefsFile) ++ advice)
  else
    match feed with
    | some link => .ok link
    | none => .error (ftntossError ("area '".toList ++ area.tag ++
      "' has no unique CrashMail feed".toList) ++ advice)

/-- `load_echomail_area_config`: the conference `conf`, with the number `num`, is `fallback_tag` when it has no
`ftnconf`. -/
def loadEchomailAreaConfig (env : LoadEnv) (file : Option PrefsFile) (sklaffDb fallbackTag conf : CString)
    (num : Int) (ftnconf : Option FtnConfig) : Except CString FtnArea := do
  if fallbackTag = [] then .error [] else
  let config ← loadPrefs env file
  let create := "create ".toList ++ sklaffDb ++ '/' :: decimal num ++ "/ftnconf ".toList
  match ftnconf with
  | some meeting =>
    echomailAreaIn
      (ftntossError ("ftnconf for conference '".toList ++ conf ++ "' points to echomail area ".toList ++
        meeting.tag ++ '@' :: meeting.domain ++ ", but it was not found in ".toList ++ crashmailPrefsFile))
      (ftntossError (crashmailPrefsFile ++ " contains more than one echomail area matching ".toList ++
      meeting.tag ++
        '@' :: meeting.domain))
      (some meeting.domain) meeting.tag config
  | none =>
    echomailAreaIn
      (ftntossError ("echomail area '".toList ++ fallbackTag ++ "' was not found in ".toList ++
        crashmailPrefsFile) ++
        ftntossError (create ++ "when the SklaffKOM conference name differs from the FTN tag".toList))
      (ftntossError ("echomail tag '".toList ++ fallbackTag ++
      "' occurs in more than one FTN domain in ".toList ++
        crashmailPrefsFile) ++
        ftntossError (create ++ "and specify domain".toList))
      none fallbackTag config

def loadEchomailArea (env : LoadEnv) (file : Option PrefsFile) (sklaffDb fallbackTag conf : CString)
    (num : Int) (ftnconf : Option FtnConfig) : Except CString (FtnArea × FtnLink) := do
  let area ← loadEchomailAreaConfig env file sklaffDb fallbackTag conf num ftnconf
  let feed ← feedOf (ftntossError "mark exactly one EXPORT address with %".toList) area
  .ok (area, feed)

def loadEchomailAreaByIdentity (env : LoadEnv) (file : Option PrefsFile) (domain tag : CString) :
    Except CString (FtnArea × FtnLink) := do
  if domain = [] ∨ tag = [] then .error [] else
  let config ← loadPrefs env file
  let area ← echomailAreaIn
    (ftntossError ("echomail area ".toList ++ tag ++ '@' :: domain ++ " was not found in ".toList ++
      crashmailPrefsFile))
    (ftntossError ("more than one echomail area matches ".toList ++ tag ++ '@' :: domain ++ " in ".toList ++
      crashmailPrefsFile))
    (some domain) tag config
  let feed ← feedOf [] area
  .ok (area, feed)

structure EchomailArea (domain : Option CString) (tag : CString) (config : CrashmailConfig) (area : FtnArea) :
    Prop extends WritableArea area where
  only : OnlyMatch (echomailMatches domain tag) config.areas area

/-- The feed that is told about it. -/
def Feed (area : FtnArea) (link : FtnLink) : Prop :=
  OnlyMatch (fun link : FtnLink => link.modifier = '%') area.links link ∨ area.links = [link]

section Echomail

variable {noArea several tag advice : CString} {domain : Option CString} {config config' : CrashmailConfig}
variable {area : FtnArea} {link : FtnLink}

theorem echomailAreaIn_ok :
    echomailAreaIn noArea several domain tag config = .ok area ↔ EchomailArea domain tag config area := by
  unfold echomailAreaIn
  constructor
  · intro h
    dsimp only at h
    split at h
    · cases h
    · rename_i hone
      split at h
      · rename_i found n hsearch
        have hn : n = 0 := by
          rw [hsearch] at hone
          dsimp only at hone
          omega
        subst hn
        cases hcheck : checkMessagebase "area".toList found with
        | error text =>
          rw [hcheck] at h
          cases h
        | ok u =>
          rw [hcheck] at h
          cases h
          exact ⟨checkMessagebase_ok.mp hcheck, scanMatches_one.mp hsearch⟩
      · cases h
  · intro h
    dsimp only
    rw [scanMatches_one.mpr h.only, if_neg (Nat.lt_irrefl 1)]
    dsimp only
    rw [checkMessagebase_ok.mpr h.toWritableArea]
    rfl

theorem echomailAreaIn_perm (h : config.areas.Perm config'.areas) :
    echomailAreaIn noArea several domain tag config = echomailAreaIn noArea several domain tag config' := by
  have hfound := scanMatches_perm (echomailMatches domain tag) h
  unfold echomailAreaIn
  dsimp only
  rw [← hfound.1]
  split
  · rfl
  · rw [hfound.2 (by omega)]

theorem feedOf_ok : feedOf advice area = .ok link ↔ Feed area link := by
  unfold Feed
  rw [← scanMatches_feed]
  unfold feedOf
  dsimp only
  split
  · rename_i hmany
    constructor
    · intro h
      cases h
    · rintro ⟨-, hone⟩
      omega
  · rename_i hone
    split
    · rename_i found hfeed
      rw [hfeed]
      constructor
      · intro h
        cases h
        exact ⟨rfl, by omega⟩
      · rintro ⟨h, -⟩
        cases h
        rfl
    · rename_i hfeed
      rw [hfeed]
      constructor
      · intro h
        cases h
      · rintro ⟨h, -⟩
        cases h

end Echomail

/-! ## Addresses -/

theorem ftnAddressParse_inRange {text : CString} {a : FtnAddress} (h : ftnAddressParse text = some a) :
    a.InRange := by
  obtain ⟨t, -, ht⟩ := (addressNumbers_iff endsAddress_nil).mp (ftnAddressParse_eq_some.mp h)
  exact ht.inRange

theorem Entries.inRange {sts : List Statement} {akas : List FtnAka} {areas : List FtnArea}
    (h : Entries sts akas areas) (hsts : ∀ st ∈ sts, ∀ area, st = .area area → area.aka.InRange) :
    ∀ area ∈ areas, area.aka.InRange := by
  induction h with
  | nil => exact fun area harea => (List.not_mem_nil harea).elim
  | other h ih => exact ih fun st hst => hsts st (List.mem_cons_of_mem _ hst)
  | aka hbody h ih => exact ih fun st hst => hsts st (List.mem_cons_of_mem _ (List.mem_append_right _ hst))
  | area hbody h ih =>
    intro area harea
    rcases List.mem_cons.mp harea with rfl | harea
    · have hhead := hsts _ List.mem_cons_self _ rfl
      rw [hbody.all]
      exact hhead
    · exact ih (fun st hst => hsts st (List.mem_cons_of_mem _ (List.mem_append_right _ hst))) area harea

theorem parseCrashmail_entries {env : LoadEnv} {file : Option PrefsFile} {config : CrashmailConfig}
    (h : parseCrashmail env file = .ok config) : ∃ tokens sts areas, List.Forall₂ Says tokens sts ∧
      Entries sts config.akas areas ∧ List.Forall₂ (Resolved config.akas) areas config.areas := by
  cases file with
  | none => cases h
  | some f =>
    unfold parseCrashmail at h
    obtain ⟨s, hs, hresolve⟩ := Lists.except_bind_iff.mp h
    split at hresolve
    · cases hresolve
    · obtain ⟨tokens, body, sts, o, akas, areas, -, hsaid, hbody, hentries, hparsed⟩ :=
        readPrefsLines_ok (show readPrefsLines env 1 (openState [] [] .none) _ = .ok s from hs)
      obtain ⟨rfl, hothers⟩ := hbody.none
      obtain ⟨hakas, hareas⟩ := resolveAreaDomains_ok hresolve
      rw [hparsed] at hakas hareas
      rw [hakas]
      exact ⟨tokens, body ++ sts, areas, hsaid, hentries.others hothers, hareas⟩

/-- Every area of a configuration has an address that the parser has checked. -/
theorem loadPrefs_inRange {env : LoadEnv} {file : Option PrefsFile} {config : CrashmailConfig}
    (h : loadPrefs env file = .ok config) : ∀ area ∈ config.areas, area.aka.InRange := by
  unfold loadPrefs ftnConfigLoadCrashmail at h
  cases hparse : parseCrashmail env file with
  | error text =>
    rw [hparse] at h
    cases h
  | ok parsed =>
    rw [hparse] at h
    cases h
    obtain ⟨tokens, sts, areas, hsays, hentries, hresolved⟩ := parseCrashmail_entries hparse
    have hread := hentries.inRange fun st hst area harea => by
      obtain ⟨words, -, hword⟩ := Lists.forall₂_exists_mem (List.Forall₂.flip (R := flip Says) hsays) st hst
      subst harea
      cases hword with
      | area hbegins ha => exact ftnAddressParse_inRange ha
    intro area harea
    obtain ⟨read, hmem, hsame⟩ :=
      Lists.forall₂_exists_mem (List.Forall₂.flip (R := flip (Resolved _)) hresolved) area harea
    rw [hsame.same]
    exact hread read hmem

/-! ## What is found -/

section Found

variable {env : LoadEnv} {file : Option PrefsFile} {area : FtnArea} {link : FtnLink}

theorem loadNetmailArea_ok {destination : NetmailDestination} :
    loadNetmailAreaForDestination env file destination = .ok area ↔
      ∃ config, loadPrefs env file = .ok config ∧ NetmailArea destination config area := by
  unfold loadNetmailAreaForDestination
  cases hload : loadPrefs env file with
  | error text =>
    constructor
    · intro h
      cases h
    · rintro ⟨config, h, -⟩
      cases h
  | ok config =>
    show netmailAreaIn destination config = .ok area ↔ _
    rw [netmailAreaIn_ok]
    constructor
    · exact fun h => ⟨config, rfl, h⟩
    · rintro ⟨config', h, harea⟩
      cases h
      exact harea

/-- The tag and the domain that a conference stands for. -/
def wantedArea (fallbackTag : CString) : Option FtnConfig → Option CString × CString
  | some meeting => (some meeting.domain, meeting.tag)
  | none => (none, fallbackTag)

theorem loadEchomailAreaConfig_ok {sklaffDb fallbackTag conf : CString} {num : Int} {ftnconf : Option FtnConfig} :
    loadEchomailAreaConfig env file sklaffDb fallbackTag conf num ftnconf = .ok area ↔
      fallbackTag ≠ [] ∧ ∃ config, loadPrefs env file = .ok config ∧
        EchomailArea (wantedArea fallbackTag ftnconf).1 (wantedArea fallbackTag ftnconf).2 config area := by
  unfold loadEchomailAreaConfig
  by_cases htag : fallbackTag = []
  · rw [if_pos htag]
    constructor
    · intro h
      cases h
    · rintro ⟨h, -⟩
      exact absurd htag h
  · rw [if_neg htag]
    cases hload : loadPrefs env file with
    | error text =>
      constructor
      · intro h
        cases h
      · rintro ⟨-, config, h, -⟩
        cases h
    | ok config =>
      have harea {noArea several : CString} {domain : Option CString} {tag : CString} :
          echomailAreaIn noArea several domain tag config = .ok area ↔ fallbackTag ≠ [] ∧
            ∃ config', Except.ok config = (Except.ok config' : Except CString CrashmailConfig) ∧
              EchomailArea domain tag config' area := by
        rw [echomailAreaIn_ok]
        constructor
        · exact fun h => ⟨htag, config, rfl, h⟩
        · rintro ⟨-, config', h, harea⟩
          cases h
          exact harea
      cases ftnconf with
      | none => exact harea
      | some meeting => exact harea

theorem loadEchomailArea_ok {sklaffDb fallbackTag conf : CString} {num : Int} {ftnconf : Option FtnConfig} :
    loadEchomailArea env file sklaffDb fallbackTag conf num ftnconf = .ok (area, link) ↔
      fallbackTag ≠ [] ∧ (∃ config, loadPrefs env file = .ok config ∧
        EchomailArea (wantedArea fallbackTag ftnconf).1 (wantedArea fallbackTag ftnconf).2 config area) ∧
          Feed area link := by
  rw [← and_assoc, ← @loadEchomailAreaConfig_ok env file area sklaffDb fallbackTag conf num ftnconf]
  unfold loadEchomailArea
  cases hfound : loadEchomailAreaConfig env file sklaffDb fallbackTag conf num ftnconf with
  | error text =>
    constructor
    · intro h
      cases h
    · rintro ⟨h, -⟩
      cases h
  | ok found =>
    show (feedOf _ found >>= fun feed => Except.ok (found, feed)) = _ ↔ _
    cases hfeed : feedOf (ftntossError "mark exactly one EXPORT address with %".toList) found with
    | error text =>
      constructor
      · intro h
        cases h
      · rintro ⟨h, hlink⟩
        cases h
        rw [feedOf_ok.mpr hlink] at hfeed
        cases hfeed
    | ok feed =>
      constructor
      · intro h
        cases h
        exact ⟨rfl, feedOf_ok.mp hfeed⟩
      · rintro ⟨h, hlink⟩
        cases h
        rw [feedOf_ok.mpr hlink] at hfeed
        cases hfeed
        rfl

theorem loadEchomailAreaByIdentity_ok {domain tag : CString} :
    loadEchomailAreaByIdentity env file domain tag = .ok (area, link) ↔
      (domain ≠ [] ∧ tag ≠ []) ∧ (∃ config, loadPrefs env file = .ok config ∧
        EchomailArea (some domain) tag config area) ∧ Feed area link := by
  unfold loadEchomailAreaByIdentity
  by_cases hempty : domain = [] ∨ tag = []
  · rw [if_pos hempty]
    constructor
    · intro h
      cases h
    · rintro ⟨⟨hdomain, htag⟩, -⟩
      rcases hempty with h | h
      · exact absurd h hdomain
      · exact absurd h htag
  · rw [if_neg hempty]
    push Not at hempty
    cases hload : loadPrefs env file with
    | error text =>
      constructor
      · intro h
        cases h
      · rintro ⟨-, ⟨config, h, -⟩, -⟩
        cases h
    | ok config =>
      show (echomailAreaIn _ _ (some domain) tag config >>= fun area => feedOf [] area >>= fun feed =>
        Except.ok (area, feed)) = _ ↔ _
      generalize hnone :
        ftntossError ("echomail area ".toList ++ tag ++ '@' :: domain ++ " was not found in ".toList ++
        crashmailPrefsFile) = noArea
      generalize hmany : ftntossError ("more than one echomail area matches ".toList ++ tag ++ '@' :: domain ++
        " in ".toList ++ crashmailPrefsFile) = several
      constructor
      · intro h
        cases hfound : echomailAreaIn noArea several (some domain) tag config with
        | error text =>
          rw [hfound] at h
          cases h
        | ok found =>
          rw [hfound] at h
          change (feedOf [] found >>= fun feed => Except.ok (found, feed)) = _ at h
          cases hfeed : feedOf [] found with
          | error text =>
            rw [hfeed] at h
            cases h
          | ok feed =>
            rw [hfeed] at h
            cases h
            exact ⟨hempty, ⟨config, rfl, echomailAreaIn_ok.mp hfound⟩, feedOf_ok.mp hfeed⟩
      · rintro ⟨-, ⟨config', h, harea⟩, hlink⟩
        cases h
        rw [echomailAreaIn_ok.mpr harea]
        show (feedOf [] area >>= fun feed => Except.ok (area, feed)) = _
        rw [feedOf_ok.mpr hlink]
        rfl

end Found

/-- Netmail and echomail go to the only usable area that matches, and to its only feed; the order in which the
preferences list the areas makes no difference. -/
theorem areas_found_once (env : LoadEnv) (file : Option PrefsFile) :
    (∀ destination area, loadNetmailAreaForDestination env file destination = .ok area ↔
      ∃ config, loadPrefs env file = .ok config ∧ NetmailArea destination config area) ∧
    (∀ sklaffDb fallbackTag conf num ftnconf area link,
      loadEchomailArea env file sklaffDb fallbackTag conf num ftnconf = .ok (area, link) ↔
        fallbackTag ≠ [] ∧ (∃ config, loadPrefs env file = .ok config ∧
          EchomailArea (wantedArea fallbackTag ftnconf).1 (wantedArea fallbackTag ftnconf).2 config area) ∧
            Feed area link) ∧
    (∀ domain tag area link, loadEchomailAreaByIdentity env file domain tag = .ok (area, link) ↔
      (domain ≠ [] ∧ tag ≠ []) ∧ (∃ config, loadPrefs env file = .ok config ∧
        EchomailArea (some domain) tag config area) ∧ Feed area link) ∧
    ∀ config config' : CrashmailConfig, config.areas.Perm config'.areas →
      (∀ destination, netmailAreaIn destination config = netmailAreaIn destination config') ∧
      ∀ noArea several domain tag, echomailAreaIn noArea several domain tag config =
        echomailAreaIn noArea several domain tag config' :=
  ⟨fun _ _ => loadNetmailArea_ok, fun _ _ _ _ _ _ _ => loadEchomailArea_ok,
    fun _ _ _ _ => loadEchomailAreaByIdentity_ok,
    fun _ _ h => ⟨fun destination => netmailAreaIn_perm destination h, fun _ _ _ _ => echomailAreaIn_perm h⟩⟩

end SklaffKom
