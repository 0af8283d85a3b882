import SklaffKom.FtnRescan
import Mathlib.Data.Set.Basic

/-!
# The `MSGID`s of exported texts

A text that was written here is exported under a `MSGID` made of the address of the area, the number of
its conference and the number of the text, both of the latter cut to 16 bits.
-/

open CString

namespace SklaffKom

/-- The `MSGID` under which a text is exported. -/
def exportMsgid (aka : FtnAddress) (confnum textnum : Int) : CString :=
  makeFtnMsgidForAka aka (makeExportOneSerial confnum textnum)

/-- Different texts have different `MSGID`s. -/
def DistinctMsgids (aka : FtnAddress) (exported : Set (Int × Int)) : Prop :=
  ∀ p ∈ exported, ∀ q ∈ exported, p ≠ q → exportMsgid aka p.1 p.2 ≠ exportMsgid aka q.1 q.2

/-- A text without a `MSGID` line that was written here. -/
def Regenerated (conf : FtnConf) (textnum : Int) : Prop :=
  ∃ file t, conf.texts textnum = some file ∧ firstMsgid file = none ∧ readSkomExportText file = some t ∧
    0 < t.uid

/-- The scan leads the `MSGID` of every such text to the text. -/
def FoundAgain (confnum : Int) (aka : FtnAddress) (conf : FtnConf) : Prop :=
  ∀ n, 0 < n → n ≤ conf.lastText → Regenerated conf n →
    findSkref (scanExistingSklMsgids confnum aka conf) (exportMsgid aka confnum n) = n

/-! ## Hexadecimal digits -/

def hexDigit (c : Char) : Nat := if c.toNat < 58 then c.toNat - 48 else c.toNat - 87

def hexValue (s : CString) : Nat := s.foldl (fun a c => 16 * a + hexDigit c) 0

theorem hexDigit_digitChar : ∀ d < 16, hexDigit (Nat.digitChar d) = d := by decide

theorem hexValue_toDigits (n : Nat) : hexValue (Nat.toDigits 16 n) = n := by
  induction n using Nat.strong_induction_on with
  | _ n ih =>
    rw [Nat.toDigits_eq_if (by decide)]
    split
    · next h =>
      show 16 * 0 + hexDigit (Nat.digitChar n) = n
      rw [hexDigit_digitChar n h]
      omega
    · next h =>
      have hdiv := ih (n / 16) (by omega)
      unfold hexValue at hdiv ⊢
      rw [List.foldl_append, hdiv, List.foldl_cons, List.foldl_nil, hexDigit_digitChar _ (by omega)]
      omega

theorem hexValue_zeros (k : Nat) (s : CString) : hexValue (List.replicate k '0' ++ s) = hexValue s := by
  induction k with
  | zero => rfl
  | succ k ih =>
    rw [List.replicate_succ, List.cons_append, ← ih]
    rfl

theorem hexValue_hex8 (n : Nat) : hexValue (hex8 n) = n := by
  unfold hex8
  rw [hexValue_zeros, hexValue_toDigits]

theorem length_hex8 {n : Nat} (h : n < 2 ^ 32) : (hex8 n).length = 8 := by
  have hlen := (Nat.length_toDigits_le_iff (b := 16) (k := 8) (by decide) (by decide)).mpr h
  unfold hex8
  rw [List.length_append, List.length_replicate]
  omega

/-! ## Different texts -/

/-- The address and the serial fit the buffer. -/
theorem makeFtnMsgidForAka_eq (aka : FtnAddress) (serial : Nat) :
    makeFtnMsgidForAka aka serial = makeFtnAddr aka ++ [' '] ++ hex8 (serial % 2 ^ 32) := by
  have haddr : (makeFtnAddr aka).length ≤ 63 := List.length_take_le _ _
  have hhex := length_hex8 (Nat.mod_lt serial (show 0 < 2 ^ 32 by decide))
  unfold makeFtnMsgidForAka strlcpy
  apply List.take_of_length_le
  rw [List.length_append, List.length_append, List.length_singleton, hhex]
  omega

theorem makeFtnMsgidForAka_inj (aka : FtnAddress) {m n : Nat} :
    makeFtnMsgidForAka aka m = makeFtnMsgidForAka aka n ↔ m % 2 ^ 32 = n % 2 ^ 32 := by
  rw [makeFtnMsgidForAka_eq, makeFtnMsgidForAka_eq]
  constructor
  · intro h
    have hvalue := congrArg hexValue (List.append_cancel_left h)
    rwa [hexValue_hex8, hexValue_hex8] at hvalue
  · intro h
    rw [h]

/-- The number of the conference is kept, and the text number modulo 65536. -/
theorem exportMsgid_inj (aka : FtnAddress) {c d m n : Int} (hc : 1 ≤ c ∧ c ≤ 65535)
    (hd : 1 ≤ d ∧ d ≤ 65535) :
    exportMsgid aka c m = exportMsgid aka d n ↔ c = d ∧ m % 65536 = n % 65536 := by
  unfold exportMsgid makeExportOneSerial
  rw [makeFtnMsgidForAka_inj]
  omega

theorem distinctMsgids_iff (aka : FtnAddress) {exported : Set (Int × Int)}
    (h : ∀ p ∈ exported, 1 ≤ p.1 ∧ p.1 ≤ 65535) :
    DistinctMsgids aka exported ↔
      ∀ p ∈ exported, ∀ q ∈ exported, p.1 = q.1 → p.2 ≠ q.2 → p.2 % 65536 ≠ q.2 % 65536 := by
  constructor
  · intro hdistinct p hp q hq hconf htext hmod
    refine hdistinct p hp q hq ?_ ((exportMsgid_inj aka (h p hp) (h q hq)).mpr ⟨hconf, hmod⟩)
    rintro rfl
    exact htext rfl
  · intro hmod p hp q hq hne heq
    obtain ⟨hconf, hsame⟩ := (exportMsgid_inj aka (h p hp) (h q hq)).mp heq
    refine hmod p hp q hq hconf ?_ hsame
    intro htext
    exact hne (Prod.ext hconf htext)

/-! ## The scan -/

/-- The scan up to the text `k`. -/
def scanUpTo (confnum : Int) (aka : FtnAddress) (texts : Int → Option CString) (k : Nat) : List Skref :=
  ((List.range k).map fun i : Nat => (i : Int) + 1).foldl (scanStep confnum aka texts) []

theorem scanUpTo_succ (confnum : Int) (aka : FtnAddress) (texts : Int → Option CString) (k : Nat) :
    scanUpTo confnum aka texts (k + 1) = scanStep confnum aka texts (scanUpTo confnum aka texts k) (k + 1) := by
  unfold scanUpTo
  rw [List.range_succ, List.map_append, List.foldl_append]
  rfl

theorem findSkref_scanStep {confnum : Int} {aka : FtnAddress} {texts : Int → Option CString}
    {refs : List Skref} {n : Int} (hn : 0 < n) (id : CString) :
    findSkref (scanStep confnum aka texts refs n) id =
      if scanText confnum aka n (texts n) = some id then n else findSkref refs id := by
  unfold scanStep
  cases hs : scanText confnum aka n (texts n) with
  | none => rfl
  | some msgid =>
    dsimp only
    rw [findSkref_addSkref refs (scanText_ne_nil hs) hn]
    by_cases hid : id = msgid
    · rw [if_pos hid, if_pos (congrArg some hid.symm)]
    · rw [if_neg hid, if_neg fun h => hid (Option.some.inj h).symm]

/-- A `MSGID` leads to the last text that has it. -/
theorem findSkref_scanUpTo {confnum : Int} {aka : FtnAddress} {texts : Int → Option CString} {id : CString}
    {n : Int} (hn : 0 < n) (hscan : scanText confnum aka n (texts n) = some id) {k : Nat} (hk : n ≤ k) :
    findSkref (scanUpTo confnum aka texts k) id = n ↔
      ∀ m, n < m → m ≤ k → scanText confnum aka m (texts m) ≠ some id := by
  induction k with
  | zero => omega
  | succ k ih =>
    rw [scanUpTo_succ, findSkref_scanStep (by omega)]
    by_cases hlast : scanText confnum aka ((k : Int) + 1) (texts ((k : Int) + 1)) = some id
    · rw [if_pos hlast]
      constructor
      · intro hkn m hm hmk
        omega
      · intro hnone
        by_contra hne
        exact hnone ((k : Int) + 1) (by omega) (by omega) hlast
    · rw [if_neg hlast]
      have hnk : n ≤ k := by
        by_contra hlt
        have hkn : n = (k : Int) + 1 := by omega
        exact hlast (hkn ▸ hscan)
      rw [ih hnk]
      constructor
      · intro hnone m hm hmk
        by_cases hmlast : m = (k : Int) + 1
        · rw [hmlast]
          exact hlast
        · exact hnone m hm (by omega)
      · exact fun hnone m hm hmk => hnone m hm (by omega)

theorem scanText_regenerated {confnum : Int} {aka : FtnAddress} {conf : FtnConf} {n : Int}
    (h : Regenerated conf n) :
    scanText confnum aka n (conf.texts n) = some (exportMsgid aka confnum n) := by
  obtain ⟨file, t, hfile, hfirst, hread, huid⟩ := h
  unfold scanText
  rw [hfile, Option.bind_eq_bind, Option.bind_some, hfirst]
  dsimp only
  rw [hread, Option.bind_eq_bind, Option.bind_some, if_pos huid]
  rfl

/-- What the scan takes for the `MSGID` of a text. -/
theorem scanText_eq_some {confnum : Int} {aka : FtnAddress} {conf : FtnConf} {n : Int} {id : CString} :
    scanText confnum aka n (conf.texts n) = some id ↔
      (∃ file, conf.texts n = some file ∧ firstMsgid file = some id) ∨
        Regenerated conf n ∧ id = exportMsgid aka confnum n := by
  constructor
  · intro h
    cases hfile : conf.texts n with
    | none =>
      rw [hfile] at h
      cases h
    | some file =>
      cases hfirst : firstMsgid file with
      | some msgid =>
        unfold scanText at h
        rw [hfile, Option.bind_eq_bind, Option.bind_some, hfirst] at h
        exact Or.inl ⟨file, rfl, h ▸ hfirst⟩
      | none =>
        have hregenerated : Regenerated conf n := by
          unfold scanText at h
          rw [hfile, Option.bind_eq_bind, Option.bind_some, hfirst] at h
          obtain ⟨t, hread, huid⟩ := Option.bind_eq_some_iff.mp h
          refine ⟨file, t, hfile, hfirst, hread, ?_⟩
          by_contra hneg
          rw [if_neg hneg] at huid
          cases huid
        rw [scanText_regenerated hregenerated, Option.some.injEq] at h
        exact Or.inr ⟨hregenerated, h.symm⟩
  · rintro (⟨file, hfile, hfirst⟩ | ⟨hregenerated, rfl⟩)
    · unfold scanText
      rw [hfile, Option.bind_eq_bind, Option.bind_some, hfirst]
    · exact scanText_regenerated hregenerated

/-- No later text of the conference has the `MSGID` of this one: none that was written here has the same
number modulo 65536, and none has it on a line. -/
def NoneLater (confnum : Int) (aka : FtnAddress) (conf : FtnConf) (n : Int) : Prop :=
  ∀ m, n < m → m ≤ conf.lastText →
    (Regenerated conf m → m % 65536 ≠ n % 65536) ∧
      ∀ file, conf.texts m = some file → firstMsgid file ≠ some (exportMsgid aka confnum n)

theorem foundAgain_iff {confnum : Int} (hconf : 1 ≤ confnum ∧ confnum ≤ 65535) (aka : FtnAddress)
    (conf : FtnConf) : FoundAgain confnum aka conf ↔
      ∀ n, 0 < n → n ≤ conf.lastText → Regenerated conf n → NoneLater confnum aka conf n := by
  refine forall_congr' fun n => forall_congr' fun hn => forall_congr' fun hlast =>
    forall_congr' fun hregenerated => ?_
  have hcast : (conf.lastText.toNat : Int) = conf.lastText := by omega
  have hfind := @findSkref_scanUpTo confnum aka conf.texts _ n hn (scanText_regenerated hregenerated)
    conf.lastText.toNat (by omega)
  rw [hcast] at hfind
  rw [show scanExistingSklMsgids confnum aka conf = scanUpTo confnum aka conf.texts conf.lastText.toNat
    from rfl, hfind]
  refine forall_congr' fun m => forall_congr' fun hm => forall_congr' fun hmlast => ?_
  rw [ne_eq, scanText_eq_some, not_or, not_and, exportMsgid_inj aka hconf hconf]
  constructor
  · rintro ⟨hline, hnumber⟩
    exact ⟨fun hr hmod => hnumber hr ⟨rfl, hmod.symm⟩, fun file hfile hfirst => hline ⟨file, hfile, hfirst⟩⟩
  · rintro ⟨hnumber, hline⟩
    refine ⟨?_, fun hr heq => hnumber hr heq.2.symm⟩
    rintro ⟨file, hfile, hfirst⟩
    exact hline file hfile hfirst

/-- The `MSGID`s of exported texts are different, and lead back to the texts, if and only if no two texts
of a conference have the same number modulo 65536, and no later text has the `MSGID` of a text. -/
theorem exportedMsgids_iff (aka : FtnAddress) {exported : Set (Int × Int)}
    (h : ∀ p ∈ exported, 1 ≤ p.1 ∧ p.1 ≤ 65535 ∧ 0 < p.2) {confnum : Int}
    (hconf : 1 ≤ confnum ∧ confnum ≤ 65535) (conf : FtnConf) :
    DistinctMsgids aka exported ∧ FoundAgain confnum aka conf ↔
      (∀ p ∈ exported, ∀ q ∈ exported, p.1 = q.1 → p.2 ≠ q.2 → p.2 % 65536 ≠ q.2 % 65536) ∧
        ∀ n, 0 < n → n ≤ conf.lastText → Regenerated conf n → NoneLater confnum aka conf n := by
  rw [distinctMsgids_iff aka fun p hp => ⟨(h p hp).1, (h p hp).2.1⟩, foundAgain_iff hconf]

theorem exportedMsgids_iff_two :
    DistinctMsgids akaExample {(48, 123), (48, 124)} ∧ FoundAgain 4 akaExample emptyFtnConf ↔
      (∀ p ∈ ({(48, 123), (48, 124)} : Set (Int × Int)), ∀ q ∈ ({(48, 123), (48, 124)} : Set (Int × Int)),
        p.1 = q.1 → p.2 ≠ q.2 → p.2 % 65536 ≠ q.2 % 65536) ∧
        ∀ n, 0 < n → n ≤ emptyFtnConf.lastText → Regenerated emptyFtnConf n →
          NoneLater 4 akaExample emptyFtnConf n := by
  apply exportedMsgids_iff akaExample _ (by decide)
  rintro p (rfl | rfl)
  · decide
  · decide

/-- Two texts of one conference with one `MSGID`. -/
theorem exportMsgid_collides :
    exportMsgid akaExample 4 1 = "2:201/1 00040001".toList ∧
      exportMsgid akaExample 4 65537 = "2:201/1 00040001".toList ∧
      ¬ DistinctMsgids akaExample {(4, 1), (4, 65537)} := by
  refine ⟨by decide +kernel, by decide +kernel, fun h => ?_⟩
  exact h (4, 1) (Or.inl rfl) (4, 65537) (Or.inr rfl) (by decide) (by decide +kernel)

end SklaffKom
