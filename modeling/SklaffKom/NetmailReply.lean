import SklaffKom.FtnRecords
import SklaffKom.FtnAddress
import SklaffKom.Lib.Substrings

/-!
# Answering a netmail

`cmd_comment` takes the sender and the address of a netmail from the header lines that
`send_netmail_with_context` has stored.
-/

open CString

namespace SklaffKom

/-! ## Header lines -/

/-- `text_body_header_value` into a buffer of the given size. -/
def textBodyHeaderValue (outsz : Nat) (key : CString) : List CString → Option CString
  | [] => none
  | line :: tb =>
    if key.isPrefixOf line then
      some (trimEnd isBlank (cutEol (strlcpy outsz ((line.drop key.length).dropWhile isBlank))))
    else textBodyHeaderValue outsz key tb

/-- `netmail_reply_name_from_fromline` -/
def netmailReplyName (fromline addr : CString) (outsz : Nat) : CString :=
  let out := strlcpy outsz fromline
  let front :=
    if addr = [] then out
    else
      match strstr out addr with
      | some p => trimEnd (fun c => c = ' ' || c = '(') (out.take (out.length - p.length))
      | none => out
  trimEnd isBlank front

/-- The loop of `ftn_addr_from_fromline`: the first text in parentheses that looks like an address. -/
def parenAddress (outsz : Nat) : Nat → CString → CString
  | 0, _ => []
  | fuel + 1, s =>
    match cutAt '(' s with
    | none => []
    | some (_, p) =>
      match cutAt ')' p with
      | none => []
      | some (out, rest) =>
        if out ≠ [] ∧ out.length < outsz ∧ ':' ∈ out ∧ '/' ∈ out then out
        else parenAddress outsz fuel rest

def ftnAddrFromFromline (fromline : CString) (outsz : Nat) : CString :=
  parenAddress outsz (fromline.length + 1) fromline

/-! ## What is expected -/

/-- The sender's name as it is stored. -/
def netmailName (msg : FidoMsg) : CString :=
  netmailToSf7 (if msg.fromName = [] then "(unknown)".toList else msg.fromName) msg.chrs

/-- What is in parentheses is closed again and no address. -/
inductive PlainParens : CString → Prop
  | text {s : CString} (h : '(' ∉ s) : PlainParens s
  | group {s g rest : CString} (hs : '(' ∉ s) (hg : ')' ∉ g) (hplain : ¬ (':' ∈ g ∧ '/' ∈ g))
      (hrest : PlainParens rest) : PlainParens (s ++ '(' :: (g ++ ')' :: rest))

/-- The name and the address can be told apart in `name (addr)`. -/
structure ToldApart (name addr : CString) : Prop where
  noTripletName : NoTriplet name
  noTripletAddr : NoTriplet addr
  first : ∀ c ∈ name.head?, isBlank c = true → ∀ d ∈ name, isBlank d = true
  closes : ')' ∉ addr
  line : ∀ c ∈ addr, isEol c = false
  parens : PlainParens name
  once : ∀ u v, name ++ ' ' :: '(' :: addr = u ++ (addr ++ v) → v = []

/-- An address as the scans look for it. -/
structure LooksLikeAddress (addr : CString) : Prop where
  colon : ':' ∈ addr
  slash : '/' ∈ addr
  head : ∀ c ∈ addr.head?, c ≠ ' ' ∧ c ≠ '\t' ∧ c ≠ '('

/-- The sender's address: the first word of the `MSGID`, with the domain when it has none. -/
def senderAddress (msgid domain : CString) : CString :=
  let word := msgid.takeWhile fun c => !isSpace c
  if '@' ∈ word ∨ domain = [] then word else word ++ '@' :: domain

/-- The two functions find the name and the address in the text. -/
def ReplyFound (text name addr : CString) : Prop :=
  ∃ te next v, getTextEntry text = .entry te next ∧
    textBodyHeaderValue 159 "From:".toList te.body = some v ∧
    ftnAddrFromFromline v 80 = addr ∧ netmailReplyName v addr 80 = trimEnd isBlank name

variable {name addr s x y v : CString} {outsz fuel : Nat}

theorem LooksLikeAddress.ne_nil (h : LooksLikeAddress addr) : addr ≠ [] := List.ne_nil_of_mem h.colon

/-! ## The text in parentheses -/

theorem parenAddress_eq (h : parenAddress outsz fuel s = addr) (hne : addr ≠ []) :
    ∃ x y, s = x ++ '(' :: (addr ++ ')' :: y) ∧ ')' ∉ addr := by
  induction fuel generalizing s with
  | zero => exact absurd h.symm hne
  | succ fuel ih =>
    unfold parenAddress at h
    split at h
    · exact absurd h.symm hne
    · rename_i front p hopen
      split at h
      · exact absurd h.symm hne
      · rename_i out rest hclose
        obtain ⟨hs, -⟩ := cutAt_eq_some.mp hopen
        obtain ⟨hp, hout⟩ := cutAt_eq_some.mp hclose
        split at h
        · rw [h] at hp hout
          exact ⟨front, rest, by rw [hs, hp], hout⟩
        · obtain ⟨x, y, hrest, haddr⟩ := ih h
          refine ⟨front ++ '(' :: (out ++ ')' :: x), y, ?_, haddr⟩
          rw [hs, hp, hrest]
          simp

/-- Groups that are no addresses are passed over. -/
theorem PlainParens.scan (h : PlainParens name) (haddr : LooksLikeAddress addr) (hclose : ')' ∉ addr)
    (hfuel : name.length < fuel) (hsize : addr.length < outsz) :
    parenAddress outsz fuel (name ++ '(' :: (addr ++ [')'])) = addr := by
  induction h generalizing fuel with
  | @text s hs =>
    cases fuel with
    | zero => omega
    | succ fuel =>
      rw [parenAddress, cutAt_append hs]
      simp only [cutAt_append hclose]
      rw [if_pos ⟨haddr.ne_nil, hsize, haddr.colon, haddr.slash⟩]
  | @group s g rest hs hg hplain hrest ih =>
    cases fuel with
    | zero => omega
    | succ fuel =>
      have hlen : rest.length < fuel := by
        simp only [List.length_append, List.length_cons] at hfuel
        omega
      have hsplit : s ++ '(' :: (g ++ ')' :: rest) ++ '(' :: (addr ++ [')']) =
          s ++ '(' :: (g ++ ')' :: (rest ++ '(' :: (addr ++ [')']))) := by simp
      rw [hsplit, parenAddress, cutAt_append hs]
      simp only [cutAt_append hg]
      rw [if_neg (fun h => hplain h.2.2)]
      exact ih hlen

/-- When the address is found and is not in the name, all groups of the name are passed over. -/
theorem plainParens_of_scan (h : parenAddress outsz fuel (s ++ ' ' :: '(' :: (addr ++ [')'])) = addr)
    (haddr : LooksLikeAddress addr) (hclose : ')' ∉ addr)
    (honce : ∀ u v, s ++ ' ' :: '(' :: addr = u ++ (addr ++ v) → v = [])
    (hsize : s.length + addr.length + 3 ≤ outsz) : PlainParens s := by
  induction hn : s.length using Nat.strong_induction_on generalizing s fuel with
  | _ n ih =>
    by_cases hopen : '(' ∈ s
    · obtain ⟨front, p, rfl, hfront⟩ := List.eq_append_cons_of_mem hopen
      cases fuel with
      | zero => exact absurd h.symm haddr.ne_nil
      | succ fuel =>
        by_cases hp : ')' ∈ p
        · obtain ⟨g, rest, rfl, hg⟩ := List.eq_append_cons_of_mem hp
          have hsplit : front ++ '(' :: (g ++ ')' :: rest) ++ ' ' :: '(' :: (addr ++ [')']) =
              front ++ '(' :: (g ++ ')' :: (rest ++ ' ' :: '(' :: (addr ++ [')']))) := by simp
          rw [hsplit, parenAddress, cutAt_append hfront] at h
          simp only [cutAt_append hg] at h
          simp only [List.length_append, List.length_cons] at hsize hn
          split at h
          · -- the group would be the address
            rw [h] at honce
            have hv := honce (front ++ ['(']) (')' :: rest ++ ' ' :: '(' :: addr) (by simp)
            cases hv
          · rename_i hplain
            refine PlainParens.group hfront hg ?_ (ih rest.length (by omega) h ?_ (by omega) rfl)
            · rintro ⟨hcolon, hslash⟩
              exact hplain ⟨List.ne_nil_of_mem hcolon, by omega, hcolon, hslash⟩
            · intro u v huv
              refine honce (front ++ '(' :: (g ++ ')' :: u)) v ?_
              have hfull : front ++ '(' :: (g ++ ')' :: rest) ++ ' ' :: '(' :: addr =
                  front ++ '(' :: (g ++ ')' :: (rest ++ ' ' :: '(' :: addr)) := by simp
              rw [hfull, huv]
              simp
        · -- the group is closed behind the address
          have hg : ')' ∉ p ++ ' ' :: '(' :: addr := by
            simp only [List.mem_append, List.mem_cons, not_or]
            exact ⟨hp, by decide, by decide, hclose⟩
          have hsplit : front ++ '(' :: p ++ ' ' :: '(' :: (addr ++ [')']) =
              front ++ '(' :: ((p ++ ' ' :: '(' :: addr) ++ ')' :: []) := by simp
          rw [hsplit, parenAddress, cutAt_append hfront] at h
          simp only [cutAt_append hg] at h
          simp only [List.length_append, List.length_cons] at hsize
          rw [if_pos] at h
          · have hlen := congrArg List.length h
            simp only [List.length_append, List.length_cons] at hlen
            omega
          · refine ⟨by simp, ?_, ?_, ?_⟩
            · simp only [List.length_append, List.length_cons]
              omega
            · simp [haddr.colon]
            · simp [haddr.slash]
    · exact PlainParens.text hopen

/-- A parenthesis that is not closed is in no group. -/
theorem PlainParens.closed (h : PlainParens name) {a b : CString} (hname : name = a ++ '(' :: b) :
    ')' ∈ b := by
  induction h generalizing a with
  | @text s hs =>
    rw [hname] at hs
    exact absurd (by simp) hs
  | @group s g rest hs hg hplain hrest ih =>
    rcases List.append_eq_append_iff.mp hname with ⟨c, ha, hc⟩ | ⟨c, hs', hc⟩
    · cases c with
      | nil =>
        rw [← (List.cons.inj hc).2]
        simp
      | cons d c =>
        rcases List.append_eq_append_iff.mp (List.cons.inj hc).2 with ⟨e, he, hrest'⟩ | ⟨e, he, hb⟩
        · cases e with
          | nil => exact absurd (List.cons.inj hrest').1 (by decide)
          | cons f e => exact ih (List.cons.inj hrest').2
        · cases e with
          | nil => exact absurd (List.cons.inj hb).1 (by decide)
          | cons f e =>
            rw [(List.cons.inj hb).2]
            simp
    · cases c with
      | nil =>
        rw [List.nil_append] at hc
        rw [(List.cons.inj hc).2]
        simp
      | cons d c =>
        rw [List.cons_append] at hc
        refine absurd ?_ hs
        rw [hs', (List.cons.inj hc).1]
        simp

/-! ## The name -/

/-- Blanks and parentheses in front of the address. -/
def beforeAddress (c : Char) : Bool := c = ' ' || c = '('

theorem netmailReplyName_append {u v : CString} (hne : addr ≠ []) (hfits : s.length < outsz)
    (hs : s = u ++ (addr ++ v)) (hfind : strstr s addr = some (addr ++ v)) :
    netmailReplyName s addr outsz = trimEnd isBlank (trimEnd beforeAddress u) := by
  have hout : strlcpy outsz s = s := List.take_of_length_le (by omega)
  have hu : s.take (s.length - (addr ++ v).length) = u := by rw [hs, take_before]
  unfold netmailReplyName
  simp only [hout, if_neg hne, hfind, hu]
  rfl

/-- Behind a name whose parentheses are closed, nothing but blanks is taken off. -/
theorem PlainParens.trimEnd_eq (h : PlainParens name) :
    trimEnd isBlank (trimEnd beforeAddress name) = trimEnd isBlank name := by
  obtain ⟨r, hname, hr⟩ := trimEnd_append beforeAddress name
  have hopen : '(' ∉ r := by
    intro hmem
    obtain ⟨a, b, hab⟩ := List.append_of_mem hmem
    have hclosed : ')' ∈ b := h.closed (a := trimEnd beforeAddress name ++ a) (by
      conv => lhs; rw [hname, hab]
      simp)
    have hb := hr ')' (by rw [hab]; simp [hclosed])
    exact absurd hb (by decide)
  have hblank : ∀ c ∈ r, isBlank c = true := by
    intro c hc
    have hcase := hr c hc
    rcases Bool.or_eq_true_iff.mp hcase with hsp | hop
    · rw [of_decide_eq_true hsp]
      rfl
    · exact absurd (of_decide_eq_true hop ▸ hc) hopen
  conv => rhs; rw [hname]
  exact (trimEnd_eq_of_append _ hblank).symm

theorem netmailReplyName_le (hne : addr ≠ []) (hfits : s.length < outsz) {m : CString}
    (h : netmailReplyName s addr outsz = m) {a b : CString} (hs : s = a ++ (addr ++ b)) :
    m <+: s ∧ m.length ≤ a.length := by
  obtain ⟨u, v, hfind, hu, hlen⟩ := @strstr_first addr a b
  rw [← hs] at hfind hu
  rw [netmailReplyName_append hne hfits hu hfind] at h
  have hm : m <+: u := by
    rw [← h]
    have hblanks := trimEnd_prefix isBlank (trimEnd beforeAddress u)
    have hbefore := trimEnd_prefix beforeAddress u
    exact hblanks.trans hbefore
  exact ⟨hm.trans ⟨_, hu.symm⟩, hm.length_le.trans hlen⟩

/-- The name ends in front of the parenthesis. -/
theorem netmailReplyName_before (hne : addr ≠ []) (hfits : s.length < outsz) {m : CString}
    (h : netmailReplyName s addr outsz = m) (hs : s = x ++ '(' :: (addr ++ y)) : m.length ≤ x.length := by
  obtain ⟨u, v, hfind, hu, hlen⟩ := @strstr_first addr (x ++ ['(']) y
  have hs' : s = x ++ ['('] ++ (addr ++ y) := by rw [hs]; simp
  rw [← hs'] at hfind hu
  rw [netmailReplyName_append hne hfits hu hfind] at h
  rw [List.length_append, List.length_singleton] at hlen
  have htrim : (trimEnd beforeAddress u).length ≤ x.length := by
    by_cases hlast : u.length ≤ x.length
    · exact (trimEnd_length_le _ _).trans hlast
    · have hux : u = x ++ ['('] := by
        have hp : u <+: s := ⟨_, hu.symm⟩
        have hp' : x ++ ['('] <+: s := ⟨_, hs'.symm⟩
        refine (List.prefix_of_prefix_length_le hp hp' ?_).eq_of_length ?_
        · simp only [List.length_append, List.length_singleton]
          omega
        · simp only [List.length_append, List.length_singleton]
          omega
      rw [hux, trimEnd_eq_of_append x (by simp [beforeAddress])]
      exact trimEnd_length_le _ _
  rw [← h]
  exact (trimEnd_length_le _ _).trans htrim

/-- Where only blanks and parentheses are, the address does not begin. -/
theorem LooksLikeAddress.at_end (haddr : LooksLikeAddress addr) {m l u v : CString}
    (hl : ∀ c ∈ l, c = ' ' ∨ c = '\t' ∨ c = '(') (h : m ++ (l ++ addr) = u ++ (addr ++ v))
    (hlen : m.length ≤ u.length) : v = [] := by
  obtain ⟨e, rfl⟩ : m <+: u := List.prefix_of_prefix_length_le ⟨_, rfl⟩ ⟨_, h.symm⟩ hlen
  rw [List.append_assoc, List.append_cancel_left_eq] at h
  have hle : l.length ≤ e.length := by
    by_contra hlt
    obtain ⟨f, rfl⟩ : e <+: l := List.prefix_of_prefix_length_le ⟨_, h.symm⟩ ⟨_, rfl⟩ (by omega)
    rw [List.append_assoc, List.append_cancel_left_eq] at h
    cases f with
    | nil => exact hlt (by simp)
    | cons c f =>
      cases haddr' : addr with
      | nil => exact haddr.ne_nil haddr'
      | cons d addr' =>
        rw [haddr'] at h
        have hcd : c = d := (List.cons.inj h).1
        obtain ⟨h1, h2, h3⟩ := haddr.head d (by rw [haddr']; rfl)
        rcases hl c (by simp) with hc | hc | hc
        · exact h1 (hcd ▸ hc)
        · exact h2 (hcd ▸ hc)
        · exact h3 (hcd ▸ hc)
  have hlengths := congrArg List.length h
  simp only [List.length_append] at hlengths
  exact List.length_eq_zero_iff.mp (by omega)

/-! ## The line as it is read -/

theorem decodeLine_blanks {m b : CString} (hb : ∀ c ∈ b, isBlank c = true) :
    decodeLine '^' (m ++ b) = decodeLine '^' m ++ b := by
  induction b generalizing m with
  | nil => rw [List.append_nil, List.append_nil]
  | cons c b ih =>
    obtain ⟨hc, hb⟩ := List.forall_mem_cons.mp hb
    have hsep : c ∉ tripletDigits ∧ c ≠ '=' := by
      rcases Bool.or_eq_true_iff.mp hc with hc | hc
      · rw [of_decide_eq_true hc]
        decide
      · rw [of_decide_eq_true hc]
        decide
    have hrest := ih (m := []) hb
    have hnil : decodeLine '^' [] = [] := by rw [decodeLine]
    rw [hnil, List.nil_append] at hrest
    rw [decodeLine_sep hsep.1 hsep.2, hrest]

/-- What ends in no blank does not reach into the blanks. -/
theorem length_le_of_prefix {m k b : CString} (hb : ∀ c ∈ b, isBlank c = true)
    (hlast : ∀ c ∈ m.getLast?, isBlank c = false) (h : m <+: k ++ b) : m.length ≤ k.length := by
  by_contra hlt
  obtain ⟨t, rfl⟩ : k <+: m := List.prefix_of_prefix_length_le ⟨_, rfl⟩ h (by omega)
  have htne : t ≠ [] := by
    rintro rfl
    exact hlt (by simp)
  have hc := hlast (t.getLast htne) (by
    rw [List.getLast?_append_of_ne_nil _ htne]
    exact List.getLast?_eq_getLast_of_ne_nil htne)
  rw [List.prefix_append_right_inj] at h
  rw [hb _ (h.subset (List.getLast_mem htne))] at hc
  cases hc

/-- What is left of the name and the blanks behind it, without blanks in front, begins with the name only
when nothing of it has changed. -/
theorem name_unchanged (m b : CString) (hb : ∀ c ∈ b, isBlank c = true) (hm : m ≠ [])
    (hlast : ∀ c ∈ m.getLast?, isBlank c = false)
    (h : m <+: (decodeLine '^' m ++ b).dropWhile isBlank) :
    NoTriplet m ∧ (∀ c ∈ m.head?, isBlank c = false) ∧
      (decodeLine '^' m ++ b).dropWhile isBlank = m ++ b := by
  have hbd : b.dropWhile isBlank = [] := List.dropWhile_eq_nil_iff.mpr hb
  rw [List.dropWhile_append, hbd] at h ⊢
  have hk := length_decodeLine_le '^' m
  have hkd := (List.dropWhile_sublist isBlank (l := decodeLine '^' m)).length_le
  split at h
  · exact absurd (List.prefix_nil.mp h) hm
  · rename_i hne
    rw [if_neg hne]
    have hle := length_le_of_prefix hb hlast h
    have hno := noTriplet_of_length (l := m) (by omega)
    have hdec := decodeLine_of_noTriplet '^' hno
    rw [hdec] at hle ⊢
    refine ⟨hno, ?_, ?_⟩
    · have hself := (List.dropWhile_suffix isBlank (l := m)).eq_of_length_le hle
      intro c hc
      have hnot := List.head?_dropWhile_not isBlank m
      rw [hself, Option.mem_def.mp hc] at hnot
      simpa using hnot
    · rw [(List.dropWhile_suffix isBlank (l := m)).eq_of_length_le hle]

theorem blank_or_tab {c : Char} (h : isBlank c = true) : c = ' ' ∨ c = '\t' := by
  rcases Bool.or_eq_true_iff.mp h with h | h
  · exact Or.inl (of_decide_eq_true h)
  · exact Or.inr (of_decide_eq_true h)

theorem blanks_snoc {b : CString} (hb : ∀ c ∈ b, isBlank c = true) :
    ∀ c ∈ b ++ [' '], isBlank c = true := by
  intro c hc
  rcases List.mem_append.mp hc with hc | hc
  · exact hb c hc
  · rw [List.mem_singleton.mp hc]
    rfl

/-- A name without characters other than blanks is skipped; another one is unchanged, and so is the address,
when the line has the name in front and then the address in parentheses. -/
theorem line_unchanged {m b : CString} (hname : name = m ++ b) (hb : ∀ c ∈ b, isBlank c = true)
    (hlast : ∀ c ∈ m.getLast?, isBlank c = false)
    (hv : v <+: (decodeLine '^' name ++ [' ']).dropWhile isBlank ++ '(' :: (decodeLine '^' addr ++ [')']))
    (hx : v = x ++ '(' :: (addr ++ ')' :: y)) (hm : m <+: v) (hmx : m.length ≤ x.length) :
    y = [] ∧ NoTriplet addr ∧ ((m = [] ∧ x = []) ∨
      (NoTriplet m ∧ (∀ c ∈ m.head?, isBlank c = false) ∧ m ≠ [] ∧ x = name ++ [' '])) := by
  have hbs := blanks_snoc hb
  rw [hname, decodeLine_blanks hb, List.append_assoc] at hv
  rw [hname, List.append_assoc]
  generalize hL : (decodeLine '^' m ++ (b ++ [' '])).dropWhile isBlank = L at hv
  have hla := length_decodeLine_le '^' addr
  have hlv := hv.length_le
  have hxlen := congrArg List.length hx
  simp only [List.length_append, List.length_cons, List.length_nil] at hlv hxlen
  have hxv : x <+: v := ⟨_, hx.symm⟩
  have hxL : x <+: L := List.prefix_of_prefix_length_le (hxv.trans hv) (List.prefix_append _ _) (by omega)
  have hcases : (m = [] ∧ L = []) ∨ (NoTriplet m ∧ (∀ c ∈ m.head?, isBlank c = false) ∧ m ≠ [] ∧
      L = m ++ (b ++ [' '])) := by
    by_cases hnil : m = []
    · refine Or.inl ⟨hnil, ?_⟩
      rw [← hL, hnil, decodeLine, List.nil_append, List.dropWhile_eq_nil_iff]
      exact hbs
    · have hmL := (List.prefix_of_prefix_length_le hm hxv hmx).trans hxL
      rw [← hL] at hmL
      obtain ⟨hno, hhead, hkept⟩ := name_unchanged m (b ++ [' ']) hbs hnil hlast hmL
      exact Or.inr ⟨hno, hhead, hnil, by rw [← hL, hkept]⟩
  have hall : x = L := by
    rcases hcases with ⟨-, hnil⟩ | ⟨-, -, -, hkept⟩
    · rw [hnil] at hxL ⊢
      exact List.prefix_nil.mp hxL
    · by_contra hne
      have hlt : x.length < L.length := lt_of_le_of_ne hxL.length_le fun h => hne (hxL.eq_of_length h)
      have hpre : x ++ ['('] <+: L := by
        have hxp : x ++ ['('] <+: v := ⟨addr ++ ')' :: y, by rw [hx]; simp⟩
        refine List.prefix_of_prefix_length_le (hxp.trans hv) (List.prefix_append _ _) ?_
        rw [List.length_append, List.length_singleton]
        omega
      -- the parenthesis would be one of the blanks
      obtain ⟨e, rfl⟩ := List.prefix_of_prefix_length_le hm hxv hmx
      rw [hkept, List.append_assoc, List.prefix_append_right_inj] at hpre
      exact absurd (hbs '(' (hpre.subset (by simp))) (by decide)
  rw [← hall] at hcases hlv
  refine ⟨List.length_eq_zero_iff.mp (by omega), noTriplet_of_length (by omega), hcases⟩

theorem LooksLikeAddress.once (haddr : LooksLikeAddress addr) {m b u w : CString} (hname : name = m ++ b)
    (hb : ∀ c ∈ b, isBlank c = true) (hlen : m.length ≤ u.length)
    (h : name ++ ' ' :: '(' :: addr = u ++ (addr ++ w)) : w = [] := by
  have hl : ∀ c ∈ b ++ [' ', '('], c = ' ' ∨ c = '\t' ∨ c = '(' := by
    intro c hc
    rcases List.mem_append.mp hc with hc | hc
    · rcases blank_or_tab (hb c hc) with hc | hc
      · exact Or.inl hc
      · exact Or.inr (Or.inl hc)
    · simp only [List.mem_cons, List.not_mem_nil, or_false] at hc
      rcases hc with hc | hc
      · exact Or.inl hc
      · exact Or.inr (Or.inr hc)
  refine haddr.at_end (m := m) hl ?_ hlen
  rw [← h, hname]
  simp

/-- What the two scans of a line have found are its two parts. -/
theorem toldApart_of_scans (haddr : LooksLikeAddress addr) (hlen : name.length + addr.length + 3 ≤ 72)
    (hv : v <+: (decodeLine '^' name ++ [' ']).dropWhile isBlank ++ '(' :: (decodeLine '^' addr ++ [')']))
    (heol : ∀ c ∈ v, isEol c = false) (hfits : v.length < 80) (hfound : ftnAddrFromFromline v 80 = addr)
    (hreply : netmailReplyName v addr 80 = trimEnd isBlank name) : ToldApart name addr := by
  obtain ⟨x, y, hx, hclose⟩ := parenAddress_eq hfound haddr.ne_nil
  obtain ⟨b, hname, hb⟩ := trimEnd_append isBlank name
  have hlast := getLast_trimEnd isBlank name
  generalize trimEnd isBlank name = m at hname hlast hreply
  have hx' : v = x ++ ['('] ++ (addr ++ ')' :: y) := by rw [hx]; simp
  have hm := (netmailReplyName_le haddr.ne_nil hfits hreply hx').1
  have hmx := netmailReplyName_before haddr.ne_nil hfits hreply hx
  obtain ⟨hy, hnoaddr, hcases⟩ := line_unchanged hname hb hlast hv hx hm hmx
  have hline : ∀ c ∈ addr, isEol c = false := by
    intro c hc
    refine heol c ?_
    rw [hx]
    simp [hc]
  rcases hcases with ⟨rfl, rfl⟩ | ⟨hno, hhead, hne, rfl⟩
  · -- nothing but blanks
    rw [List.nil_append] at hname
    have hnot (c : Char) (hc : isBlank c = false) : c ∉ name := by
      intro hmem
      rw [hname] at hmem
      rw [hb c hmem] at hc
      cases hc
    refine ⟨noTriplet_of_notMem (hnot '=' rfl), hnoaddr, ?_, hclose, hline, .text (hnot '(' rfl), ?_⟩
    · intro _ _ _
      rwa [hname]
    · intro u w h
      exact haddr.once (m := []) hname hb (Nat.zero_le _) h
  · have honce : ∀ u w, name ++ ' ' :: '(' :: addr = u ++ (addr ++ w) → w = [] := by
      intro u w h
      have hvu : v = u ++ (addr ++ (w ++ [')'])) := by
        have hfull : u ++ (addr ++ (w ++ [')'])) = (u ++ (addr ++ w)) ++ [')'] := by simp
        rw [hfull, ← h, hx, hy]
        simp
      exact haddr.once hname hb (netmailReplyName_le haddr.ne_nil hfits hreply hvu).2 h
    have hparens : PlainParens name := by
      have hscan : parenAddress 80 (v.length + 1) v = addr := hfound
      have hv' : v = name ++ ' ' :: '(' :: (addr ++ [')']) := by
        rw [hx, hy]
        simp
      rw [hv'] at hscan
      exact plainParens_of_scan hscan haddr hclose honce (by omega)
    refine ⟨?_, hnoaddr, ?_, hclose, hline, hparens, honce⟩
    · refine noTriplet_of_length ?_
      rw [hname, decodeLine_blanks hb, decodeLine_of_noTriplet '^' hno]
    · intro c hc hblank
      rw [hname, List.head?_append_of_ne_nil _ hne] at hc
      rw [hhead c hc] at hblank
      cases hblank

/-! ## Answers -/

theorem PlainParens.blank (h : PlainParens name) : PlainParens (name ++ [' ']) := by
  induction h with
  | text hs => exact .text (by simp [hs])
  | @group s g rest hs hg hplain hrest ih =>
    have hsplit : s ++ '(' :: (g ++ ')' :: rest) ++ [' '] = s ++ '(' :: (g ++ ')' :: (rest ++ [' '])) := by
      simp
    rw [hsplit]
    exact .group hs hg hplain ih

/-- The name as it stands in the line without the blanks in front. -/
def shownName (name : CString) : CString := (name ++ [' ']).dropWhile isBlank

theorem shownName_cases (hfirst : ∀ c ∈ name.head?, isBlank c = true → ∀ d ∈ name, isBlank d = true) :
    ((∀ d ∈ name, isBlank d = true) ∧ shownName name = []) ∨ shownName name = name ++ [' '] := by
  unfold shownName
  cases name with
  | nil => exact Or.inl ⟨fun _ h => absurd h List.not_mem_nil, rfl⟩
  | cons c name =>
    by_cases hc : isBlank c = true
    · have hall := hfirst c rfl hc
      exact Or.inl ⟨hall, List.dropWhile_eq_nil_iff.mpr (blanks_snoc hall)⟩
    · right
      rw [List.cons_append, List.dropWhile_cons_of_neg hc]

theorem ToldApart.scans (h : ToldApart name addr) (haddr : LooksLikeAddress addr)
    (hlen : name.length + addr.length + 3 ≤ 72) :
    ftnAddrFromFromline (shownName name ++ '(' :: (addr ++ [')'])) 80 = addr ∧
      netmailReplyName (shownName name ++ '(' :: (addr ++ [')'])) addr 80 = trimEnd isBlank name := by
  have hshort : (shownName name).length ≤ name.length + 1 := by
    have hle := (List.dropWhile_sublist isBlank (l := name ++ [' '])).length_le
    rwa [List.length_append] at hle
  have hfits : (shownName name ++ '(' :: (addr ++ [')'])).length < 80 := by
    simp only [List.length_append, List.length_cons, List.length_nil]
    omega
  constructor
  · have hparens : PlainParens (shownName name) := by
      rcases shownName_cases h.first with ⟨-, hnil⟩ | hkept
      · rw [hnil]
        exact .text List.not_mem_nil
      · rw [hkept]
        exact h.parens.blank
    refine hparens.scan haddr h.closes ?_ (by omega)
    simp only [List.length_append, List.length_cons, List.length_nil]
    omega
  · obtain ⟨u, w, hfind, hu, -⟩ := @strstr_first addr (shownName name ++ ['(']) [')']
    have hsplit : shownName name ++ ['('] ++ (addr ++ [')']) = shownName name ++ '(' :: (addr ++ [')']) := by
      simp
    rw [hsplit] at hfind hu
    -- what is found is the address at its place
    have hw : w = [')'] := by
      rcases List.eq_nil_or_concat w with rfl | ⟨w', c, rfl⟩
      · have hlast := congrArg List.getLast? hu
        rw [List.append_nil, ← hsplit, ← List.append_assoc, List.getLast?_concat,
          List.getLast?_append_of_ne_nil _ haddr.ne_nil] at hlast
        exact absurd (List.mem_of_getLast? hlast.symm) h.closes
      · rw [List.concat_eq_append] at hu ⊢
        have hu' : (shownName name ++ '(' :: addr) ++ [')'] = (u ++ (addr ++ w')) ++ [c] := by
          simpa using hu
        obtain ⟨hbody, hc⟩ := List.append_inj' hu' rfl
        obtain ⟨p, hp⟩ : ∃ p, name ++ ' ' :: '(' :: addr = p ++ (shownName name ++ '(' :: addr) := by
          rcases shownName_cases h.first with ⟨-, hnil⟩ | hkept
          · exact ⟨name ++ [' '], by rw [hnil]; simp⟩
          · exact ⟨[], by rw [hkept]; simp⟩
        rw [hbody, ← List.append_assoc] at hp
        rw [h.once _ _ hp, ← hc, List.nil_append]
    have hfront : u = shownName name ++ ['('] := by
      rw [hw, ← hsplit] at hu
      exact (List.append_cancel_right hu).symm
    rw [netmailReplyName_append haddr.ne_nil hfits hu hfind, hfront,
      trimEnd_eq_of_append _ (by simp [beforeAddress])]
    rcases shownName_cases h.first with ⟨hall, hnil⟩ | hkept
    · have hempty : trimEnd isBlank name = [] := by
        have hnone := trimEnd_eq_of_append [] hall
        rw [List.nil_append] at hnone
        rw [hnone]
        rfl
      rw [hnil, hempty]
      rfl
    · rw [hkept, trimEnd_eq_of_append _ (by simp [beforeAddress]), h.parens.trimEnd_eq]

/-! ## The stored line -/

theorem dropWhile_open (a r : CString) :
    (a ++ '(' :: r).dropWhile isBlank = a.dropWhile isBlank ++ '(' :: r := by
  rw [List.dropWhile_append]
  split
  · rename_i hnil
    rw [List.isEmpty_iff.mp hnil, List.dropWhile_cons_of_neg (by decide), List.nil_append]
  · rfl

/-- The line as it is read, without the blanks in front. -/
def lineRead (name addr : CString) : CString :=
  (decodeLine '^' name ++ [' ']).dropWhile isBlank ++ '(' :: (decodeLine '^' addr ++ [')'])

theorem length_lineRead_le (name addr : CString) :
    (lineRead name addr).length ≤ name.length + addr.length + 3 := by
  have hn := length_decodeLine_le '^' name
  have ha := length_decodeLine_le '^' addr
  have hd := (List.dropWhile_sublist isBlank (l := decodeLine '^' name ++ [' '])).length_le
  simp only [lineRead, List.length_append, List.length_cons, List.length_nil] at hd ⊢
  omega

theorem decodeLine_from (name addr : CString) :
    decodeLine '^' ("From: ".toList ++ (name ++ " (".toList ++ addr ++ [')'])) =
      "From: ".toList ++ (decodeLine '^' name ++ [' '] ++ '(' :: (decodeLine '^' addr ++ [')'])) := by
  have hnil : decodeLine '^' [] = [] := by rw [decodeLine]
  have hclose := @decodeLine_sep '^' ')' (by decide) (by decide) addr []
  have hopen := @decodeLine_sep '^' '(' (by decide) (by decide) [] (addr ++ [')'])
  have hblank := @decodeLine_sep '^' ' ' (by decide) (by decide) name ('(' :: (addr ++ [')']))
  rw [List.nil_append, hnil, List.nil_append, hclose, hnil] at hopen
  rw [hopen] at hblank
  have hsplit : name ++ " (".toList ++ addr ++ [')'] = name ++ ' ' :: '(' :: (addr ++ [')']) := by
    show name ++ [' ', '('] ++ addr ++ [')'] = _
    simp
  rw [decodeLine_append '^' (by decide), hsplit, hblank]
  simp

/-- The value that `text_body_header_value` finds. -/
theorem textBodyHeaderValue_from (hlen : name.length + addr.length + 9 ≤ 78) (tb : List CString) :
    textBodyHeaderValue 159 "From:".toList
        ((decodeLine '^' ("From: ".toList ++ (name ++ " (".toList ++ addr ++ [')']))).take 78 :: tb) =
      some (trimEnd isBlank (cutEol (lineRead name addr))) := by
  have hn := length_decodeLine_le '^' name
  have ha := length_decodeLine_le '^' addr
  have hline : "From: ".toList ++ (decodeLine '^' name ++ [' '] ++ '(' :: (decodeLine '^' addr ++ [')'])) =
      "From:".toList ++ ' ' :: (decodeLine '^' name ++ [' '] ++ '(' :: (decodeLine '^' addr ++ [')'])) := rfl
  have hread : (decodeLine '^' name ++ [' '] ++ '(' :: (decodeLine '^' addr ++ [')'])).dropWhile isBlank =
      lineRead name addr := dropWhile_open _ _
  have hlong : (lineRead name addr).length ≤ 158 := (length_lineRead_le name addr).trans (by omega)
  have hshort : ("From:".toList ++
      ' ' :: (decodeLine '^' name ++ [' '] ++ '(' :: (decodeLine '^' addr ++ [')']))).length ≤ 78 := by
    show (['F', 'r', 'o', 'm', ':'] ++ ' ' :: _).length ≤ 78
    simp only [List.length_append, List.length_cons, List.length_nil]
    omega
  rw [decodeLine_from, hline, List.take_of_length_le hshort, textBodyHeaderValue,
    if_pos (List.isPrefixOf_iff_prefix.mpr (List.prefix_append _ _)), List.drop_left,
    List.dropWhile_cons_of_pos (by decide), hread, strlcpy, List.take_of_length_le hlong]

theorem textBodyHeaderValue_eol {outsz : Nat} {key v : CString} {body : List CString}
    (h : textBodyHeaderValue outsz key body = some v) : ∀ c ∈ v, isEol c = false := by
  induction body with
  | nil => cases h
  | cons line tb ih =>
    unfold textBodyHeaderValue at h
    split at h
    · cases h
      intro c hc
      have hcut := (trimEnd_sublist isBlank _).subset hc
      simpa using List.mem_takeWhile_imp hcut
    · exact ih h

/-- The two scans of the line. -/
theorem scans_iff (haddr : LooksLikeAddress addr) (hlen : name.length + addr.length + 9 ≤ 78)
    (hname : ∀ c ∈ name, isEol c = false) :
    (ftnAddrFromFromline (trimEnd isBlank (cutEol (lineRead name addr))) 80 = addr ∧
      netmailReplyName (trimEnd isBlank (cutEol (lineRead name addr))) addr 80 = trimEnd isBlank name) ↔
      ToldApart name addr := by
  constructor
  · rintro ⟨hfound, hreply⟩
    have hblanks := trimEnd_prefix isBlank (cutEol (lineRead name addr))
    have hv : trimEnd isBlank (cutEol (lineRead name addr)) <+: lineRead name addr :=
      hblanks.trans (List.takeWhile_prefix _)
    have hlv := hv.length_le.trans (length_lineRead_le name addr)
    refine toldApart_of_scans haddr (by omega) hv ?_ (by omega) hfound hreply
    intro c hc
    simpa using List.mem_takeWhile_imp ((trimEnd_sublist isBlank _).subset hc)
  · intro h
    have hread : lineRead name addr = shownName name ++ '(' :: (addr ++ [')']) := by
      unfold lineRead shownName
      rw [decodeLine_of_noTriplet '^' h.noTripletName, decodeLine_of_noTriplet '^' h.noTripletAddr]
    have hcut : cutEol (lineRead name addr) = lineRead name addr := by
      unfold cutEol
      rw [List.takeWhile_eq_self_iff, hread]
      intro c hc
      have hno : isEol c = false := by
        rcases List.mem_append.mp hc with hc | hc
        · have hc := (List.dropWhile_sublist isBlank).subset hc
          rcases List.mem_append.mp hc with hc | hc
          · exact hname c hc
          · rw [List.mem_singleton.mp hc]
            rfl
        · rcases List.mem_cons.mp hc with hc | hc
          · rw [hc]
            rfl
          · rcases List.mem_append.mp hc with hc | hc
            · exact h.line c hc
            · rw [List.mem_singleton.mp hc]
              rfl
      rw [hno]
      rfl
    have htrim : trimEnd isBlank (lineRead name addr) = lineRead name addr := by
      refine trimEnd_eq_self fun c hc => ?_
      have hlast : lineRead name addr = (shownName name ++ '(' :: addr) ++ [')'] := by rw [hread]; simp
      rw [hlast, List.getLast?_concat, Option.mem_some_iff] at hc
      rw [← hc]
      rfl
    rw [hcut, htrim, hread]
    exact h.scans haddr (by omega)

/-! ## The stored netmail -/

theorem looksLikeAddress_of_spells {t msgid : CString} {a : FtnAddress} (ht : Spells t a)
    (hsp : ∀ c ∈ t, isSpace c = false) (hmsgid : t <+: msgid) (domain : CString) :
    LooksLikeAddress (senderAddress msgid domain) := by
  have hword : t <+: msgid.takeWhile fun c => !isSpace c := by
    obtain ⟨r, rfl⟩ := hmsgid
    rw [List.takeWhile_append_of_pos fun c hc => by rw [hsp c hc]; rfl]
    exact List.prefix_append _ _
  have haddr : t <+: senderAddress msgid domain := by
    unfold senderAddress
    dsimp only
    split
    · exact hword
    · exact hword.trans (List.prefix_append _ _)
  have hno : ∀ {t n}, Component t n → '(' ∉ t := fun h =>
    h.1.notMem (by decide) (by decide) (by decide) (by decide)
  have hopen : '(' ∉ t := by
    cases ht with
    | node hz hn hd => simp [hno hz, hno hn, hno hd]
    | point hz hn hd hp => simp [hno hz, hno hn, hno hd, hno hp]
  refine ⟨haddr.subset ht.colon_mem, haddr.subset ?_, ?_⟩
  · cases ht with
    | node hz hn hd => simp
    | point hz hn hd hp => simp
  · intro c hc
    have hmem : c ∈ t := by
      obtain ⟨r, hr⟩ := haddr
      rw [← hr, List.head?_append_of_ne_nil _ (List.ne_nil_of_mem ht.colon_mem)] at hc
      exact List.mem_of_mem_head? hc
    refine ⟨?_, ?_, fun he => hopen (he ▸ hmem)⟩
    · rintro rfl
      exact absurd (hsp _ hmem) (by decide)
    · rintro rfl
      exact absurd (hsp _ hmem) (by decide)

theorem netmailName_eol {msg : FidoMsg} (h : ∀ c ∈ msg.fromName, isEol c = false) :
    ∀ c ∈ netmailName msg, isEol c = false := by
  have hsource : ∀ c ∈ (if msg.fromName = [] then "(unknown)".toList else msg.fromName), isEol c = false := by
    split
    · have hall : "(unknown)".toList.all (fun c => !isEol c) = true := rfl
      intro c hc
      simpa using List.all_eq_true.mp hall c hc
    · exact h
  have hkept : ∀ d : Char, d ∉ sf7Letters → d ∈ netmailName msg →
      d ∈ (if msg.fromName = [] then "(unknown)".toList else msg.fromName) := by
    intro d hd hmem
    unfold netmailName netmailToSf7 at hmem
    split at hmem
    · exact mem_convertLetters hd (fun _ => id) hmem
    · exact hmem
  intro c hc
  by_contra heol
  have hcase : c = '\n' ∨ c = '\r' := by
    rcases Bool.or_eq_true_iff.mp ((Bool.not_eq_false _).mp heol) with h | h
    · exact Or.inl (of_decide_eq_true h)
    · exact Or.inr (of_decide_eq_true h)
  rcases hcase with rfl | rfl
  · exact absurd (hsource _ (hkept _ (by decide) hc)) (by decide)
  · exact absurd (hsource _ (hkept _ (by decide) hc)) (by decide)

theorem unlines_eq_cons {ls : List CString} {l rest : CString} (hls : ∀ l ∈ ls, '\n' ∉ l) (hl : '\n' ∉ l)
    (h : unlines ls = l ++ '\n' :: rest) : ∃ tl, ls = l :: tl := by
  cases ls with
  | nil => exact absurd h.symm (List.append_ne_nil_of_right_ne_nil _ (List.cons_ne_nil _ _))
  | cons l' ls =>
    rw [unlines_cons] at h
    exact ⟨ls, by rw [(append_sep_inj (hls l' List.mem_cons_self) hl h).1]⟩

theorem netmailFromAddr_eq {msg : FidoMsg} {domain : CString}
    (hne : (msg.msgid.takeWhile fun c => !isSpace c) ≠ [])
    (h : (senderAddress msg.msgid domain).length ≤ 78) :
    netmailFromAddr msg domain = senderAddress msg.msgid domain := by
  unfold senderAddress at h ⊢
  dsimp only at h ⊢
  generalize hword : (msg.msgid.takeWhile fun c => !isSpace c) = word at h hne ⊢
  have hlen : word.length ≤ 78 := by
    split at h
    · exact h
    · rw [List.length_append] at h
      omega
  have horigin : ftnMsgidOrigin 128 msg.msgid = word := by
    rw [ftnMsgidOrigin, hword, strlcpy, List.take_of_length_le (by omega)]
  rw [netmailFromAddr, horigin, makeFtn5dAddr, if_neg hne]
  split
  · rw [strlcpy, List.take_of_length_le (by omega)]
  · rename_i hdomain
    rw [if_neg hdomain] at h
    rw [strlcpy, List.take_of_length_le (by omega)]

/-- The line of the sender comes first. -/
theorem buildNetmailMbuf_from (msg : FidoMsg) (domain localAddr : CString) : ∃ rest,
    buildNetmailMbuf msg domain localAddr = "From: ".toList ++ netmailFromLine msg domain ++ '\n' :: rest := by
  refine ⟨("To: ".toList ++ netmailToSf7 msg.toName msg.chrs ++ ['\n']) ++
    ("Subject: ".toList ++ netmailToSf7 msg.subject msg.chrs ++ ['\n']) ++
    ("Date: ".toList ++ msg.date ++ ['\n']) ++ "FTN-Netmail: yes\n".toList ++
    optionalLine "FTN-Domain: ".toList domain ++ netmailAddrs msg domain localAddr ++
    optionalLine "FTN-MSGID: ".toList msg.msgid ++ netmailTail msg, ?_⟩
  unfold buildNetmailMbuf netmailHead
  simp only [List.append_assoc, List.cons_append, List.nil_append]

/-- For every message that is read: the functions give the name and the address back exactly when they can be
told apart. -/
theorem netmail_answered_iff {file : Option (List Char)} {msg : FidoMsg} (hread : readFidoMsg file = some msg)
    (hsubject : '\n' ∉ msg.subject) (hname : ∀ c ∈ msg.fromName, isEol c = false)
    {t : CString} {a : FtnAddress} (ht : Spells t a) (hsp : ∀ c ∈ t, isSpace c = false)
    (hmsgid : t <+: msg.msgid) (mbox : FtnConf) (domain localAddr : CString) (now : Int)
    (hfits : ("From: ".toList ++
      (netmailName msg ++ " (".toList ++ senderAddress msg.msgid domain ++ [')'])).length ≤ 78) :
    ∃ text, (sendNetmail mbox msg domain localAddr now).texts (mbox.lastText + 1) = some text ∧
      (ReplyFound text (netmailName msg) (senderAddress msg.msgid domain) ↔
        ToldApart (netmailName msg) (senderAddress msg.msgid domain)) := by
  obtain ⟨text, htext, ls, hmbuf, hls, hentry⟩ :=
    (imported_record_readBack hread hsubject).2 mbox domain localAddr now
  refine ⟨text, htext, ?_⟩
  have haddr := looksLikeAddress_of_spells ht hsp hmsgid domain
  have hnameEol := netmailName_eol hname
  have hword : (msg.msgid.takeWhile fun c => !isSpace c) ≠ [] := by
    obtain ⟨r, hr⟩ := hmsgid
    rw [← hr, List.takeWhile_append_of_pos fun c hc => by rw [hsp c hc]; rfl]
    exact List.append_ne_nil_of_left_ne_nil (List.ne_nil_of_mem ht.colon_mem) _
  have hlen : (netmailName msg).length + (senderAddress msg.msgid domain).length + 9 ≤ 78 := by
    have hsix : "From: ".toList.length = 6 := rfl
    have htwo : " (".toList.length = 2 := rfl
    simp only [List.length_append, List.length_cons, List.length_nil, hsix, htwo] at hfits
    omega
  have hfrom := @netmailFromAddr_eq msg domain hword (by omega)
  have hfromline : netmailFromLine msg domain =
      netmailName msg ++ " (".toList ++ senderAddress msg.msgid domain ++ [')'] := by
    have htwo : " (".toList.length = 2 := rfl
    unfold netmailFromLine
    rw [hfrom]
    simp only [if_neg haddr.ne_nil]
    rw [strlcpy, List.take_of_length_le]
    · rfl
    · show (netmailName msg ++ " (".toList ++ senderAddress msg.msgid domain ++ [')']).length ≤ 511
      simp only [List.length_append, List.length_cons, List.length_nil, htwo]
      omega
  generalize senderAddress msg.msgid domain = addr at haddr hlen hfromline ⊢
  generalize netmailName msg = name at hnameEol hlen hfromline ⊢
  by_cases heol : ∀ c ∈ addr, isEol c = false
  · have hnl : '\n' ∉ "From: ".toList ++ (name ++ " (".toList ++ addr ++ [')']) := by
      have hname' : '\n' ∉ name := fun h => absurd (hnameEol _ h) (by decide)
      have haddr' : '\n' ∉ addr := fun h => absurd (heol _ h) (by decide)
      have h1 : '\n' ∉ "From: ".toList := by decide
      have h2 : '\n' ∉ " (".toList := by decide
      simp only [List.mem_append, not_or]
      exact ⟨h1, ⟨⟨hname', h2⟩, haddr'⟩, by decide⟩
    obtain ⟨tl, rfl⟩ : ∃ tl, ls = ("From: ".toList ++ (name ++ " (".toList ++ addr ++ [')'])) :: tl := by
      obtain ⟨rest, hbuf⟩ := buildNetmailMbuf_from msg domain localAddr
      rw [hfromline, hmbuf] at hbuf
      exact unlines_eq_cons hls hnl hbuf
    rw [← scans_iff haddr hlen hnameEol]
    have hvalue := textBodyHeaderValue_from hlen (tl.map fun l => (decodeLine '^' l).take 78)
    constructor
    · rintro ⟨te, next, v, hte, hv, hscans⟩
      rw [hentry] at hte
      cases hte
      have hv' := hvalue.symm.trans hv
      rw [Option.some.injEq] at hv'
      rwa [hv']
    · intro hscans
      exact ⟨_, _, _, hentry, hvalue, hscans⟩
  · -- an address of two lines is not found
    refine iff_of_false ?_ fun h => heol h.line
    rintro ⟨te, next, v, -, hv, hfound, -⟩
    obtain ⟨x, y, hx, -⟩ := parenAddress_eq hfound haddr.ne_nil
    refine heol fun c hc => textBodyHeaderValue_eol hv c ?_
    rw [hx]
    simp [hc]

/-- The `.MSG` file of a netmail from a sender. -/
def netmailFile (name : CString) : List Char :=
  name ++ List.replicate (190 - name.length) '\x00' ++ "\x01MSGID: 2:201/1 abcd\rHej\r".toList

theorem toldApart_plain : ToldApart "Bo Ek".toList "2:201/1@fido".toList where
  noTripletName := noTriplet_of_notMem (by decide)
  noTripletAddr := noTriplet_of_notMem (by decide)
  first c hc hblank := by
    cases hc
    exact absurd hblank (by decide)
  closes := by decide
  line c hc := by
    have hall : "2:201/1@fido".toList.all (fun c => !isEol c) = true := rfl
    simpa using List.all_eq_true.mp hall c hc
  parens := .text (by decide)
  once u v h := by
    -- the domain is behind the only `@`
    have hsplit : ("Bo Ek".toList ++ ' ' :: '(' :: "2:201/1".toList) ++ '@' :: "fido".toList =
        (u ++ "2:201/1".toList) ++ '@' :: ("fido".toList ++ v) := by
      have hright : (u ++ "2:201/1".toList) ++ '@' :: ("fido".toList ++ v) =
          u ++ ("2:201/1@fido".toList ++ v) := by
        rw [List.append_assoc]
        rfl
      rw [hright, ← h]
      rfl
    have hcount := congrArg (List.count '@') hsplit
    have hu : '@' ∉ u ++ "2:201/1".toList := by
      intro hmem
      have hpos := List.count_pos_iff.mpr hmem
      have hone :
          (("Bo Ek".toList ++ ' ' :: '(' :: "2:201/1".toList) ++ '@' :: "fido".toList).count '@' = 1 := rfl
      rw [hone, List.count_append, List.count_cons_self] at hcount
      omega
    have hdomain := (append_sep_inj (by decide) hu hsplit).2
    exact List.append_right_eq_self.mp hdomain.symm

theorem netmail_answered_plain : ∃ msg text, readFidoMsg (some (netmailFile "Bo Ek".toList)) = some msg ∧
    (sendNetmail ⟨0, fun _ => none⟩ msg "fido".toList [] 5).texts 1 = some text ∧
    ReplyFound text "Bo Ek".toList "2:201/1@fido".toList := by
  have hfields : (readFidoMsg (some (netmailFile "Bo Ek".toList))).map (fun msg =>
      (msg.subject, msg.fromName, msg.msgid, netmailName msg)) =
      some ([], "Bo Ek".toList, "2:201/1 abcd".toList, "Bo Ek".toList) := by decide +kernel
  cases hread : readFidoMsg (some (netmailFile "Bo Ek".toList)) with
  | none =>
    rw [hread] at hfields
    cases hfields
  | some msg =>
    rw [hread, Option.map_some, Option.some.injEq, Prod.mk.injEq, Prod.mk.injEq, Prod.mk.injEq] at hfields
    obtain ⟨hsubject, hfrom, hmsgid, hname⟩ := hfields
    have hspells : Spells "2:201/1".toList ⟨2, 201, 1, 0⟩ :=
      spells_addressText (a := ⟨2, 201, 1, 0⟩) ⟨by decide, by decide, by decide, by decide⟩
    have haddr : senderAddress msg.msgid "fido".toList = "2:201/1@fido".toList := by
      rw [hmsgid]
      decide +kernel
    have hline : ∀ c ∈ msg.fromName, isEol c = false := by
      have hall : "Bo Ek".toList.all (fun c => !isEol c) = true := rfl
      intro c hc
      rw [hfrom] at hc
      simpa using List.all_eq_true.mp hall c hc
    have hplain : ∀ c ∈ "2:201/1".toList, isSpace c = false := by
      have hall : "2:201/1".toList.all (fun c => !isSpace c) = true := rfl
      intro c hc
      simpa using List.all_eq_true.mp hall c hc
    obtain ⟨text, htext, hiff⟩ := netmail_answered_iff hread (by rw [hsubject]; exact List.not_mem_nil) hline
      hspells hplain (by rw [hmsgid]; exact ⟨" abcd".toList, rfl⟩) ⟨0, fun _ => none⟩ "fido".toList [] 5
      (by rw [hname, haddr]; decide)
    rw [hname, haddr] at hiff
    exact ⟨msg, text, rfl, htext, hiff.mpr toldApart_plain⟩

/-- The address that is taken from the line of a text. -/
def addressRead (text : CString) : Option CString :=
  match getTextEntry text with
  | .entry te _ => (textBodyHeaderValue 159 "From:".toList te.body).map fun v => ftnAddrFromFromline v 80
  | _ => none

theorem addressRead_of_replyFound {text : CString} (h : ReplyFound text name addr) :
    addressRead text = some addr := by
  obtain ⟨te, next, v, hte, hv, hfound, -⟩ := h
  unfold addressRead
  rw [hte]
  simp only [hv, Option.map_some, hfound]

/-- Another text in parentheses is taken for the address. -/
theorem netmail_not_answered : ∃ msg text,
    readFidoMsg (some (netmailFile "Bo (http://x)".toList)) = some msg ∧
    (sendNetmail ⟨0, fun _ => none⟩ msg "fido".toList [] 5).texts 1 = some text ∧
    ¬ ReplyFound text (netmailName msg) (senderAddress msg.msgid "fido".toList) := by
  have hfields : (readFidoMsg (some (netmailFile "Bo (http://x)".toList))).map (fun msg =>
      (addressRead (netmailTextFile 1 5 msg "fido".toList []), senderAddress msg.msgid "fido".toList)) =
      some (some "http://x".toList, "2:201/1@fido".toList) := by decide +kernel
  cases hread : readFidoMsg (some (netmailFile "Bo (http://x)".toList)) with
  | none =>
    rw [hread] at hfields
    cases hfields
  | some msg =>
    rw [hread, Option.map_some, Option.some.injEq, Prod.mk.injEq] at hfields
    refine ⟨msg, netmailTextFile 1 5 msg "fido".toList [], rfl, rfl, fun h => ?_⟩
    have haddr := addressRead_of_replyFound h
    rw [hfields.1, hfields.2, Option.some.injEq] at haddr
    exact absurd haddr (by decide)

end SklaffKom
