import SklaffKom.DisplayName
import SklaffKom.Lib.Split

/-!
# Blocked senders

`sender_is_blocked` looks a sender up in the list of a user, one sender a line.  The lines and the parts
of the sender are compared as far as they fit their buffers.
-/

open CString

namespace SklaffKom

/-! ## The list -/

def extractSenderEmail (sender : CString) (outsz : Nat) : CString :=
  match cutAt '<' sender with
  | none => []
  | some (_, rest) =>
    match cutAt '>' rest with
    | none => []
    | some (address, _) => trimAscii (strlcpy outsz address)

/-- The comparisons of a line with the three parts of the sender. -/
def lineBlocks (full display email start : CString) : Bool :=
  let line := stripOuterQuotes (trimAscii (strlcpy 80 start))
  line ≠ [] && line.head? ≠ some '#' &&
    (sameNoCase line full || (display ≠ [] && sameNoCase line display) ||
      (email ≠ [] && sameNoCase line email))

/-- The loop over the lines; nothing when the calls are used up. -/
def blockLoop (blocks : CString → Bool) : Nat → CString → Option Bool
  | 0, _ => none
  | fuel + 1, p =>
    if p = [] then some false
    else
      let start := p.dropWhile isEol
      if blocks (start.takeWhile fun c => !isEol c) then some true
      else blockLoop blocks fuel (start.dropWhile fun c => !isEol c)

def senderIsBlocked (blocklist sender : CString) : Option Bool :=
  if sender = [] then some false
  else
    let senderFull := stripOuterQuotes (trimAscii (strlcpy 159 sender))
    let senderDisplay := extractSenderDisplay senderFull 159
    let senderEmail := extractSenderEmail senderFull 80
    blockLoop (lineBlocks senderFull senderDisplay senderEmail) (blocklist.length + 1) blocklist

/-! ## What is compared -/

/-- `t` is `s` without the blanks and line ends around it. -/
def Trimmed (s t : CString) : Prop :=
  ∃ a b, s = a ++ (t ++ b) ∧ (∀ c ∈ a, isAsciiSpace c = true) ∧ (∀ c ∈ b, isAsciiSpace c = true) ∧
    (∀ c ∈ t.head?, isAsciiSpace c = false) ∧ ∀ c ∈ t.getLast?, isAsciiSpace c = false

def InQuotes (v u : CString) : Prop := u = '"' :: (v ++ ['"'])

/-- `t` is `s` trimmed and without one pair of quotes around it. -/
def Unquoted (s t : CString) : Prop :=
  ∃ u, Trimmed s u ∧ ((∃ v, InQuotes v u ∧ Trimmed v t) ∨ (¬ ∃ v, InQuotes v u) ∧ t = u)

/-- The parts of a sender: all of it, the name in front of its `<`, and the address in angle brackets as
far as `clip` keeps it. -/
inductive SenderPart (clip : Nat → CString → CString) (full : CString) : CString → Prop
  | full : SenderPart clip full full
  | display {x : CString} (h : Unquoted (full.takeWhile (· ≠ '<')) x) : SenderPart clip full x
  | address {a b c x : CString} (hfull : full = a ++ '<' :: (b ++ '>' :: c)) (ha : '<' ∉ a)
      (hb : '>' ∉ b) (h : Trimmed (clip 80 b) x) : SenderPart clip full x

/-- An entry of the list names a sender. -/
def NamesSender (clip : Nat → CString → CString) (sender entry : CString) : Prop :=
  ∃ full part, Unquoted (clip 159 sender) full ∧ SenderPart clip full part ∧ sameNoCase entry part

/-- A line of the list, neither empty nor a comment, is the sender, at full length. -/
def ListNames (blocklist sender : CString) : Prop :=
  ∃ line ∈ blocklist.splitOnP isEol, line ≠ [] ∧ line.head? ≠ some '#' ∧
    ∃ entry, Unquoted line entry ∧ NamesSender (fun _ s => s) sender entry

/-- What fits the buffer of a line of the list, neither empty nor a comment when it is trimmed, is what
fits the buffers of the sender. -/
def ListNamesClipped (blocklist sender : CString) : Prop :=
  ∃ line ∈ blocklist.splitOnP isEol, ∃ entry, Unquoted (strlcpy 80 line) entry ∧
    entry ≠ [] ∧ entry.head? ≠ some '#' ∧ NamesSender strlcpy sender entry

/-! ## Trimming and quotes -/

variable {s t u v full part : CString}

theorem trimAscii_trimAscii (s : CString) : trimAscii (trimAscii s) = trimAscii s :=
  trimAscii_eq_self (trimAscii_ends s).1 (trimAscii_ends s).2

theorem trimmed_trimAscii (s : CString) : Trimmed s (trimAscii s) := by
  obtain ⟨b, hb, hblank⟩ := trimEnd_append isAsciiSpace (s.dropWhile isAsciiSpace)
  obtain ⟨hfirst, hlast⟩ := trimAscii_ends s
  refine ⟨s.takeWhile isAsciiSpace, b, ?_, ?_, hblank, hfirst, hlast⟩
  · show s = s.takeWhile isAsciiSpace ++ (trimEnd isAsciiSpace (s.dropWhile isAsciiSpace) ++ b)
    rw [← hb, List.takeWhile_append_dropWhile]
  · intro c hc
    exact List.mem_takeWhile_imp hc

theorem Trimmed.eq (h : Trimmed s t) : t = trimAscii s := by
  obtain ⟨a, b, rfl, ha, hb, hfirst, hlast⟩ := h
  unfold trimAscii
  rw [List.dropWhile_append_of_pos ha]
  cases t with
  | nil =>
    have hdrop : b.dropWhile isAsciiSpace = [] := List.dropWhile_eq_nil_iff.mpr hb
    rw [List.nil_append, hdrop]
    rfl
  | cons c t =>
    have hhead : ∀ d ∈ (c :: t ++ b).head?, isAsciiSpace d = false := hfirst
    have htrim : trimEnd isAsciiSpace b = [] := by
      rw [trimEnd, List.reverse_eq_nil_iff, List.dropWhile_eq_nil_iff]
      intro d hd
      exact hb d (List.mem_reverse.mp hd)
    rw [dropWhile_eq_self hhead, trimEnd_append_eq, if_pos htrim, trimEnd_eq_self hlast]

theorem trimmed_iff : Trimmed s t ↔ t = trimAscii s := by
  constructor
  · exact Trimmed.eq
  · rintro rfl
    exact trimmed_trimAscii s

theorem inQuotes_iff : InQuotes v u ↔
    (2 ≤ u.length ∧ u.head? = some '"' ∧ u.getLast? = some '"') ∧ v = u.tail.dropLast := by
  unfold InQuotes
  constructor
  · rintro rfl
    refine ⟨⟨by simp, rfl, ?_⟩, by simp⟩
    rw [← List.cons_append, List.getLast?_append]
    rfl
  · rintro ⟨⟨hlen, hhead, hlast⟩, rfl⟩
    cases u with
    | nil => cases hhead
    | cons c u =>
      cases hhead
      have hne : u ≠ [] := by
        rintro rfl
        simp at hlen
      have hget : u.getLast hne = '"' := by
        rw [List.getLast?_cons, List.getLast?_eq_some_getLast hne, Option.getD_some] at hlast
        exact Option.some.inj hlast
      rw [List.tail_cons, ← hget, List.dropLast_append_getLast]

theorem unquoted_iff : Unquoted s t ↔ t = stripOuterQuotes s := by
  unfold Unquoted
  simp only [trimmed_iff, inQuotes_iff, exists_eq_left, stripOuterQuotes]
  by_cases h : 2 ≤ (trimAscii s).length ∧ (trimAscii s).head? = some '"' ∧
      (trimAscii s).getLast? = some '"'
  · simp [h]
  · simp [h, trimAscii_trimAscii]

theorem stripOuterQuotes_trimAscii (s : CString) :
    stripOuterQuotes (trimAscii s) = stripOuterQuotes s := by
  unfold stripOuterQuotes
  rw [trimAscii_trimAscii]

/-! ## The parts of the sender -/

/-- The address of a sender, if there is one. -/
theorem extractSenderEmail_eq {outsz : Nat} {x : CString} (hx : x ≠ []) :
    x = extractSenderEmail full outsz ↔ ∃ a b c, full = a ++ '<' :: (b ++ '>' :: c) ∧ '<' ∉ a ∧
      '>' ∉ b ∧ x = trimAscii (strlcpy outsz b) := by
  unfold extractSenderEmail
  constructor
  · intro h
    split at h
    next => exact absurd h hx
    next a rest hlt =>
      split at h
      next => exact absurd h hx
      next b c hgt =>
        obtain ⟨hfull, ha⟩ := cutAt_eq_some.mp hlt
        obtain ⟨hrest, hb⟩ := cutAt_eq_some.mp hgt
        exact ⟨a, b, c, by rw [hfull, hrest], ha, hb, h⟩
  · rintro ⟨a, b, c, rfl, ha, hb, rfl⟩
    rw [cutAt_append ha]
    simp only [cutAt_append hb]

theorem stripOuterQuotes_length_le (s : CString) : (stripOuterQuotes s).length ≤ s.length := by
  have htrim (u : CString) : (trimAscii u).length ≤ u.length :=
    (trimEnd_length_le _ _).trans (List.dropWhile_sublist _).length_le
  have hs := htrim s
  simp only [stripOuterQuotes]
  split
  next h =>
    have hinner := htrim (trimAscii s).tail.dropLast
    rw [List.length_dropLast, List.length_tail] at hinner
    omega
  next => exact (htrim _).trans hs

theorem sameNoCase_nil_right (h : sameNoCase s []) : s = [] := by
  simpa [sameNoCase] using h

/-- The comparisons with a line that is not empty: each of the three buffers holds its part, and an
empty one is equal to no entry. -/
theorem namesSender_iff {sender entry : CString} (hne : entry ≠ []) :
    NamesSender strlcpy sender entry ↔
      sameNoCase entry (stripOuterQuotes (strlcpy 159 sender)) ∨
      sameNoCase entry (extractSenderDisplay (stripOuterQuotes (strlcpy 159 sender)) 159) ∨
      sameNoCase entry (extractSenderEmail (stripOuterQuotes (strlcpy 159 sender)) 80) := by
  have hfull : (stripOuterQuotes (strlcpy 159 sender)).length < 159 := by
    have hle := stripOuterQuotes_length_le (strlcpy 159 sender)
    have htake : (strlcpy 159 sender).length ≤ 158 := List.length_take_le _ _
    omega
  unfold NamesSender
  simp only [unquoted_iff, exists_and_left, exists_eq_left]
  constructor
  · rintro ⟨part, hpart, hsame⟩
    have hpartne : part ≠ [] := by
      rintro rfl
      exact hne (sameNoCase_nil_right hsame)
    cases hpart with
    | full => exact Or.inl hsame
    | display h =>
      rw [unquoted_iff] at h
      refine Or.inr (Or.inl ?_)
      rwa [extractSenderDisplay, strlcpy_eq_self hfull, ← h]
    | address hsplit ha hb h =>
      refine Or.inr (Or.inr ?_)
      rwa [← (extractSenderEmail_eq hpartne).mpr ⟨_, _, _, hsplit, ha, hb, trimmed_iff.mp h⟩]
  · rintro (h | h | h)
    · exact ⟨_, .full, h⟩
    · refine ⟨_, .display ?_, h⟩
      rw [unquoted_iff, extractSenderDisplay, strlcpy_eq_self hfull]
    · have hpartne : extractSenderEmail (stripOuterQuotes (strlcpy 159 sender)) 80 ≠ [] := by
        intro hnil
        rw [hnil] at h
        exact hne (sameNoCase_nil_right h)
      obtain ⟨a, b, c, hsplit, ha, hb, hx⟩ := (extractSenderEmail_eq hpartne).mp rfl
      exact ⟨_, .address hsplit ha hb (trimmed_iff.mpr hx), h⟩

/-! ## The loop over the lines -/

section
variable {blocks : CString → Bool} {p : CString}

theorem splitOnP_eol {c : Char} (hc : isEol c = true) (p : CString) :
    (c :: p).splitOnP isEol = [] :: p.splitOnP isEol := by
  have hnil : ∀ d ∈ ([] : CString), isEol d = false := fun _ h => absurd h List.not_mem_nil
  exact List.splitOnP_append_cons_of_forall_mem hnil c hc p

/-- Line ends in front only add empty lines. -/
theorem any_splitOnP_dropWhile (hnil : blocks [] = false) (p : CString) :
    ((p.dropWhile isEol).splitOnP isEol).any blocks = (p.splitOnP isEol).any blocks := by
  induction p with
  | nil => rfl
  | cons c p ih =>
    by_cases hc : isEol c = true
    · have hsplit := splitOnP_eol hc p
      rw [List.dropWhile_cons_of_pos hc, ih, hsplit, List.any_cons, hnil, Bool.false_or]
    · rw [List.dropWhile_cons_of_neg hc]

theorem any_splitOnP_line (hnil : blocks [] = false) (s : CString) :
    (s.splitOnP isEol).any blocks = (blocks (s.takeWhile fun c => !isEol c) ||
      ((s.dropWhile fun c => !isEol c).splitOnP isEol).any blocks) := by
  have hline : ∀ c ∈ s.takeWhile (fun c => !isEol c), isEol c = false := by
    intro c hc
    simpa using List.mem_takeWhile_imp hc
  have hs := List.takeWhile_append_dropWhile (p := fun c => !isEol c) (l := s)
  cases hrest : s.dropWhile (fun c => !isEol c) with
  | nil =>
    rw [hrest, List.append_nil] at hs
    rw [hs, List.splitOnP_eq_singleton (hs ▸ hline)]
    simp [hnil]
  | cons c rest =>
    have hc : isEol c = true := by simpa using dropWhile_head hrest
    have hempty := splitOnP_eol hc rest
    conv => lhs; rw [← hs, hrest, List.splitOnP_append_cons_of_forall_mem hline c hc]
    rw [hempty, List.any_cons, List.any_cons, hnil, Bool.false_or]

/-- Each turn leaves less of the list. -/
theorem block_rest_lt (hp : p ≠ []) :
    ((p.dropWhile isEol).dropWhile fun c => !isEol c).length < p.length := by
  cases p with
  | nil => exact absurd rfl hp
  | cons c p =>
    by_cases hc : isEol c = true
    · rw [List.dropWhile_cons_of_pos hc, List.length_cons]
      have hrest := (List.dropWhile_sublist (fun c => !isEol c) (l := p.dropWhile isEol)).length_le
      have hskip := (List.dropWhile_sublist isEol (l := p)).length_le
      omega
    · rw [List.dropWhile_cons_of_neg hc, List.dropWhile_cons_of_pos (by simpa using hc),
        List.length_cons]
      have hrest := (List.dropWhile_sublist (fun c => !isEol c) (l := p)).length_le
      omega

/-- The loop ends for every mix of line ends, and has looked at each line. -/
theorem blockLoop_eq (hnil : blocks [] = false) {fuel : Nat} (h : p.length < fuel) :
    blockLoop blocks fuel p = some ((p.splitOnP isEol).any blocks) := by
  induction fuel generalizing p with
  | zero => omega
  | succ fuel ih =>
    rw [blockLoop]
    split
    next hp =>
      subst hp
      simp [hnil]
    next hp =>
      have hlt := block_rest_lt hp
      simp only [ih (Nat.lt_of_lt_of_le hlt (Nat.le_of_lt_succ h))]
      rw [← any_splitOnP_dropWhile hnil p, any_splitOnP_line hnil (p.dropWhile isEol)]
      cases blocks ((p.dropWhile isEol).takeWhile fun c => !isEol c) with
      | true => rfl
      | false => rfl

end

/-! ## Who is blocked -/

theorem lineBlocks_iff {sender line : CString} :
    lineBlocks (stripOuterQuotes (strlcpy 159 sender))
        (extractSenderDisplay (stripOuterQuotes (strlcpy 159 sender)) 159)
        (extractSenderEmail (stripOuterQuotes (strlcpy 159 sender)) 80) line = true ↔
      ∃ entry, Unquoted (strlcpy 80 line) entry ∧ entry ≠ [] ∧ entry.head? ≠ some '#' ∧
        NamesSender strlcpy sender entry := by
  simp only [unquoted_iff, exists_eq_left, lineBlocks, stripOuterQuotes_trimAscii, Bool.and_eq_true,
    Bool.or_eq_true, decide_eq_true_eq, and_assoc]
  refine and_congr_right fun hne => and_congr_right fun _ => ?_
  rw [namesSender_iff hne, or_assoc]
  have hempty {x : CString} (h : sameNoCase (stripOuterQuotes (strlcpy 80 line)) x) : x ≠ [] := by
    rintro rfl
    exact hne (sameNoCase_nil_right h)
  refine or_congr_right (or_congr ?_ ?_)
  · exact ⟨And.right, fun h => ⟨hempty h, h⟩⟩
  · exact ⟨And.right, fun h => ⟨hempty h, h⟩⟩

/-- For every list and every sender the search ends, and a sender is blocked exactly when a line names
it, both as far as they fit their buffers. -/
theorem senderIsBlocked_iff (blocklist sender : CString) :
    ∃ blocked, senderIsBlocked blocklist sender = some blocked ∧
      (blocked = true ↔ ListNamesClipped blocklist sender) := by
  unfold senderIsBlocked
  split
  next hs =>
    subst hs
    refine ⟨false, rfl, ⟨fun h => absurd h (by decide), ?_⟩⟩
    -- nothing is left of an empty sender that an entry could be equal to
    rintro ⟨line, -, entry, -, hne, -, hnames⟩
    rw [namesSender_iff hne] at hnames
    rcases hnames with h | h | h
    · exact absurd (sameNoCase_nil_right h) hne
    · exact absurd (sameNoCase_nil_right h) hne
    · exact absurd (sameNoCase_nil_right h) hne
  next =>
    rw [stripOuterQuotes_trimAscii, blockLoop_eq ?_ (Nat.lt_succ_self _)]
    · refine ⟨_, rfl, ?_⟩
      rw [List.any_eq_true]
      exact exists_congr fun line => and_congr_right fun _ => lineBlocks_iff
    · rw [lineBlocks]
      rfl

/-- A line of 80 bytes does not block the sender of 80 bytes that it names, it blocks another one, and a
quoted line that begins with `#` is taken for a comment. -/
theorem senderIsBlocked_clipped :
    (senderIsBlocked (List.replicate 80 'a') (List.replicate 80 'a') = some false ∧
      ListNames (List.replicate 80 'a') (List.replicate 80 'a')) ∧
    (senderIsBlocked (List.replicate 80 'a') (List.replicate 79 'a') = some true ∧
      ¬ ListNames (List.replicate 80 'a') (List.replicate 79 'a')) ∧
    senderIsBlocked "\"#a\"".toList "#a".toList = some false ∧ ListNames "\"#a\"".toList "#a".toList := by
  have hline : (List.replicate 80 'a').splitOnP isEol = [List.replicate 80 'a'] := by decide
  refine ⟨⟨by decide +kernel, ?_⟩, ⟨by decide +kernel, ?_⟩, by decide +kernel, ?_⟩
  · refine ⟨List.replicate 80 'a', by rw [hline]; exact List.mem_singleton_self _, by decide, by decide,
      _, unquoted_iff.mpr rfl, _, _, unquoted_iff.mpr rfl, .full, ?_⟩
    decide +kernel
  · rintro ⟨line, hmem, -, -, entry, hentry, full, part, hfull, hpart, hsame⟩
    rw [hline, List.mem_singleton] at hmem
    rw [unquoted_iff] at hentry hfull
    subst hmem hentry hfull
    -- 79 bytes are all the sender has
    cases hpart with
    | full =>
      revert hsame
      decide +kernel
    | display h =>
      rw [unquoted_iff] at h
      subst h
      revert hsame
      decide +kernel
    | @address a b c _ hsplit =>
      have hmem : '<' ∈ stripOuterQuotes (List.replicate 79 'a') := by
        rw [hsplit]
        simp
      revert hmem
      decide +kernel
  · refine ⟨"\"#a\"".toList, by decide +kernel, by decide, by decide, _, unquoted_iff.mpr rfl, _, _,
      unquoted_iff.mpr rfl, .full, ?_⟩
    decide +kernel

end SklaffKom
