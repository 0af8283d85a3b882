import SklaffKom.ShowText

/-!
# Jumping over texts

`stack_text` puts the comments on a text on the comment stack, read or not; `tree_top` follows the
commented texts upwards.  The two jump commands mark a text as read, stack its comments and go on
with the top of the stack.  All of them look for files below `SKLAFF_DB/Current_conf` only.
-/

open CString

namespace SklaffKom

/-- The text file `SKLAFF_DB/conf/text`. -/
def TextBase.dbFile (t : TextBase) (conf n : Int) : Option CString :=
  if conf > 0 then t.textFile conf n else none

/-- `te` after `get_text_entry`, which sets the header before it returns `NULL`. -/
def filledEntry (file : CString) : Option TextEntry :=
  match stackEntry file with
  | .crash => none
  | .null => (readHeader file).map fun th => { th := th, body := [], cl := [] }
  | .entry te _ => some te

/-- The loop of `stack_text` over the comments: those without a file are marked as read, and their
numbers zeroed. -/
def markMissing (t : TextBase) (conf : Int) :
    List CommentLink → CString → Option (List CommentLink × CString)
  | [], buf => some ([], buf)
  | c :: cl, buf =>
    if t.dbFile conf c.commentNum = none then do
      let r ← markAsRead none c.commentNum conf buf
      let s ← markMissing t conf cl r.2
      pure ({ c with commentNum := 0 } :: s.1, s.2)
    else do
      let s ← markMissing t conf cl buf
      pure (c :: s.1, s.2)

/-- `stack_text` in the conference `conf`: the comment stack and the conference file afterwards. -/
def stackText (t : TextBase) (conf num : Int) (stack : List Int) (buf : CString) :
    Option (List Int × CString) :=
  match t.dbFile conf num with
  | none => some (stack, buf)
  | some file => do
    let te ← filledEntry file
    let s ← markMissing t conf te.cl buf
    pure ((s.1.map (·.commentNum)).filter (· ≠ 0) ++ stack, s.2)

def treeTopLoop (t : TextBase) (conf : Int) : Nat → Int → Int → Option Int
  | 0, _, _ => none
  | fuel + 1, text, top =>
    if text = 0 then some top
    else
      match t.dbFile conf text with
      | none => some top
      | some file => do
        let te ← filledEntry file
        let text :=
          if te.th.commentNum ≠ 0 ∧ te.th.commentConf = 0 then te.th.commentNum else 0
        treeTopLoop t conf fuel text (if (t.dbFile conf text).isSome then text else top)

def treeTop (t : TextBase) (conf : Int) (fuel : Nat) (text : Int) : Option Int :=
  treeTopLoop t conf fuel text text

/-- The loop of `cmd_jump_over` and `cmd_jump_tree`: the comment stack and the conference file
afterwards. -/
def jumpLoop (t : TextBase) (conf : Int) :
    Nat → Int → List Int → CString → Option (List Int × CString)
  | 0, _, _, _ => none
  | fuel + 1, textnum, stack, buf =>
    if textnum > 0 then do
      let r ← markAsRead none textnum conf buf
      let s ← stackText t conf textnum stack r.2
      jumpLoop t conf fuel (popComment s.1).1 (popComment s.1).2 s.2
    else some (stack, buf)

/-- The numbers of the comments on a text, as `stack_text` parses its file. -/
def TextBase.stackLinks (t : TextBase) (conf n : Int) : List Int :=
  match (t.dbFile conf n).bind filledEntry with
  | none => []
  | some te => te.cl.map (·.commentNum)

section Jumps

variable {t : TextBase} {conf num : Int} {f : ConfsFile}

/-- In a conference the loop does what `display_text` does with a screen that never ends, where no comment
is transferred. -/
theorem markMissing_eq (hconf : 0 < conf) {cl : List CommentLink} (hcl : ∀ c ∈ cl, c.commentAuthor ≠ 0)
    (buf : CString) :
    (markMissing t conf cl buf).map (fun r => (some r.1, r.2)) = listLinks t conf none cl buf := by
  induction cl generalizing buf with
  | nil => rfl
  | cons c cl ih =>
    obtain ⟨hc, hcl⟩ := List.forall_mem_cons.mp hcl
    have hfile : t.dbFile conf c.commentNum = t.textFile conf c.commentNum := if_pos hconf
    unfold markMissing listLinks
    rw [hfile]
    by_cases hmiss : t.textFile conf c.commentNum = none
    · rw [if_pos hmiss, if_pos ⟨hconf, hmiss⟩]
      cases markAsRead none c.commentNum conf buf with
      | none => rfl
      | some r =>
        simp only [Option.bind_eq_bind, Option.bind_some, ← ih hcl]
        cases markMissing t conf cl r.2 <;> rfl
    · rw [if_neg hmiss, if_neg fun h => hmiss h.2]
      by_cases hz : c.commentNum = 0
      · rw [if_pos hz, ← ih hcl]
        cases markMissing t conf cl buf <;> rfl
      · rw [if_neg hz, if_neg fun h => hc h.1, if_neg fun h => hc h.1, if_neg (by simp), Option.map_none,
          ← ih hcl]
        cases markMissing t conf cl buf <;> rfl

def byUser (c : CommentLink) : CommentLink := { c with commentAuthor := 1 }

/-- The loop does not look at the authors. -/
theorem markMissing_byUser (cl : List CommentLink) (buf : CString) :
    markMissing t conf (cl.map byUser) buf = (markMissing t conf cl buf).map fun r => (r.1.map byUser, r.2) := by
  induction cl generalizing buf with
  | nil => rfl
  | cons c cl ih =>
    rw [List.map_cons]
    unfold markMissing
    show (if t.dbFile conf c.commentNum = none then _ else _) = _
    by_cases hmiss : t.dbFile conf c.commentNum = none
    · rw [if_pos hmiss, if_pos hmiss]
      show (markAsRead none c.commentNum conf buf).bind _ = _
      cases markAsRead none c.commentNum conf buf with
      | none => rfl
      | some r =>
        simp only [Option.bind_eq_bind, Option.bind_some, ih]
        cases markMissing t conf cl r.2 <;> rfl
    · rw [if_neg hmiss, if_neg hmiss, ih]
      cases markMissing t conf cl buf <;> rfl

theorem markMissing_bytes (hconf : 0 < conf) {cl : List CommentLink}
    (hcl : ∀ c ∈ cl, 0 ≤ c.commentNum) :
    ∃ cl' f', markMissing t conf cl f.bytes = some (cl', f'.bytes) ∧
      Shown t conf (cl.map (·.commentNum)) f f' [] ∧
      ((cl'.map (·.commentNum)).filter (· ≠ 0)).Sublist (cl.map (·.commentNum)) := by
  have hauthor : ∀ c ∈ cl.map byUser, c.commentAuthor ≠ 0 := by
    intro c hc
    obtain ⟨a, -, rfl⟩ := List.mem_map.mp hc
    exact one_ne_zero
  have hnum : ∀ c ∈ cl.map byUser, 0 ≤ c.commentNum := by
    intro c hc
    obtain ⟨a, ha, rfl⟩ := List.mem_map.mp hc
    exact hcl a ha
  have hnums : ∀ cl : List CommentLink, (cl.map byUser).map (·.commentNum) = cl.map (·.commentNum) := fun cl =>
    List.map_map
  obtain ⟨cl', f', hrun, hshown, hsub, -⟩ := listLinks_bytes (t := t) (f := f) hconf none hnum
    fun c hc h0 => absurd h0 (hauthor c hc)
  rw [← markMissing_eq hconf hauthor, markMissing_byUser] at hrun
  rw [hnums] at hshown hsub
  obtain ⟨r, hmark, heq⟩ := Option.map_eq_some_iff.mp hrun
  obtain ⟨⟨cl₂, buf⟩, hmissing, rfl⟩ := Option.map_eq_some_iff.mp hmark
  cases heq
  rw [hnums] at hsub
  exact ⟨cl₂, f', hmissing, hshown, hsub⟩

/-- `stack_text` marks and stacks comments of the text only. -/
theorem stackText_bytes (hlinks : ∀ m ∈ t.stackLinks conf num, 0 ≤ m) {stack : List Int}
    {r : List Int × CString} (h : stackText t conf num stack f.bytes = some r) :
    ∃ f', r.2 = f'.bytes ∧ Shown t conf (t.stackLinks conf num) f f' [] ∧
      ∀ m ∈ r.1, m ∈ stack ∨ m ∈ t.stackLinks conf num := by
  unfold stackText at h
  cases hfile : t.dbFile conf num with
  | none =>
    rw [hfile] at h
    cases h
    exact ⟨f, rfl, .refl .., fun m hm => Or.inl hm⟩
  | some file =>
    have hconf : 0 < conf := by
      by_contra hle
      rw [TextBase.dbFile, if_neg hle] at hfile
      cases hfile
    cases hentry : filledEntry file with
    | none => simp [hfile, hentry] at h
    | some te =>
      have hstack : t.stackLinks conf num = te.cl.map (·.commentNum) := by
        simp only [TextBase.stackLinks, hfile, Option.bind_some, hentry]
      rw [hstack] at hlinks ⊢
      obtain ⟨cl', f', hrun, hshown, hsub⟩ := markMissing_bytes (t := t) (f := f) hconf
        fun c hc => hlinks _ (List.mem_map_of_mem hc)
      simp only [hfile, hentry, Option.bind_eq_bind, Option.bind_some, hrun, Option.pure_def,
        Option.some.injEq] at h
      subst h
      refine ⟨f', rfl, hshown, fun m hm => ?_⟩
      rcases List.mem_append.mp hm with hm | hm
      · exact Or.inr (hsub.subset hm)
      · exact Or.inl hm

/-- `tree_top` returns the text itself or one that has a file. -/
theorem treeTopLoop_mem (fuel : Nat) {text top r : Int}
    (h : treeTopLoop t conf fuel text top = some r) :
    r = top ∨ (t.dbFile conf r).isSome := by
  induction fuel generalizing text top with
  | zero => cases h
  | succ fuel ih =>
    unfold treeTopLoop at h
    by_cases h0 : text = 0
    · rw [if_pos h0] at h
      exact Or.inl (Option.some.inj h).symm
    · rw [if_neg h0] at h
      cases hfile : t.dbFile conf text with
      | none =>
        rw [hfile] at h
        exact Or.inl (Option.some.inj h).symm
      | some file =>
        rw [hfile] at h
        obtain ⟨te, -, h⟩ := Option.bind_eq_some_iff.mp h
        dsimp only at h
        generalize (if te.th.commentNum ≠ 0 ∧ te.th.commentConf = 0 then te.th.commentNum
          else 0) = next at h
        by_cases hnext : (t.dbFile conf next).isSome
        · rw [if_pos hnext] at h
          rcases ih h with rfl | hr
          · exact Or.inr hnext
          · exact Or.inr hr
        · rw [if_neg hnext] at h
          exact ih h

theorem treeTop_le_iff {last : Int} (hfiles : ∀ n, (t.dbFile conf n).isSome → n ≤ last)
    {fuel : Nat} {text r : Int} (htext : text ≠ 0) (h : treeTop t conf fuel text = some r) :
    r ≤ last ↔ text ≤ last := by
  by_cases hex : (t.dbFile conf text).isSome
  · have hr : r ≤ last := by
      rcases treeTopLoop_mem fuel h with rfl | hr
      · exact hfiles _ hex
      · exact hfiles r hr
    exact iff_of_true hr (hfiles text hex)
  · have hnone : t.dbFile conf text = none := by simpa using hex
    cases fuel with
    | zero => cases h
    | succ fuel =>
      unfold treeTop treeTopLoop at h
      rw [if_neg htext, hnone] at h
      rw [← Option.some.inj h]

/-- What the jump from `textnum` marks: itself and comments. -/
structure Jumped (conf textnum last : Int) (f f' : ConfsFile) : Prop where
  same : SameBut conf f f'
  grows : f.read conf ⊆ f'.read conf
  new : ∀ n ∈ f'.read conf, n ∈ f.read conf ∨ 1 ≤ n ∧ (n = textnum ∨ n ≤ last)
  marked : 0 < textnum → conf ∈ f.nums → textnum ∈ f'.read conf

theorem jumpLoop_bytes {last : Int}
    (hlinks : ∀ n, ∀ m ∈ t.stackLinks conf n, 1 ≤ m ∧ m ≤ last) (fuel : Nat) {textnum : Int}
    {stack : List Int} (hstack : ∀ m ∈ stack, 1 ≤ m ∧ m ≤ last) {r : List Int × CString}
    (h : jumpLoop t conf fuel textnum stack f.bytes = some r) :
    ∃ f', r.2 = f'.bytes ∧ Jumped conf textnum last f f' ∧ ∀ m ∈ r.1, 1 ≤ m ∧ m ≤ last := by
  induction fuel generalizing textnum stack f with
  | zero => cases h
  | succ fuel ih =>
    unfold jumpLoop at h
    by_cases hpos : textnum > 0
    · rw [if_pos hpos] at h
      obtain ⟨m, f₁, hmark, hsame₁, hread₁⟩ :=
        f.markAsRead_bytes conf (show 0 ≤ textnum by omega)
      rw [hmark] at h
      simp only [Option.bind_eq_bind, Option.bind_some] at h
      obtain ⟨s, hs, hrest⟩ := Option.bind_eq_some_iff.mp h
      obtain ⟨f₂, hf₂, hshown, hstack₂⟩ := stackText_bytes (f := f₁)
        (fun k hk => by have := (hlinks textnum k hk).1; omega) hs
      have hrange : ∀ k ∈ s.1, 1 ≤ k ∧ k ≤ last := by
        intro k hk
        rcases hstack₂ k hk with hk | hk
        · exact hstack k hk
        · exact hlinks textnum k hk
      -- the top of the stack is in the range, or the stack is empty
      have htop : (popComment s.1).1 ≤ last ∨ (popComment s.1).1 ≤ 0 := by
        cases hs1 : s.1 with
        | nil => exact Or.inr (by simp [popComment])
        | cons k ks => exact Or.inl (hrange k (by rw [hs1]; exact List.mem_cons_self)).2
      have hpop : ∀ k ∈ (popComment s.1).2, 1 ≤ k ∧ k ≤ last := by
        intro k hk
        cases hs1 : s.1 with
        | nil => simp [hs1, popComment] at hk
        | cons a ks =>
          rw [hs1] at hk
          exact hrange k (by rw [hs1]; exact List.mem_cons_of_mem _ hk)
      rw [hf₂] at hrest
      obtain ⟨f', hf', hj, hout⟩ := ih hpop hrest
      have hgrow₁ : f.read conf ⊆ f₁.read conf := fun n hn => (hread₁ n).mpr (Or.inl hn)
      have hgrow : f₁.read conf ⊆ f'.read conf := hshown.grows.trans hj.grows
      refine ⟨f', hf', ⟨hsame₁.trans (hshown.same.trans hj.same), hgrow₁.trans hgrow, ?_, ?_⟩, hout⟩
      · intro n hn
        rcases hj.new n hn with hn | ⟨h1, htop' | hle⟩
        · by_cases hn₁ : n ∈ f₁.read conf
          · rcases (hread₁ n).mp hn₁ with hn | ⟨rfl, -⟩
            · exact Or.inl hn
            · exact Or.inr ⟨by omega, Or.inl rfl⟩
          · have hmem := hlinks textnum n (hshown.missing n hn hn₁).2.1
            exact Or.inr ⟨hmem.1, Or.inr hmem.2⟩
        · exact Or.inr ⟨h1, Or.inr (by omega)⟩
        · exact Or.inr ⟨h1, Or.inr hle⟩
      · intro _ hc
        exact hgrow ((hread₁ textnum).mpr (Or.inr ⟨rfl, hc⟩))
    · rw [if_neg hpos] at h
      cases h
      exact ⟨f, rfl, ⟨.refl _ _, fun _ => id, fun n hn => Or.inl hn, fun h => absurd h hpos⟩, hstack⟩

end Jumps

end SklaffKom
