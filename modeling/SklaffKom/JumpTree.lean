import SklaffKom.Commands
import SklaffKom.Lib.Worklist
import Mathlib.Data.Set.Card

/-!
# Skipping and unreading a tree

`cmd_jump_tree` and `cmd_unread_tree` go up to the top of the tree of a text and mark all texts of
the tree as read or as unread.  The comments of each text are put on the comment stack, without
those that were deleted, which `stack_text` marks as read in both commands.
-/

open CString

namespace SklaffKom

/-- `mark_as_read` or `mark_as_unread` -/
abbrev MarkFun := Int → Int → CString → Option (Int × CString)

/-- The loop of the two commands: `count`, the comment stack and the conference file afterwards. -/
def treeLoop (mark : MarkFun) (t : TextBase) (conf : Int) :
    Nat → Int → List Int → Int → CString → Option (Int × List Int × CString)
  | 0, _, _, _, _ => none
  | fuel + 1, textnum, stack, count, buf =>
    if textnum > 0 then do
      let r ← mark textnum conf buf
      let s ← stackText t conf textnum stack r.2
      treeLoop mark t conf fuel (popComment s.1).1 (popComment s.1).2 (count + r.1) s.2
    else some (count, stack, buf)

inductive TreeReply where
  | notInMbox
  | readOne
  | errTnum
  | count (count : Int)
deriving DecidableEq, Repr

/-- What both commands do with the text `textnum` after `clear_comment`. -/
def markTree (mark : MarkFun) (t : TextBase) (fuel : Nat) (conf textnum : Int) (buf : CString) :
    Option (TreeReply × CString) := do
  let top ← treeTop t conf fuel textnum
  let r ← treeLoop mark t conf fuel top [] 0 buf
  pure (.count r.1, r.2.2)

/-- `cmd_jump_tree`, with what it prints. -/
def jumpTree (t : TextBase) (fuel : Nat) (conf lastText : Int) (buf : CString) :
    Option (TreeReply × CString) :=
  if conf = 0 then some (.notInMbox, buf)
  else if lastText = 0 then some (.readOne, buf)
  else markTree (markAsRead none) t fuel conf lastText buf

/-- The text that `cmd_unread_tree` begins with. -/
def unreadStart (args : CString) (lastText : Int) : Int :=
  let textnum := if args ≠ [] then atol args else 0
  if textnum = 0 ∧ lastText ≠ 0 then lastText else textnum

def cmdUnreadTree (t : TextBase) (fuel : Nat) (conf lastText : Int) (args buf : CString) :
    Option (TreeReply × CString) :=
  if conf = 0 then some (.notInMbox, buf)
  else
    let textnum := unreadStart args lastText
    if textnum = 0 then some (.errTnum, buf)
    else if t.dbFile conf textnum = none then some (.errTnum, buf)
    else markTree (markAsUnread none) t fuel conf textnum buf

/-- The text that a text comments in the same conference, 0 without one. -/
def TextBase.commented (t : TextBase) (conf n : Int) : Int :=
  match (t.dbFile conf n).bind filledEntry with
  | none => 0
  | some te => if te.th.commentNum ≠ 0 ∧ te.th.commentConf = 0 then te.th.commentNum else 0

/-- The comments on a text that exist. -/
def TextBase.treeLinks (t : TextBase) (conf n : Int) : List Int :=
  (t.stackLinks conf n).filter fun m => (t.dbFile conf m).isSome

/-- The existing texts of a conference form a forest of comments: each link, down or up, is between
a text and one with a higher number. -/
structure TextForest (t : TextBase) (conf last : Int) : Prop where
  numbered : ∀ n, (t.dbFile conf n).isSome → 1 ≤ n ∧ n ≤ last
  parses : ∀ n file, t.dbFile conf n = some file → ∃ te, filledEntry file = some te
  above : ∀ p, ∀ n ∈ t.stackLinks conf p, p < n
  once : ∀ p, (t.stackLinks conf p).Nodup
  parent : ∀ p q n, n ∈ t.stackLinks conf p → n ∈ t.stackLinks conf q → p = q
  up : ∀ n, (t.dbFile conf n).isSome → (t.dbFile conf (t.commented conf n)).isSome →
    t.commented conf n < n

/-- One step up to a text that exists. -/
def CommentsOn (t : TextBase) (conf n p : Int) : Prop :=
  p = t.commented conf n ∧ (t.dbFile conf p).isSome

/-- The highest text that is reached upwards through existing texts. -/
def IsTop (t : TextBase) (conf n top : Int) : Prop :=
  Relation.ReflTransGen (CommentsOn t conf) n top ∧ ∀ p, ¬ CommentsOn t conf top p

/-- The existing texts below the top of a tree. -/
def InTree (t : TextBase) (conf top n : Int) : Prop :=
  Relation.ReflTransGen (fun p m => m ∈ t.stackLinks conf p ∧ (t.dbFile conf m).isSome) top n

/-- A deleted comment on a text of the tree. -/
def DeletedComment (t : TextBase) (conf top n : Int) : Prop :=
  t.dbFile conf n = none ∧ ∃ p, InTree t conf top p ∧ n ∈ t.stackLinks conf p

/-! ## Going up -/

section Tops

variable {t : TextBase} {conf last : Int}

/-- `tree_top` returns the top of the tree, the numbers falling on the way up. -/
theorem treeTopLoop_top (hf : TextForest t conf last) (bound : Nat) {n : Int}
    (hn : (t.dbFile conf n).isSome) (hbound : n ≤ bound) :
    ∃ top, (∀ fuel, bound + 1 < fuel → treeTopLoop t conf fuel n n = some top) ∧
      IsTop t conf n top := by
  induction bound generalizing n with
  | zero =>
    have := hf.numbered n hn
    omega
  | succ bound ih =>
    have hpos := hf.numbered n hn
    obtain ⟨file, hfile⟩ := Option.isSome_iff_exists.mp hn
    obtain ⟨te, hte⟩ := hf.parses n file hfile
    have hup : t.commented conf n =
        if te.th.commentNum ≠ 0 ∧ te.th.commentConf = 0 then te.th.commentNum else 0 := by
      rw [TextBase.commented, hfile, Option.bind_some, hte]
    have hstep : ∀ fuel, treeTopLoop t conf (fuel + 1) n n =
        treeTopLoop t conf fuel (t.commented conf n)
          (if (t.dbFile conf (t.commented conf n)).isSome then t.commented conf n else n) := by
      intro fuel
      rw [treeTopLoop, if_neg (by omega)]
      simp only [hfile, hte, Option.bind_eq_bind, Option.bind_some, ← hup]
    by_cases hex : (t.dbFile conf (t.commented conf n)).isSome
    · have hlt := hf.up n hn hex
      obtain ⟨top, hrun, hup', htop⟩ := ih hex (by omega)
      refine ⟨top, fun fuel hfuel => ?_, .head ⟨rfl, hex⟩ hup', htop⟩
      obtain ⟨fuel, rfl⟩ : ∃ k, fuel = k + 1 := ⟨fuel - 1, by omega⟩
      rw [hstep, if_pos hex]
      exact hrun fuel (by omega)
    · refine ⟨n, fun fuel hfuel => ?_, .refl, fun p hp => hex (hp.1 ▸ hp.2)⟩
      obtain ⟨fuel, rfl⟩ : ∃ k, fuel = k + 2 := ⟨fuel - 2, by omega⟩
      rw [hstep, if_neg hex, treeTopLoop]
      split
      · rfl
      · rw [show t.dbFile conf (t.commented conf n) = none by simpa using hex]

/-- The top of the tree of an existing text exists. -/
theorem IsTop.exists {n top : Int} (h : IsTop t conf n top) (hn : (t.dbFile conf n).isSome) :
    (t.dbFile conf top).isSome := by
  rcases Relation.ReflTransGen.cases_tail h.1 with heq | ⟨m, -, hm⟩
  · rwa [heq]
  · exact hm.2

end Tops

/-! ## Marking -/

/-- The mark of the text becomes `P`, and 1 is returned where it was another one. -/
def MarksText (mark : MarkFun) (P : Prop) : Prop :=
  ∀ (f : ConfsFile) (conf text : Int), 0 ≤ text → conf ∈ f.nums → ∃ r, ∃ g : ConfsFile,
    mark text conf f.bytes = some (r, g.bytes) ∧ SameBut conf f g ∧
    (∀ n, n ∈ g.read conf ↔ n = text ∧ P ∨ n ≠ text ∧ n ∈ f.read conf) ∧
    (r = 0 ∧ (text ∈ f.read conf ↔ P) ∨ r = 1 ∧ ¬ (text ∈ f.read conf ↔ P))

theorem marksText_read : MarksText (markAsRead none) True := by
  intro f conf text ht hsub
  by_cases h : text ∈ f.read conf
  · refine ⟨0, f, f.markAsRead_bytes_same (Or.inl h), .refl _ _, fun n => ?_, Or.inl ⟨rfl, by simpa⟩⟩
    by_cases hn : n = text
    · simp [hn, h]
    · simp [hn]
  · obtain ⟨g, hrun, hsame, hread⟩ := f.markAsRead_bytes_new ht hsub h
    refine ⟨1, g, hrun, hsame, fun n => ?_, Or.inr ⟨rfl, by simpa⟩⟩
    rw [hread, Set.mem_insert_iff]
    by_cases hn : n = text
    · simp [hn]
    · simp [hn]

theorem marksText_unread : MarksText (markAsUnread none) False := by
  intro f conf text _ _
  by_cases h : text ∈ f.read conf
  · obtain ⟨g, hrun, hsame, hread⟩ := f.markAsUnread_bytes_read h
    refine ⟨1, g, hrun, hsame, fun n => ?_, Or.inr ⟨rfl, by simpa⟩⟩
    rw [hread, Set.mem_sdiff, Set.mem_singleton_iff]
    by_cases hn : n = text
    · simp [hn]
    · simp [hn]
  · refine ⟨0, f, f.markAsUnread_bytes_same h, .refl _ _, fun n => ?_, Or.inl ⟨rfl, by simpa⟩⟩
    by_cases hn : n = text
    · simp [hn, h]
    · simp [hn]

section Marks

variable {t : TextBase} {conf last num : Int} {f : ConfsFile} {mark : MarkFun} {P : Prop}

/-- `stack_text` marks the deleted comments as read and zeroes their numbers. -/
theorem markMissing_read (t : TextBase) (hsub : conf ∈ f.nums) {cl : List CommentLink}
    (hcl : ∀ c ∈ cl, 0 < c.commentNum) :
    ∃ cl' f', markMissing t conf cl f.bytes = some (cl', f'.bytes) ∧ SameBut conf f f' ∧
      (∀ n, n ∈ f'.read conf ↔
        n ∈ f.read conf ∨ t.dbFile conf n = none ∧ n ∈ cl.map (·.commentNum)) ∧
      (cl'.map (·.commentNum)).filter (· ≠ 0) =
        (cl.map (·.commentNum)).filter fun m => (t.dbFile conf m).isSome := by
  induction cl generalizing f with
  | nil => exact ⟨[], f, rfl, .refl _ _, by simp, rfl⟩
  | cons c cl ih =>
    rw [List.forall_mem_cons] at hcl
    rw [markMissing]
    by_cases hmiss : t.dbFile conf c.commentNum = none
    · rw [if_pos hmiss]
      obtain ⟨r, g, hmark, hsame, hread⟩ := f.markAsRead_bytes conf hcl.1.le
      obtain ⟨cl', f', hrun, hsame', hread', hlist⟩ := ih (f := g) (hsame.nums ▸ hsub) hcl.2
      refine ⟨{ c with commentNum := 0 } :: cl', f', ?_, hsame.trans hsame', fun n => ?_, ?_⟩
      · simp only [hmark, Option.bind_eq_bind, Option.bind_some, hrun, Option.pure_def]
      · rw [hread', hread, List.map_cons, List.mem_cons]
        by_cases hn : n = c.commentNum
        · simp [hn, hsub, hmiss]
        · simp [hn]
      · rw [List.map_cons, List.map_cons, List.filter_cons_of_neg (by simp),
          List.filter_cons_of_neg (by simp [hmiss]), hlist]
    · rw [if_neg hmiss]
      obtain ⟨cl', f', hrun, hsame', hread', hlist⟩ := ih (f := f) hsub hcl.2
      refine ⟨c :: cl', f', ?_, hsame', fun n => ?_, ?_⟩
      · simp only [hrun, Option.bind_eq_bind, Option.bind_some, Option.pure_def]
      · rw [hread', List.map_cons, List.mem_cons]
        by_cases hn : n = c.commentNum
        · simp [hn, hmiss]
        · simp [hn]
      · have hsome : (t.dbFile conf c.commentNum).isSome := Option.isSome_iff_ne_none.mpr hmiss
        rw [List.map_cons, List.map_cons, List.filter_cons_of_pos (by simpa using hcl.1.ne'),
          List.filter_cons_of_pos (p := fun m => (t.dbFile conf m).isSome) hsome, hlist]

/-- `stack_text` puts the existing comments on the stack. -/
theorem stackText_links (hf : TextForest t conf last) (hnum : (t.dbFile conf num).isSome)
    (hsub : conf ∈ f.nums) (stack : List Int) :
    ∃ f', stackText t conf num stack f.bytes = some (t.treeLinks conf num ++ stack, f'.bytes) ∧
      SameBut conf f f' ∧
      ∀ n, n ∈ f'.read conf ↔
        n ∈ f.read conf ∨ t.dbFile conf n = none ∧ n ∈ t.stackLinks conf num := by
  have hpos := hf.numbered num hnum
  obtain ⟨file, hfile⟩ := Option.isSome_iff_exists.mp hnum
  obtain ⟨te, hte⟩ := hf.parses num file hfile
  have hlinks : t.stackLinks conf num = te.cl.map (·.commentNum) := by
    simp only [TextBase.stackLinks, hfile, Option.bind_some, hte]
  obtain ⟨cl', f', hrun, hsame, hread, hlist⟩ := markMissing_read t hsub
    fun c (hc : c ∈ te.cl) => by
      have := hf.above num c.commentNum (hlinks ▸ List.mem_map_of_mem hc)
      omega
  refine ⟨f', ?_, hsame, by rwa [hlinks]⟩
  simp only [stackText, hfile, hte, Option.bind_eq_bind, Option.bind_some, hrun, Option.pure_def,
    hlist, TextBase.treeLinks, hlinks]

/-- One more item that is different or not. -/
theorem ncard_cons {C : Int → Prop} {a : Int} {vs : List Int} (ha : a ∉ vs) {r : Int}
    (hr : r = 0 ∧ ¬ C a ∨ r = 1 ∧ C a) :
    r + ({n | n ∈ vs ∧ C n}.ncard : Int) = {n | n ∈ a :: vs ∧ C n}.ncard := by
  rcases hr with ⟨rfl, hC⟩ | ⟨rfl, hC⟩
  · have heq : {n | n ∈ a :: vs ∧ C n} = {n | n ∈ vs ∧ C n} := by
      ext n
      constructor
      · rintro ⟨hn, hCn⟩
        rcases List.mem_cons.mp hn with rfl | hn
        · exact absurd hCn hC
        · exact ⟨hn, hCn⟩
      · exact fun h => ⟨List.mem_cons_of_mem a h.1, h.2⟩
    rw [heq, Int.zero_add]
  · have heq : {n | n ∈ a :: vs ∧ C n} = insert a {n | n ∈ vs ∧ C n} := by
      ext n
      constructor
      · rintro ⟨hn, hCn⟩
        rcases List.mem_cons.mp hn with rfl | hn
        · exact Set.mem_insert _ _
        · exact Set.mem_insert_of_mem _ ⟨hn, hCn⟩
      · rintro (rfl | h)
        · exact ⟨List.mem_cons_self, hC⟩
        · exact ⟨List.mem_cons_of_mem a h.1, h.2⟩
    have hfin : {n | n ∈ vs ∧ C n}.Finite := (List.finite_toSet vs).subset fun n hn => hn.1
    rw [heq, Set.ncard_insert_of_notMem (fun h => ha h.1) hfin]
    omega

/-- The loop visits the texts of the worklist, marks them and counts those whose mark was another
one. -/
theorem treeLoop_visits (hf : TextForest t conf last) (hmark : MarksText mark P) {s vs : List Int}
    (hv : Worklist.Visits (t.treeLinks conf) s vs) (hnodup : vs.Nodup)
    (hs : ∀ n ∈ s, (t.dbFile conf n).isSome) (hsub : conf ∈ f.nums) (count : Int) :
    ∃ f', (∀ fuel, vs.length < fuel → treeLoop mark t conf fuel (popComment s).1 (popComment s).2
        count f.bytes = some (count + {n | n ∈ vs ∧ ¬ (n ∈ f.read conf ↔ P)}.ncard, [], f'.bytes)) ∧
      SameBut conf f f' ∧
      ∀ n, n ∈ f'.read conf ↔ n ∈ vs ∧ P ∨ n ∉ vs ∧ (n ∈ f.read conf ∨
        t.dbFile conf n = none ∧ ∃ p ∈ vs, n ∈ t.stackLinks conf p) := by
  induction hv generalizing f count with
  | nil =>
    refine ⟨f, fun fuel hfuel => ?_, .refl _ _, by simp⟩
    obtain ⟨fuel, rfl⟩ : ∃ k, fuel = k + 1 := ⟨fuel - 1, by omega⟩
    rw [popComment, treeLoop, if_neg (by decide)]
    simp
  | @cons a s vs hvs ih =>
    rw [List.nodup_cons] at hnodup
    rw [List.forall_mem_cons] at hs
    have hpos := hf.numbered a hs.1
    obtain ⟨r, g, hrun, hsame, hread, hr⟩ := hmark f conf a (by omega) hsub
    obtain ⟨g', hstack, hsame', hread'⟩ := stackText_links (f := g) hf hs.1 (hsame.nums ▸ hsub) s
    have hs' : ∀ n ∈ t.treeLinks conf a ++ s, (t.dbFile conf n).isSome := by
      intro n hn
      rcases List.mem_append.mp hn with hn | hn
      · exact (List.mem_filter.mp hn).2
      · exact hs.2 n hn
    have hex : ∀ n ∈ vs, (t.dbFile conf n).isSome := by
      intro n hn
      obtain ⟨b, hb, hreach⟩ := hvs.mem_iff.mp hn
      rcases Relation.ReflTransGen.cases_tail hreach with heq | ⟨p, -, hp⟩
      · exact heq ▸ hs' b hb
      · exact (List.mem_filter.mp hp).2
    -- what was done so far changed no mark of the texts that come later
    have hlater : ∀ n ∈ vs, (n ∈ g'.read conf ↔ n ∈ f.read conf) := by
      intro n hn
      have hne : n ≠ a := fun h => hnodup.1 (h ▸ hn)
      have hsome := Option.isSome_iff_ne_none.mp (hex n hn)
      rw [hread', hread]
      simp [hne, hsome]
    have hcount : {n | n ∈ vs ∧ ¬ (n ∈ g'.read conf ↔ P)} =
        {n | n ∈ vs ∧ ¬ (n ∈ f.read conf ↔ P)} := by
      ext n
      exact and_congr_right fun hn => by rw [hlater n hn]
    obtain ⟨f', hloop, hsame'', hread''⟩ := ih (f := g') hnodup.2 hs'
      (hsame'.nums ▸ hsame.nums ▸ hsub) (count + r)
    refine ⟨f', fun fuel hfuel => ?_, hsame.trans (hsame'.trans hsame''), fun n => ?_⟩
    · obtain ⟨fuel, rfl⟩ : ∃ k, fuel = k + 1 := ⟨fuel - 1, by omega⟩
      have hsum := ncard_cons (C := fun n => ¬ (n ∈ f.read conf ↔ P)) hnodup.1 (r := r)
        (by simpa using hr)
      rw [popComment, treeLoop, if_pos (by omega)]
      simp only [hrun, Option.bind_eq_bind, Option.bind_some, hstack]
      rw [hloop fuel (by rw [List.length_cons] at hfuel; omega), hcount, ← hsum, Int.add_assoc]
    · rw [hread'', hread', hread]
      by_cases hna : n = a
      · subst hna
        have hsome := Option.isSome_iff_ne_none.mp hs.1
        simp [hnodup.1, hsome]
      · by_cases hn : n ∈ vs
        · simp [hn]
        · simp only [hn, hna, false_and, false_or, not_false_eq_true, true_and, List.mem_cons,
            ne_eq, or_self, exists_eq_or_imp]
          tauto

/-- The command returns with the number of texts that have changed: the tree of `n` has the marks
`P`, and elsewhere only deleted comments on its texts have become read. -/
def TreeMarked (t : TextBase) (conf n : Int) (f : ConfsFile) (P : Prop)
    (cmd : Nat → Option (TreeReply × CString)) : Prop :=
  ∃ top, ∃ f' : ConfsFile, ∃ count,
    (∃ enough, ∀ fuel, enough ≤ fuel → cmd fuel = some (.count count, f'.bytes)) ∧
    IsTop t conf n top ∧ SameBut conf f f' ∧
    (∀ m, InTree t conf top m → (m ∈ f'.read conf ↔ P)) ∧
    (∀ m, ¬ InTree t conf top m →
      (m ∈ f'.read conf ↔ m ∈ f.read conf ∨ DeletedComment t conf top m)) ∧
    count = {m | (t.dbFile conf m).isSome ∧ ¬ (m ∈ f'.read conf ↔ m ∈ f.read conf)}.ncard

/-- Nothing but existing texts is reached. -/
theorem reach_treeLinks {top m : Int} :
    Worklist.Reach (t.treeLinks conf) top m ↔ InTree t conf top m := by
  have hstep : (fun p m => m ∈ t.treeLinks conf p) =
      fun p m => m ∈ t.stackLinks conf p ∧ (t.dbFile conf m).isSome := by
    funext p m
    rw [TextBase.treeLinks, List.mem_filter]
  rw [Worklist.Reach, hstep, InTree]

theorem InTree.exists {top m : Int} (h : InTree t conf top m) (htop : (t.dbFile conf top).isSome) :
    (t.dbFile conf m).isSome := by
  rcases Relation.ReflTransGen.cases_tail h with heq | ⟨p, -, hp⟩
  · rwa [heq]
  · exact hp.2

theorem markTree_marked (hf : TextForest t conf last) (hmark : MarksText mark P)
    (hsub : conf ∈ f.nums) (hnum : (t.dbFile conf num).isSome) :
    TreeMarked t conf num f P fun fuel => markTree mark t fuel conf num f.bytes := by
  have hpos := hf.numbered num hnum
  obtain ⟨top, hrunTop, hisTop⟩ := treeTopLoop_top hf num.toNat hnum (by omega)
  have htop := hisTop.exists hnum
  have hlower : ∀ a, ∀ b ∈ t.treeLinks conf a, (last - b).toNat < (last - a).toNat := by
    intro a b hb
    obtain ⟨hlink, hex⟩ := List.mem_filter.mp hb
    have h1 := hf.above a b hlink
    have h2 := hf.numbered b hex
    omega
  have hforest : Worklist.Forest (t.treeLinks conf) :=
    ⟨fun a => (hf.once a).filter _, fun a a' b hb hb' =>
      hf.parent a a' b (List.mem_filter.mp hb).1 (List.mem_filter.mp hb').1⟩
  obtain ⟨vs, hvs⟩ := Worklist.exists_visits hlower [top]
  have hnodup := hvs.nodup hforest hlower (List.pairwise_singleton _ _)
  have hmem : ∀ m, m ∈ vs ↔ InTree t conf top m := by
    intro m
    rw [hvs.mem_iff, ← reach_treeLinks]
    simp
  obtain ⟨f', hrun, hsame, hread⟩ := treeLoop_visits (f := f) hf hmark hvs hnodup
    (fun n hn => List.mem_singleton.mp hn ▸ htop) hsub 0
  have hout : ∀ m, ¬ InTree t conf top m →
      (m ∈ f'.read conf ↔ m ∈ f.read conf ∨ DeletedComment t conf top m) := by
    intro m hm
    rw [hread, hmem, DeletedComment]
    simp only [hm, false_and, false_or, not_false_eq_true, true_and, hmem]
  have hin : ∀ m, InTree t conf top m → (m ∈ f'.read conf ↔ P) := by
    intro m hm
    rw [hread, hmem]
    simp [hm]
  refine ⟨top, f', ({n | n ∈ vs ∧ ¬ (n ∈ f.read conf ↔ P)}.ncard : Int),
    ⟨num.toNat + vs.length + 2, fun fuel hfuel => ?_⟩, hisTop, hsame, hin, hout, ?_⟩
  · have hloop := hrun fuel (by omega)
    rw [popComment, Int.zero_add] at hloop
    simp only [markTree, treeTop, hrunTop fuel (by omega), Option.bind_eq_bind, Option.bind_some,
      hloop, Option.pure_def]
  · congr 2
    ext m
    constructor
    · rintro ⟨hm, hne⟩
      have hm' := (hmem m).mp hm
      refine ⟨hm'.exists htop, ?_⟩
      rw [hin m hm']
      exact fun h => hne h.symm
    · rintro ⟨hex, hne⟩
      have hm' : InTree t conf top m := by
        by_contra hno
        apply hne
        rw [hout m hno]
        refine or_iff_left fun hdel => ?_
        rw [hdel.1] at hex
        cases hex
      rw [hin m hm'] at hne
      exact ⟨(hmem m).mpr hm', fun h => hne h.symm⟩

/-- The loop of the session's commands is the one that does not count. -/
theorem jumpLoop_eq (fuel : Nat) (textnum : Int) (stack : List Int) (count : Int) (buf : CString) :
    jumpLoop t conf fuel textnum stack buf =
      (treeLoop (markAsRead none) t conf fuel textnum stack count buf).map Prod.snd := by
  induction fuel generalizing textnum stack count buf with
  | zero => rfl
  | succ fuel ih =>
    rw [jumpLoop, treeLoop]
    by_cases hpos : textnum > 0
    · rw [if_pos hpos, if_pos hpos]
      cases markAsRead none textnum conf buf with
      | none => rfl
      | some r =>
        simp only [Option.bind_eq_bind, Option.bind_some]
        cases stackText t conf textnum stack r.2 with
        | none => rfl
        | some s => exact ih _ _ (count + r.1) _
    · rw [if_neg hpos, if_neg hpos]
      rfl

end Marks

/-- `cmd_jump_tree` in a session changes the conference file as `jumpTree` does. -/
theorem cmdJumpTree_confs (h : Host) (fuel : Nat) (s : Session) :
    (cmdJumpTree h fuel s).map (·.confs) =
      (jumpTree h.base fuel s.currentConf s.lastText s.confs).map (·.2) := by
  rw [cmdJumpTree, jumpTree]
  by_cases hconf : s.currentConf = 0
  · rw [if_pos (Or.inl hconf), if_pos hconf]
    rfl
  by_cases hlast : s.lastText = 0
  · rw [if_pos (Or.inr hlast), if_neg hconf, if_pos hlast]
    rfl
  rw [if_neg (not_or.mpr ⟨hconf, hlast⟩), if_neg hconf, if_neg hlast, markTree]
  cases treeTop h.base s.currentConf fuel s.lastText with
  | none => rfl
  | some top =>
    simp only [Option.bind_eq_bind, Option.bind_some, jumpLoop_eq fuel top [] 0]
    cases treeLoop (markAsRead none) h.base s.currentConf fuel top [] 0 s.confs with
    | none => rfl
    | some r => rfl

def topText : CString := "1:2:100:0:0:0:1:0\nRubrik\nEn rad\n2:3\n3:4\n".toList

def commentText : CString := "2:3:200:1:0:2:1:0\nRubrik\nEn rad\n".toList

/-- A text with two comments, of which the second one was deleted. -/
def treeBase : TextBase where
  mailbox := []
  conffile := confBytes [⟨1, 3, 2, 0, 1, 0, 0, "Test".toList⟩]
  textFile conf n :=
    if conf ≠ 1 then none else if n = 1 then some topText else if n = 2 then some commentText
    else none
  blocked _ := false

theorem treeBase_file {n : Int} (h : (treeBase.dbFile 1 n).isSome) : n = 1 ∨ n = 2 := by
  by_contra hno
  rw [not_or] at hno
  simp [TextBase.dbFile, treeBase, hno.1, hno.2] at h

theorem stackLinks_treeBase (n : Int) :
    treeBase.stackLinks 1 n = if n = 1 then [2, 3] else [] := by
  by_cases h1 : n = 1
  · subst h1
    decide +kernel
  by_cases h2 : n = 2
  · subst h2
    decide +kernel
  · have hnone : treeBase.dbFile 1 n = none := by
      cases hfile : treeBase.dbFile 1 n with
      | none => rfl
      | some file => exact absurd (treeBase_file (by rw [hfile]; rfl)) (not_or.mpr ⟨h1, h2⟩)
    rw [TextBase.stackLinks, hnone, if_neg h1]
    rfl

theorem textForest_treeBase : TextForest treeBase 1 3 where
  numbered n hn := by
    rcases treeBase_file hn with rfl | rfl
    · decide
    · decide
  parses n file hfile := by
    have hall : (treeBase.dbFile 1 n).all fun file => (filledEntry file).isSome := by
      rcases treeBase_file (n := n) (by rw [hfile]; rfl) with rfl | rfl
      · decide +kernel
      · decide +kernel
    rw [hfile] at hall
    exact Option.isSome_iff_exists.mp hall
  above p n hn := by
    rw [stackLinks_treeBase] at hn
    split at hn
    next hp =>
      rcases List.mem_pair.mp hn with rfl | rfl
      · omega
      · omega
    · cases hn
  once p := by
    rw [stackLinks_treeBase]
    split
    · decide
    · decide
  parent p q n hp hq := by
    rw [stackLinks_treeBase] at hp hq
    split at hp
    · split at hq
      · omega
      · cases hq
    · cases hp
  up n hn hup := by
    rcases treeBase_file hn with rfl | rfl
    · exact absurd hup (by decide +kernel)
    · decide +kernel

end SklaffKom
