import SklaffKom.Posting

/-!
# The FTN importer beside interactive posting

`save_text` locks the conference list with `flock` and writes it in place; `rewrite_conf_last_text`
copies it line by line to a temporary file, without a lock, and renames that over it.  Every file
operation is a step of its own, and a file that was opened stays the same file when its name moves
to another one.
-/

open CString

namespace SklaffKom

/-! ## The copy -/

def parseConfLine (line : CString) : Option ConfEntry := do
  let p1 ← nextField line
  let p2 ← nextField p1
  let p3 ← nextField p2
  let p4 ← nextField p3
  let p5 ← nextField p4
  let p6 ← nextField p5
  let p7 ← nextField p6
  pure { num := atol line, lastText := atol p1, creator := atol p2, time := atol p3,
         type := atol p4, life := atol p5, comconf := atol p6,
         name := p7.takeWhile fun c => c ≠ '\r' ∧ c ≠ '\n' }

/-- `fgets`: the next line of the file with its line end. -/
def fgetsLine (buf : CString) : CString :=
  match strchr buf '\n' with
  | some nl => buf.take (buf.length - nl.length + 1)
  | none => buf

/-- What the loop of `rewrite_conf_last_text` does with a line: the new number, if the line is that
of the conference, and the line to write. -/
def rewriteLine (confid : Int) (line : CString) : Option Int × CString :=
  match parseConfLine line with
  | none => (none, line)
  | some ce =>
    if ce.num = confid then
      (some (ce.lastText + 1), stringifyConfStruct { ce with lastText := ce.lastText + 1 })
    else (none, line)

/-! ## Processes -/

/-- Where a process stands. -/
inductive Proc where
  | idle
  /-- `open_file` after `open` and `tries` calls of `flock`, -/
  | opened (conf : Int) (fd tries : Nat)
  /-- and after `open_file`; -/
  | locked (conf : Int) (fd : Nat)
  /-- `save_text` after reading the list, -/
  | scanned (conf num : Int) (fd : Nat) (nbuf : CString)
  /-- after creating the text file, -/
  | created (conf num : Int) (fd : Nat) (nbuf : CString)
  /-- and after writing the list; -/
  | written (fd : Nat)
  /-- `rewrite_conf_last_text` after opening the list, -/
  | importing (confid : Int) (fd : Nat)
  /-- in its loop, `pos` characters of the list read and `out` not yet in the temporary file, with
  the number of calls that were through when it began, -/
  | copying (confid : Int) (fd tmp pos : Nat) (out : CString) (num : Option Int) (since : Nat)
  /-- and after closing both files; -/
  | copied (confid num : Int) (since : Nat)
  /-- `send_ftn` with its number. -/
  | renamed (confid num : Int)
deriving DecidableEq

/-- The files by inode number, the inodes that the two names stand for, the lock on each inode, and
the text files. -/
structure Files where
  contents : Nat → CString
  fresh : Nat
  conf : Nat
  tmp : Option Nat
  lock : Nat → Option Nat
  texts : Int → Int → Bool

/-- The files, the processes, and the calls whose new list is in place, with their conference and
number. -/
structure SysState where
  files : Files
  procs : Nat → Proc
  calls : List (Int × Int)

/-- A process begins a call of `save_text` or `rewrite_conf_last_text`, or does its next file
operation. -/
inductive SysEvent where
  | save (p : Nat) (conf : Int)
  | ftn (p : Nat) (confid : Int)
  | next (p : Nat)

/-- `nbuf` of `save_text` with the number of the text, `some none` when the conference is missing. -/
def scanConf (conf : Int) (buf : CString) : Option (Option (Int × CString)) :=
  match confEntry conf buf with
  | .crash => none
  | .null => some none
  | .entry ce _ =>
    match replaceConf { ce with lastText := ce.lastText + 1 } buf with
    | none => none
    | some none => some none
    | some (some nbuf) => some (some (ce.lastText + 1, nbuf))

/-- The operations of `save_text` together are `saveText`. -/
theorem saveText_scanConf (th : TextHeader) (inbuf : CString) (conf : Int) (b : Board) :
    saveText th inbuf conf b =
      (scanConf conf b.conffile).map fun r => r.elim (-1, b) fun (num, nbuf) =>
        (num, ⟨nbuf, Function.update b.texts num (some (textBytes num th inbuf))⟩) := by
  unfold saveText scanConf
  cases confEntry conf b.conffile with
  | crash => rfl
  | null => rfl
  | entry ce next =>
    simp only
    cases replaceConf { ce with lastText := ce.lastText + 1 } b.conffile with
    | none => rfl
    | some r => cases r <;> rfl

def Files.create (fs : Files) (conf num : Int) : Files :=
  { fs with texts := Function.update fs.texts conf (Function.update (fs.texts conf) num true) }

def Files.write (fs : Files) (fd : Nat) (buf : CString) : Files :=
  { fs with contents := Function.update fs.contents fd buf }

def Files.setLock (fs : Files) (fd : Nat) (v : Option Nat) : Files :=
  { fs with lock := Function.update fs.lock fd v }

/-- The next file operation of the process `p`, `n` calls being through: the files, where the
process stands then, and the call that is through by it. -/
def procOp (fs : Files) (n p : Nat) : Proc → Option (Files × Proc × List (Int × Int))
  | .idle => none
  | .opened conf fd tries =>
    -- with `count` at 30 the file is closed whether or not the last `flock` succeeded
    if 30 < tries then some (fs, .idle, [])
    else match fs.lock fd with
      | some _ => some (fs, .opened conf fd (tries + 1), [])
      | none => some (fs.setLock fd (some p), .locked conf fd, [])
  | .locked conf fd =>
    match scanConf conf (fs.contents fd) with
    | none => none
    -- `MSG_CONFMISSING`: the list stays open and locked
    | some none => some (fs, .idle, [])
    | some (some (num, nbuf)) => some (fs, .scanned conf num fd nbuf, [])
  | .scanned conf num fd nbuf => some (fs.create conf num, .created conf num fd nbuf, [])
  | .created conf num fd nbuf => some (fs.write fd nbuf, .written fd, [(conf, num)])
  | .written fd => some (fs.setLock fd none, .idle, [])
  | .importing confid fd =>
    match fs.tmp with
    | some t => some (fs.write t [], .copying confid fd t 0 [] none n, [])
    | none =>
      some ({ fs.write fs.fresh [] with fresh := fs.fresh + 1, tmp := some fs.fresh },
        .copying confid fd fs.fresh 0 [] none n, [])
  | .copying confid fd tmp pos out num since =>
    match (fs.contents fd).drop pos with
    | [] =>
      -- `fclose` writes `out` over the start of the temporary file
      let fs := fs.write tmp (out ++ (fs.contents tmp).drop out.length)
      match num with
      | some num => some (fs, .copied confid num since, [])
      | none => some ({ fs with tmp := none }, .idle, [])
    | rest =>
      let line := fgetsLine rest
      let r := rewriteLine confid line
      some (fs, .copying confid fd tmp (pos + line.length) (out ++ r.2) (r.1 <|> num) since, [])
  | .copied confid num _ =>
    match fs.tmp with
    | none => some (fs, .idle, [])
    | some t => some ({ fs with conf := t, tmp := none }, .renamed confid num, [(confid, num)])
  | .renamed confid num => some (fs.create confid num, .idle, [])

def sysStep (s : SysState) : SysEvent → Option SysState
  | .save p conf =>
    if s.procs p = .idle then
      some { s with procs := Function.update s.procs p (.opened conf s.files.conf 0) }
    else none
  | .ftn p confid =>
    if s.procs p = .idle then
      some { s with procs := Function.update s.procs p (.importing confid s.files.conf) }
    else none
  | .next p =>
    (procOp s.files s.calls.length p (s.procs p)).map fun r =>
      ⟨r.1, Function.update s.procs p r.2.1, s.calls ++ r.2.2⟩

/-- A `save_text` that has opened the list and not yet written it. -/
def Proc.posting : Proc → Bool
  | .opened .. | .locked .. | .scanned .. | .created .. => true
  | _ => false

/-- A `rewrite_conf_last_text` that has opened the list and not yet renamed its copy. -/
def Proc.rewriting : Proc → Bool
  | .importing .. | .copying .. | .copied .. => true
  | _ => false

/-- An importer begins when no other one is at work, and renames when no call went through since it
began to read and no `save_text` has the list open. -/
def Undisturbed (s : SysState) : SysEvent → Prop
  | .save .. => True
  | .ftn .. => ∀ q, (s.procs q).rewriting = false
  | .next p =>
    match s.procs p with
    | .copied _ _ since => since = s.calls.length ∧ ∀ q, (s.procs q).posting = false
    | _ => True

/-! ## The copy of a well-formed list -/

theorem fgetsLine_stringify {e : ConfEntry} (h : '\n' ∉ e.name) (rest : CString) :
    fgetsLine (stringifyConfStruct e ++ rest) = stringifyConfStruct e := by
  obtain ⟨l, hl, -, hnl⟩ := stringifyConfStruct_line h
  have hchr : strchr (stringifyConfStruct e ++ rest) '\n' = some ('\n' :: rest) := by
    rw [hl, List.append_assoc, List.singleton_append, strchr_append hnl]
  have hlen : (stringifyConfStruct e ++ rest).length - ('\n' :: rest).length + 1 =
      (stringifyConfStruct e).length := by
    simp only [hl, List.length_append, List.length_cons, List.length_nil]
    omega
  unfold fgetsLine
  rw [hchr]
  show (stringifyConfStruct e ++ rest).take _ = _
  rw [hlen, List.take_left' rfl]

/-- The entry that the importer writes for the conference: its name ends at a carriage return. -/
def ConfEntry.bumped (e : ConfEntry) : ConfEntry :=
  { e with lastText := e.lastText + 1, name := e.name.takeWhile fun c => c ≠ '\r' ∧ c ≠ '\n' }

theorem notMem_bumped (e : ConfEntry) : '\n' ∉ e.bumped.name := by
  intro h
  have := List.mem_takeWhile_imp h
  simp at this

theorem takeWhile_line {name : CString} (h : '\n' ∉ name) :
    (name ++ ['\n']).takeWhile (fun c => c ≠ '\r' ∧ c ≠ '\n') =
      name.takeWhile fun c => c ≠ '\r' ∧ c ≠ '\n' := by
  induction name with
  | nil => rfl
  | cons c name ih =>
    have hn : '\n' ∉ name := fun hc => h (List.mem_cons_of_mem _ hc)
    rw [List.cons_append, List.takeWhile_cons, List.takeWhile_cons, ih hn]

theorem parseConfLine_stringify {e : ConfEntry} (h : '\n' ∉ e.name) :
    parseConfLine (stringifyConfStruct e) =
      some { e with name := e.name.takeWhile fun c => c ≠ '\r' ∧ c ≠ '\n' } := by
  have hb : stringifyConfStruct e = field e.num ++ (field e.lastText ++ (field e.creator ++
      (field e.time ++ (field e.type ++ (field e.life ++ (field e.comconf ++
        (e.name ++ ['\n']))))))) := by
    simp [stringifyConfStruct]
  rw [hb]
  simp only [parseConfLine, nextField_field, atol_field, Option.bind_eq_bind, Option.bind_some,
    Option.pure_def, takeWhile_line h]

theorem rewriteLine_stringify {e : ConfEntry} (h : '\n' ∉ e.name) (confid : Int) :
    rewriteLine confid (stringifyConfStruct e) =
      if e.num = confid then (some (e.lastText + 1), stringifyConfStruct e.bumped)
      else (none, stringifyConfStruct e) := by
  simp only [rewriteLine, parseConfLine_stringify h, ConfEntry.bumped]

/-- `last_text` of every conference in the list. -/
def ConfFile.lastTexts (l : ConfFile) (conf : Int) : Option Int :=
  (l.entry conf).map (·.lastText)

/-- The file `buf` is the list with the next number `num` taken in `conf`. -/
def Takes (l : ConfFile) (conf num : Int) (buf : CString) : Prop :=
  ∃ l' : ConfFile, buf = l'.bytes ∧ l.lastTexts conf = some (num - 1) ∧
    l'.lastTexts = Function.update l.lastTexts conf (some num)

theorem takes_update {l : ConfFile} {conf : Int} {e ce : ConfEntry} (he : l.entry conf = some e)
    (hnl : '\n' ∉ ce.name) (hnum : ce.num = conf) (hlast : ce.lastText = e.lastText + 1) :
    Takes l conf (e.lastText + 1) (l.update ce hnl).bytes := by
  refine ⟨_, rfl, by simp [ConfFile.lastTexts, he], ?_⟩
  funext c
  unfold ConfFile.lastTexts
  by_cases hc : c = conf
  · rw [hc, Function.update_self, l.entry_update_self hnl he hnum, Option.map_some, hlast]
  · rw [Function.update_of_ne hc, l.entry_update_ne hnl (by rw [hnum]; exact hc)]

/-- `save_text` computes the list with the next number taken. -/
theorem scanConf_bytes (l : ConfFile) (conf : Int) :
    scanConf conf l.bytes = some none ∨
      ∃ num nbuf, scanConf conf l.bytes = some (some (num, nbuf)) ∧ Takes l conf num nbuf := by
  cases he : l.entry conf with
  | none => exact Or.inl (by simp only [scanConf, l.confEntry_bytes_none he])
  | some e =>
    obtain ⟨as, bs, -, -, hfind⟩ := l.confEntry_bytes he
    have hnl : '\n' ∉ ({ e with lastText := e.lastText + 1 } : ConfEntry).name :=
      l.oneLine e (l.mem_of_entry he)
    have hnum := (l.exists_split he).1
    have hrep := l.replaceConf_bytes hnl he hnum
    refine Or.inr ⟨_, _, ?_, takes_update he hnl hnum rfl⟩
    simp only [scanConf, hfind, hrep]

/-- The entry that the importer writes for a line. -/
def bump (confid : Int) (e : ConfEntry) : ConfEntry := if e.num = confid then e.bumped else e

theorem bump_of_ne {confid : Int} {es : List ConfEntry} (h : ∀ e ∈ es, e.num ≠ confid) :
    es.map (bump confid) = es := by
  conv_rhs => rw [← List.map_id es]
  apply List.map_congr_left
  intro e he
  rw [bump, if_neg (h e he), id]

/-- What the loop has read, written and found when it stands at `pos`. -/
def Copied (l : ConfFile) (confid : Int) (pos : Nat) (out : CString) (num : Option Int) : Prop :=
  ∃ as bs, l.entries = as ++ bs ∧ pos = (confBytes as).length ∧
    out = confBytes (as.map (bump confid)) ∧
    num = (as.find? (·.num = confid)).map (·.lastText + 1)

theorem copied_start (l : ConfFile) (confid : Int) : Copied l confid 0 [] none :=
  ⟨[], l.entries, rfl, rfl, rfl, rfl⟩

theorem confBytes_eq_nil {es : List ConfEntry} (h : confBytes es = []) : es = [] := by
  have := length_le_confBytes es
  rw [h] at this
  exact List.length_eq_zero_iff.mp (by simpa using this)

theorem drop_bytes {l : ConfFile} {as bs : List ConfEntry} (h : l.entries = as ++ bs) :
    l.bytes.drop (confBytes as).length = confBytes bs := by
  rw [ConfFile.bytes, h, confBytes_append, List.drop_left' rfl]

/-- One pass of the loop. -/
theorem copied_line {l : ConfFile} {confid : Int} {pos : Nat} {out : CString} {num : Option Int}
    (h : Copied l confid pos out num) (hrest : l.bytes.drop pos ≠ []) :
    Copied l confid (pos + (fgetsLine (l.bytes.drop pos)).length)
      (out ++ (rewriteLine confid (fgetsLine (l.bytes.drop pos))).2)
      ((rewriteLine confid (fgetsLine (l.bytes.drop pos))).1 <|> num) := by
  obtain ⟨as, bs, hs, rfl, rfl, rfl⟩ := h
  rw [drop_bytes hs] at hrest ⊢
  cases bs with
  | nil => exact absurd rfl hrest
  | cons e bs =>
    have hnl : '\n' ∉ e.name := l.oneLine e (by rw [hs]; simp)
    rw [confBytes_cons, fgetsLine_stringify hnl, rewriteLine_stringify hnl]
    refine ⟨as ++ [e], bs, by rw [hs]; simp, by simp, ?_, ?_⟩
    · rw [List.map_append, confBytes_append, List.map_cons, List.map_nil, bump]
      split <;> simp
    · rw [List.find?_append, List.find?_cons]
      by_cases he : e.num = confid
      · have hnone : as.find? (·.num = confid) = none := by
          rw [List.find?_eq_none]
          intro a ha
          have hnd := l.numbered
          rw [hs, List.map_append, List.pairwise_append] at hnd
          have := hnd.2.2 a.num (List.mem_map_of_mem ha) e.num (by simp)
          simp only [decide_eq_true_eq]
          omega
        simp [he, hnone]
      · simp [he]

/-- A copy that was not disturbed takes the next number. -/
theorem copied_end {l : ConfFile} {confid num : Int} {pos : Nat} {out : CString}
    (h : Copied l confid pos out (some num)) (hrest : l.bytes.drop pos = []) :
    Takes l confid num out := by
  obtain ⟨as, bs, hs, rfl, rfl, hnum⟩ := h
  rw [drop_bytes hs] at hrest
  obtain rfl := confBytes_eq_nil hrest
  rw [List.append_nil] at hs
  obtain ⟨e, he, rfl⟩ := Option.map_eq_some_iff.mp hnum.symm
  have he' : l.entry confid = some e := by rw [ConfFile.entry, hs, he]
  obtain ⟨hconf, pre, suf, hsplit, -⟩ := l.exists_split he'
  have hout : confBytes (as.map (bump confid)) = (l.update e.bumped (notMem_bumped e)).bytes := by
    have hnd := l.numbered
    rw [hsplit, List.map_append, List.map_cons, List.pairwise_append, List.pairwise_cons] at hnd
    have hpre : ∀ a ∈ pre, a.num ≠ confid := by
      intro a ha
      have := hnd.2.2 a.num (List.mem_map_of_mem ha) e.num (by simp)
      omega
    have hsuf : ∀ b ∈ suf, b.num ≠ confid := by
      intro b hb
      have := hnd.2.1.1 b.num (List.mem_map_of_mem hb)
      omega
    rw [ConfFile.bytes, l.entries_update (notMem_bumped e) hsplit rfl, ← hs, hsplit,
      List.map_append, List.map_cons, bump_of_ne hpre, bump_of_ne hsuf, bump, if_pos hconf]
  rw [hout]
  exact takes_update he' (notMem_bumped e) hconf rfl

/-! ## Runs -/

/-- `last_text` in the list as it is stored. -/
def SysState.lastText (s : SysState) (conf : Int) : Option Int :=
  match confEntry conf (s.files.contents s.files.conf) with
  | .entry ce _ => some ce.lastText
  | _ => none

/-- `last_text` of every conference is its value in `l` and the number of calls for it, and no two
calls took the same number. -/
structure Counted (l : ConfFile) (s : SysState) : Prop where
  last : ∀ conf, s.lastText conf =
    (l.entry conf).map fun e => e.lastText + (s.calls.countP (·.1 = conf) : Int)
  distinct : s.calls.Nodup

/-- `Counted` for the list that is stored, with no call ahead of it. -/
structure Tally (l₀ l : ConfFile) (calls : List (Int × Int)) : Prop where
  last : ∀ conf, l.lastTexts conf =
    (l₀.lastTexts conf).map fun n => n + (calls.countP (·.1 = conf) : Int)
  ahead : ∀ c ∈ calls, ∃ n, l.lastTexts c.1 = some n ∧ c.2 ≤ n
  distinct : calls.Nodup

theorem Tally.takes {l₀ l : ConfFile} {calls : List (Int × Int)} (h : Tally l₀ l calls)
    {conf num : Int} {buf : CString} (ht : Takes l conf num buf) :
    ∃ l' : ConfFile, buf = l'.bytes ∧ Tally l₀ l' (calls ++ [(conf, num)]) := by
  obtain ⟨l', rfl, hnum, hl'⟩ := ht
  refine ⟨l', rfl, ⟨?_, ?_, ?_⟩⟩
  · intro c
    rw [hl']
    by_cases hc : c = conf
    · have hlast := h.last conf
      rw [hnum] at hlast
      obtain ⟨n, hn, heq⟩ := Option.map_eq_some_iff.mp hlast.symm
      rw [hc, Function.update_self, hn, Option.map_some, List.countP_append]
      congr 1
      simp only [List.countP_singleton, decide_true, if_true]
      omega
    · rw [Function.update_of_ne hc, h.last c, List.countP_append]
      simp [Ne.symm hc]
  · intro c hc
    rw [hl']
    rcases List.mem_append.mp hc with hc | hc
    · obtain ⟨n, hn, hle⟩ := h.ahead c hc
      by_cases heq : c.1 = conf
      · rw [heq, hnum, Option.some.injEq] at hn
        exact ⟨num, by rw [heq, Function.update_self], by omega⟩
      · exact ⟨n, by rw [Function.update_of_ne heq, hn], hle⟩
    · obtain rfl := List.mem_singleton.mp hc
      exact ⟨num, Function.update_self .., Int.le_refl _⟩
  · rw [List.nodup_append]
    refine ⟨h.distinct, by simp, ?_⟩
    intro a ha b hb heq
    obtain rfl := List.mem_singleton.mp hb
    obtain ⟨n, hn, hle⟩ := h.ahead a ha
    rw [heq, hnum, Option.some.injEq] at hn
    rw [heq] at hle
    simp only at hle
    omega

/-- What holds where a process stands, `n` calls being through. -/
def ProcInv (l : ConfFile) (fs : Files) (n p : Nat) : Proc → Prop
  | .idle | .renamed .. => True
  | .opened _ fd _ => fd = fs.conf
  | .locked _ fd => fd = fs.conf ∧ fs.lock fd = some p
  | .scanned conf num fd nbuf => (fd = fs.conf ∧ fs.lock fd = some p) ∧ Takes l conf num nbuf
  | .created conf num fd nbuf => (fd = fs.conf ∧ fs.lock fd = some p) ∧ Takes l conf num nbuf
  | .written fd => fs.lock fd = some p
  | .importing _ fd => fd = fs.conf
  | .copying confid fd tmp pos out num since =>
    (fd = fs.conf ∧ fs.tmp = some tmp ∧ fs.contents tmp = []) ∧ since ≤ n ∧
      (since = n → Copied l confid pos out num)
  | .copied confid num since =>
    since ≤ n ∧ (since = n → ∃ t, fs.tmp = some t ∧ Takes l confid num (fs.contents t))

/-- The stored list is `l`, with every call counted in it, and at most one process copies it. -/
structure SysInv (l₀ : ConfFile) (s : SysState) (l : ConfFile) : Prop where
  stored : s.files.contents s.files.conf = l.bytes
  tally : Tally l₀ l s.calls
  inode : s.files.conf < s.files.fresh
  tmp : ∀ t, s.files.tmp = some t → t < s.files.fresh ∧ t ≠ s.files.conf
  single : ∀ p q, (s.procs p).rewriting = true → (s.procs q).rewriting = true → p = q
  proc : ∀ p, ProcInv l s.files s.calls.length p (s.procs p)

theorem SysInv.counted {l₀ l : ConfFile} {s : SysState} (h : SysInv l₀ s l) : Counted l₀ s where
  last conf := by
    have hlast := h.tally.last conf
    unfold SysState.lastText
    rw [h.stored]
    unfold ConfFile.lastTexts at hlast
    rw [Option.map_map] at hlast
    cases he : l.entry conf with
    | none =>
      rw [he] at hlast
      rw [l.confEntry_bytes_none he]
      exact hlast
    | some e =>
      obtain ⟨as, bs, -, -, hfind⟩ := l.confEntry_bytes he
      rw [he] at hlast
      rw [hfind]
      exact hlast
  distinct := h.tally.distinct

/-- A process keeps its place when another one changes neither the list nor its lock, nor the
temporary file while it copies. -/
theorem ProcInv.frame {l : ConfFile} {fs fs' : Files} {n p : Nat} {pr : Proc}
    (h : ProcInv l fs n p pr) (hconf : fs'.conf = fs.conf)
    (hlock : ∀ fd, fs.lock fd = some p → fs'.lock fd = some p)
    (htmp : pr.rewriting = true → fs'.tmp = fs.tmp ∧ fs'.contents = fs.contents) :
    ProcInv l fs' n p pr := by
  cases pr with
  | idle => trivial
  | renamed => trivial
  | opened conf fd tries =>
    show fd = fs'.conf
    rw [hconf]
    exact h
  | locked conf fd => exact ⟨h.1.trans hconf.symm, hlock fd h.2⟩
  | scanned conf num fd nbuf => exact ⟨⟨h.1.1.trans hconf.symm, hlock fd h.1.2⟩, h.2⟩
  | created conf num fd nbuf => exact ⟨⟨h.1.1.trans hconf.symm, hlock fd h.1.2⟩, h.2⟩
  | written fd => exact hlock fd h
  | importing confid fd =>
    show fd = fs'.conf
    rw [hconf]
    exact h
  | copying confid fd tmp pos out num since =>
    obtain ⟨ht, hc⟩ := htmp rfl
    obtain ⟨⟨hfd, htm, hnil⟩, hrest⟩ := h
    exact ⟨⟨hfd.trans hconf.symm, ht.trans htm, by rw [hc, hnil]⟩, hrest⟩
  | copied confid num since =>
    obtain ⟨ht, hc⟩ := htmp rfl
    refine ⟨h.1, fun hn => ?_⟩
    obtain ⟨t, htm, htake⟩ := h.2 hn
    exact ⟨t, ht.trans htm, by rw [hc]; exact htake⟩

/-- A process that moves on does not become a second one that copies. -/
theorem SysInv.single_update {l₀ l : ConfFile} {s : SysState} (h : SysInv l₀ s l) {p : Nat}
    {pr : Proc} (hsingle : pr.rewriting = true → ∀ q, q ≠ p → (s.procs q).rewriting = false)
    (a b : Nat) (ha : (Function.update s.procs p pr a).rewriting = true)
    (hb : (Function.update s.procs p pr b).rewriting = true) : a = b := by
  simp only [Function.update_apply] at ha hb
  split at ha <;> split at hb
  · next h1 h2 => rw [h1, h2]
  · next h1 h2 => exact absurd hb (by simp [hsingle ha b h2])
  · next h1 h2 => exact absurd ha (by simp [hsingle hb a h1])
  · exact h.single a b ha hb

/-- An operation that leaves the list as it is. -/
theorem SysInv.keep {l₀ l : ConfFile} {s : SysState} (h : SysInv l₀ s l) {p : Nat} {fs' : Files}
    {pr : Proc} (hconf : fs'.conf = s.files.conf)
    (hlist : fs'.contents s.files.conf = s.files.contents s.files.conf)
    (hinode : s.files.fresh ≤ fs'.fresh)
    (htmp : ∀ t, fs'.tmp = some t → t < fs'.fresh ∧ t ≠ s.files.conf)
    (hsingle : pr.rewriting = true → ∀ q, q ≠ p → (s.procs q).rewriting = false)
    (hlock : ∀ q fd, q ≠ p → s.files.lock fd = some q → fs'.lock fd = some q)
    (hother : ∀ q, q ≠ p → (s.procs q).rewriting = true →
      fs'.tmp = s.files.tmp ∧ fs'.contents = s.files.contents)
    (hpr : ProcInv l fs' s.calls.length p pr) :
    SysInv l₀ ⟨fs', Function.update s.procs p pr, s.calls⟩ l where
  stored := by
    show fs'.contents fs'.conf = l.bytes
    rw [hconf, hlist, h.stored]
  tally := h.tally
  inode := by
    have := h.inode
    show fs'.conf < fs'.fresh
    omega
  tmp t ht := by
    show t < fs'.fresh ∧ t ≠ fs'.conf
    rw [hconf]
    exact htmp t ht
  single := h.single_update hsingle
  proc q := by
    show ProcInv l fs' s.calls.length q (Function.update s.procs p pr q)
    by_cases hq : q = p
    · rw [hq, Function.update_self]
      exact hpr
    · rw [Function.update_of_ne hq]
      exact (h.proc q).frame hconf (fun fd => hlock q fd hq) (hother q hq)

/-- An operation that touches no file. -/
theorem SysInv.keep_files {l₀ l : ConfFile} {s : SysState} (h : SysInv l₀ s l) {p : Nat} {pr : Proc}
    (hsingle : pr.rewriting = true → ∀ q, q ≠ p → (s.procs q).rewriting = false)
    (hpr : ProcInv l s.files s.calls.length p pr) :
    SysInv l₀ ⟨s.files, Function.update s.procs p pr, s.calls⟩ l :=
  h.keep rfl rfl (Nat.le_refl _) h.tmp hsingle (fun _ _ _ => id) (fun _ _ _ => ⟨rfl, rfl⟩) hpr

theorem SysInv.alone {l₀ l : ConfFile} {s : SysState} (h : SysInv l₀ s l) {p : Nat}
    (hp : (s.procs p).rewriting = true) : ∀ q, q ≠ p → (s.procs q).rewriting = false := by
  intro q hq
  by_contra hne
  exact hq (h.single q p (by simpa using hne) hp)

/-- What an operation of the process `p` leaves. -/
def SysState.after (s : SysState) (p : Nat) (r : Files × Proc × List (Int × Int)) : SysState :=
  ⟨r.1, Function.update s.procs p r.2.1, s.calls ++ r.2.2⟩

theorem SysState.after_nil (s : SysState) (p : Nat) (fs : Files) (pr : Proc) :
    s.after p (fs, pr, []) = ⟨fs, Function.update s.procs p pr, s.calls⟩ := by
  rw [SysState.after, List.append_nil]

section Operations

variable {l₀ l : ConfFile} {s : SysState} {p : Nat} {r : Files × Proc × List (Int × Int)}

/-- `flock` sets a lock that is free. -/
theorem sysInv_opened (h : SysInv l₀ s l) {conf : Int} {fd tries : Nat}
    (hp : s.procs p = .opened conf fd tries)
    (hr : procOp s.files s.calls.length p (.opened conf fd tries) = some r) :
    SysInv l₀ (s.after p r) l := by
  have hinv := h.proc p
  rw [hp] at hinv
  rw [procOp] at hr
  split at hr
  · cases hr
    rw [s.after_nil]
    exact h.keep_files (fun hc => nomatch hc) trivial
  · split at hr
    · cases hr
      rw [s.after_nil]
      exact h.keep_files (fun hc => nomatch hc) hinv
    · next hfree =>
      cases hr
      rw [s.after_nil]
      refine h.keep rfl rfl (Nat.le_refl _) h.tmp (fun hc => nomatch hc) ?_
        (fun _ _ _ => ⟨rfl, rfl⟩) ⟨hinv, Function.update_self ..⟩
      intro q fd' _ hq
      have hne : fd' ≠ fd := by
        intro he
        rw [he, hfree] at hq
        cases hq
      show Function.update s.files.lock fd (some p) fd' = some q
      rw [Function.update_of_ne hne, hq]

theorem sysInv_locked (h : SysInv l₀ s l) {conf : Int} {fd : Nat} (hp : s.procs p = .locked conf fd)
    (hr : procOp s.files s.calls.length p (.locked conf fd) = some r) :
    SysInv l₀ (s.after p r) l := by
  have hinv := h.proc p
  rw [hp] at hinv
  obtain ⟨rfl, hlock⟩ := hinv
  rw [procOp] at hr
  rw [h.stored] at hr
  rcases scanConf_bytes l conf with hscan | ⟨num, nbuf, hscan, htake⟩
  · rw [hscan] at hr
    cases hr
    rw [s.after_nil]
    exact h.keep_files (fun hc => nomatch hc) trivial
  · rw [hscan] at hr
    cases hr
    rw [s.after_nil]
    exact h.keep_files (fun hc => nomatch hc) ⟨⟨rfl, hlock⟩, htake⟩

theorem sysInv_scanned (h : SysInv l₀ s l) {conf num : Int} {fd : Nat} {nbuf : CString}
    (hp : s.procs p = .scanned conf num fd nbuf)
    (hr : procOp s.files s.calls.length p (.scanned conf num fd nbuf) = some r) :
    SysInv l₀ (s.after p r) l := by
  have hinv := h.proc p
  rw [hp] at hinv
  cases hr
  rw [s.after_nil]
  exact h.keep rfl rfl (Nat.le_refl _) h.tmp (fun hc => nomatch hc) (fun _ _ _ => id)
    (fun _ _ _ => ⟨rfl, rfl⟩) hinv

/-- A process that does not post keeps its place when another one writes the list in place: a copy
of the list is not up to date any more. -/
theorem ProcInv.posted {l' : ConfFile} {fs : Files} {n q : Nat} {pr : Proc} {nbuf : CString}
    (h : ProcInv l fs n q pr) (hlock : fs.lock fs.conf = some p) (hq : q ≠ p)
    (htmp : ∀ t, fs.tmp = some t → t ≠ fs.conf) :
    ProcInv l' (fs.write fs.conf nbuf) (n + 1) q pr := by
  have hmine : ∀ fd, fd = fs.conf ∧ fs.lock fd = some q → False := by
    rintro fd ⟨rfl, hq'⟩
    rw [hlock, Option.some.injEq] at hq'
    exact hq hq'.symm
  cases pr with
  | idle => trivial
  | renamed => trivial
  | opened => exact h
  | locked conf fd => exact (hmine fd h).elim
  | scanned conf num fd nbuf => exact (hmine fd h.1).elim
  | created conf num fd nbuf => exact (hmine fd h.1).elim
  | written => exact h
  | importing => exact h
  | copying confid fd tmp pos out num since =>
    obtain ⟨⟨hfd, htm, hnil⟩, hle, -⟩ := h
    refine ⟨⟨hfd, htm, ?_⟩, by omega, fun hn => by omega⟩
    show Function.update fs.contents fs.conf nbuf tmp = []
    rw [Function.update_of_ne (htmp tmp htm), hnil]
  | copied confid num since => exact ⟨by have := h.1; omega, fun hn => by have := h.1; omega⟩

/-- The write of the locked list takes the number. -/
theorem sysInv_created (h : SysInv l₀ s l) {conf num : Int} {fd : Nat} {nbuf : CString}
    (hp : s.procs p = .created conf num fd nbuf)
    (hr : procOp s.files s.calls.length p (.created conf num fd nbuf) = some r) :
    ∃ l', SysInv l₀ (s.after p r) l' := by
  have hinv := h.proc p
  rw [hp] at hinv
  obtain ⟨⟨rfl, hlock⟩, htake⟩ := hinv
  cases hr
  obtain ⟨l', rfl, htally⟩ := h.tally.takes htake
  refine ⟨l', Function.update_self .., htally, h.inode, h.tmp,
    h.single_update (fun hc => nomatch hc), ?_⟩
  intro q
  show ProcInv l' (s.files.write s.files.conf l'.bytes) (s.calls ++ [(conf, num)]).length q
    (Function.update s.procs p (.written s.files.conf) q)
  by_cases hq : q = p
  · rw [hq, Function.update_self]
    exact hlock
  · rw [Function.update_of_ne hq, List.length_append]
    exact (h.proc q).posted hlock hq fun t ht => (h.tmp t ht).2

theorem sysInv_written (h : SysInv l₀ s l) {fd : Nat} (hp : s.procs p = .written fd)
    (hr : procOp s.files s.calls.length p (.written fd) = some r) :
    SysInv l₀ (s.after p r) l := by
  have hinv : s.files.lock fd = some p := by
    have := h.proc p
    rwa [hp] at this
  cases hr
  rw [s.after_nil]
  refine h.keep rfl rfl (Nat.le_refl _) h.tmp (fun hc => nomatch hc) ?_
    (fun _ _ _ => ⟨rfl, rfl⟩) trivial
  intro q fd' hq hlock
  have hne : fd' ≠ fd := by
    intro he
    rw [he, hinv, Option.some.injEq] at hlock
    exact hq hlock.symm
  show Function.update s.files.lock fd none fd' = some q
  rw [Function.update_of_ne hne, hlock]

/-- The temporary file is opened empty. -/
theorem sysInv_importing (h : SysInv l₀ s l) {confid : Int} {fd : Nat}
    (hp : s.procs p = .importing confid fd)
    (hr : procOp s.files s.calls.length p (.importing confid fd) = some r) :
    SysInv l₀ (s.after p r) l := by
  have halone := h.alone (p := p) (by rw [hp]; rfl)
  have hinv : fd = s.files.conf := by
    have := h.proc p
    rwa [hp] at this
  have hwrite : ∀ t, t ≠ s.files.conf → Function.update s.files.contents t [] s.files.conf =
      s.files.contents s.files.conf := fun t ht => Function.update_of_ne (Ne.symm ht) ..
  have hother : ∀ q, q ≠ p → (s.procs q).rewriting = true → False := by
    intro q hq hc
    rw [halone q hq] at hc
    cases hc
  rw [procOp] at hr
  split at hr
  · next t ht =>
    cases hr
    rw [s.after_nil]
    exact h.keep rfl (hwrite t (h.tmp t ht).2) (Nat.le_refl _) h.tmp (fun _ => halone)
      (fun _ _ _ => id) (fun q hq hc => (hother q hq hc).elim)
      ⟨⟨hinv, ht, Function.update_self ..⟩, Nat.le_refl _, fun _ => copied_start l confid⟩
  · cases hr
    rw [s.after_nil]
    have hfresh : s.files.fresh ≠ s.files.conf := by
      have := h.inode
      omega
    refine h.keep rfl (hwrite _ hfresh) (Nat.le_succ _) ?_ (fun _ => halone)
      (fun _ _ _ => id) (fun q hq hc => (hother q hq hc).elim)
      ⟨⟨hinv, rfl, Function.update_self ..⟩, Nat.le_refl _, fun _ => copied_start l confid⟩
    intro t ht
    cases ht
    exact ⟨Nat.lt_succ_self _, hfresh⟩

/-- The loop reads a line, or the two files are closed. -/
theorem sysInv_copying (h : SysInv l₀ s l) {confid : Int} {fd tmp pos : Nat} {out : CString}
    {num : Option Int} {since : Nat} (hp : s.procs p = .copying confid fd tmp pos out num since)
    (hr : procOp s.files s.calls.length p (.copying confid fd tmp pos out num since) = some r) :
    SysInv l₀ (s.after p r) l := by
  have halone := h.alone (p := p) (by rw [hp]; rfl)
  have hother : ∀ q, q ≠ p → (s.procs q).rewriting = true → False := by
    intro q hq hc
    rw [halone q hq] at hc
    cases hc
  have hinv := h.proc p
  rw [hp] at hinv
  obtain ⟨⟨rfl, htmp, hnil⟩, hle, hcopied⟩ := hinv
  have hne := (h.tmp tmp htmp).2
  rw [procOp] at hr
  rw [h.stored] at hr
  split at hr
  · next hend =>
    have hbytes : out ++ (s.files.contents tmp).drop out.length = out := by
      rw [hnil, List.drop_nil, List.append_nil]
    rw [hbytes] at hr
    have hlist : (s.files.write tmp out).contents s.files.conf = s.files.contents s.files.conf :=
      Function.update_of_ne (Ne.symm hne) ..
    cases num with
    | some num =>
      cases hr
      rw [s.after_nil]
      refine h.keep rfl hlist (Nat.le_refl _) h.tmp (fun _ => halone) (fun _ _ _ => id)
        (fun q hq hc => (hother q hq hc).elim) ⟨hle, fun hn => ⟨tmp, htmp, ?_⟩⟩
      show Takes l confid num (Function.update s.files.contents tmp out tmp)
      rw [Function.update_self]
      exact copied_end (hcopied hn) hend
    | none =>
      cases hr
      rw [s.after_nil]
      exact h.keep rfl hlist (Nat.le_refl _) (fun t ht => nomatch ht) (fun hc => nomatch hc)
        (fun _ _ _ => id) (fun q hq hc => (hother q hq hc).elim) trivial
  · next hmore =>
    cases hr
    rw [s.after_nil]
    exact h.keep_files (fun _ => halone)
      ⟨⟨rfl, htmp, hnil⟩, hle, fun hn => copied_line (hcopied hn) hmore⟩

/-- The rename takes the number, because the copy is up to date and no post is under way. -/
theorem sysInv_copied (h : SysInv l₀ s l) {confid num : Int} {since : Nat}
    (hp : s.procs p = .copied confid num since) (hsince : since = s.calls.length)
    (hquiet : ∀ q, (s.procs q).posting = false)
    (hr : procOp s.files s.calls.length p (.copied confid num since) = some r) :
    ∃ l', SysInv l₀ (s.after p r) l' := by
  have halone := h.alone (p := p) (by rw [hp]; rfl)
  have hinv := h.proc p
  rw [hp] at hinv
  obtain ⟨t, ht, htake⟩ := hinv.2 hsince
  rw [procOp] at hr
  rw [ht] at hr
  cases hr
  obtain ⟨l', hl', htally⟩ := h.tally.takes htake
  refine ⟨l', hl', htally, (h.tmp t ht).1, fun _ ht' => ?_,
    h.single_update (fun hc => nomatch hc), ?_⟩
  · cases ht'
  · intro q
    show ProcInv l' { s.files with conf := t, tmp := none } (s.calls ++ [(confid, num)]).length q
      (Function.update s.procs p (.renamed confid num) q)
    by_cases hq : q = p
    · rw [hq, Function.update_self]
      trivial
    · rw [Function.update_of_ne hq]
      have hpost := hquiet q
      have hrew := halone q hq
      have hqinv := h.proc q
      -- the others are idle, or have only to unlock or to write their text
      cases hpr : s.procs q with
      | idle => trivial
      | renamed => trivial
      | written fd =>
        rw [hpr] at hqinv
        exact hqinv
      | opened | locked | scanned | created =>
        rw [hpr] at hpost
        cases hpost
      | importing | copying | copied =>
        rw [hpr] at hrew
        cases hrew

end Operations

/-- An event whose condition holds keeps the invariant. -/
theorem sysInv_step {l₀ l : ConfFile} {s s' : SysState} {e : SysEvent} (h : SysInv l₀ s l)
    (hs : sysStep s e = some s') (hu : Undisturbed s e) : ∃ l', SysInv l₀ s' l' := by
  cases e with
  | save p conf =>
    rw [sysStep] at hs
    split at hs
    · cases hs
      exact ⟨l, h.keep_files (fun hc => nomatch hc) rfl⟩
    · cases hs
  | ftn p confid =>
    rw [sysStep] at hs
    split at hs
    · cases hs
      exact ⟨l, h.keep_files (fun _ q _ => hu q) rfl⟩
    · cases hs
  | next p =>
    obtain ⟨r, hr, rfl⟩ := Option.map_eq_some_iff.mp hs
    show ∃ l', SysInv l₀ (s.after p r) l'
    cases hp : s.procs p with
    | idle =>
      rw [hp] at hr
      cases hr
    | opened conf fd tries =>
      rw [hp] at hr
      exact ⟨l, sysInv_opened h hp hr⟩
    | locked conf fd =>
      rw [hp] at hr
      exact ⟨l, sysInv_locked h hp hr⟩
    | scanned conf num fd nbuf =>
      rw [hp] at hr
      exact ⟨l, sysInv_scanned h hp hr⟩
    | created conf num fd nbuf =>
      rw [hp] at hr
      exact sysInv_created h hp hr
    | written fd =>
      rw [hp] at hr
      exact ⟨l, sysInv_written h hp hr⟩
    | importing confid fd =>
      rw [hp] at hr
      exact ⟨l, sysInv_importing h hp hr⟩
    | copying confid fd tmp pos out num since =>
      rw [hp] at hr
      exact ⟨l, sysInv_copying h hp hr⟩
    | copied confid num since =>
      rw [hp] at hr
      simp only [Undisturbed, hp] at hu
      exact sysInv_copied h hp hu.1 hu.2 hr
    | renamed confid num =>
      rw [hp] at hr
      cases hr
      rw [s.after_nil]
      exact ⟨l, h.keep rfl rfl (Nat.le_refl _) h.tmp (fun hc => nomatch hc) (fun _ _ _ => id)
        (fun _ _ _ => ⟨rfl, rfl⟩) trivial⟩

/-- The list is stored, and no process has begun a call. -/
def SysState.start (l : ConfFile) : SysState where
  files := { contents := fun _ => l.bytes, fresh := 1, conf := 0, tmp := none,
             lock := fun _ => none, texts := fun _ _ => false }
  procs _ := .idle
  calls := []

theorem sysInv_start (l : ConfFile) : SysInv l (.start l) l where
  stored := rfl
  tally := ⟨fun conf => by simp [SysState.start], by simp [SysState.start],
    by simp [SysState.start]⟩
  inode := Nat.zero_lt_one
  tmp t ht := nomatch ht
  single p q hp := nomatch hp
  proc p := trivial

/-- Along a run of posts and imports every call is counted once in its conference and has a number
of its own, when no importer is disturbed. -/
theorem undisturbed_calls_counted (l : ConfFile) {events : List SysEvent}
    (h : Runs.AllSteps sysStep (fun s e _ => Undisturbed s e) (.start l) events) :
    Runs.AllSteps sysStep (fun _ _ s' => Counted l s') (.start l) events := by
  refine Runs.AllSteps.imp (I := fun s => ∃ l', SysInv l s l') ?_ ⟨l, sysInv_start l⟩ h
  rintro s e s' ⟨l', hI⟩ hs hu
  obtain ⟨l'', hI'⟩ := sysInv_step hI hs hu
  exact ⟨⟨l'', hI'⟩, hI'.counted⟩

/-- A post begins, an importer opens the list, the post ends, and the importer takes a number. -/
def postThenImport : List SysEvent :=
  [.save 0 1, .next 0, .ftn 1 1, .next 0, .next 0, .next 0, .next 0,
    .next 1, .next 1, .next 1, .next 1, .next 1]

theorem undisturbed_calls_counted_postThenImport :
    Runs.AllSteps sysStep (fun _ _ s' => Counted emptyConference s') (.start emptyConference)
      postThenImport := by
  have halone : ∀ q, (Function.update (Function.update (fun _ => Proc.idle) 0 (.opened 1 0 0)) 0
      (.locked 1 0) q).rewriting = false := by
    intro q
    match q with
    | 0 => rfl
    | q + 1 => rfl
  refine undisturbed_calls_counted emptyConference ⟨_, rfl, trivial, _, rfl, trivial, _, rfl, halone,
    _, rfl, trivial, _, rfl, trivial, _, rfl, trivial, _, rfl, trivial, _, rfl, trivial,
    _, rfl, trivial, _, rfl, trivial, _, rfl, ⟨rfl, ?_⟩, _, rfl, trivial, trivial⟩
  intro q
  match q with
  | 0 => rfl
  | 1 => rfl
  | q + 2 => rfl

/-- An importer copies the list, a post is made, and the importer renames its copy. -/
def importAroundPost : List SysEvent :=
  [.ftn 1 1, .next 1, .next 1, .next 1, .save 0 1, .next 0, .next 0, .next 0, .next 0, .next 0,
    .next 1, .next 1]

/-- Two calls took number 1, and `last_text` is 1 after both. -/
theorem import_loses_post :
    (Runs.run sysStep (.start emptyConference) importAroundPost).map
        (fun s => (s.lastText 1, s.calls, s.procs 0, s.procs 1)) =
      some (some 1, [(1, 1), (1, 1)], .idle, .idle) := by
  decide +kernel

end SklaffKom
