import Mathlib.Data.List.Sort
import SklaffKom.Ibol

/-!
# The import of one-liners

`run_import` reads the `.MSG` files of a directory and writes a record of each one-liner to the
cache.  A rebuild makes the cache anew; an update appends the records of the files behind the
checkpoint whose `MSGID` is not in the cache yet.  The checkpoint moves only when every file could be
read.
-/

open CString

namespace SklaffKom

def ulongMax : Nat := 18446744073709551615

/-- `struct msg_file` -/
structure IbolMsgFile where
  number : Nat
  name : CString
deriving DecidableEq, Repr

def parseMsgNumber (name : CString) : Option Nat := do
  let (n, rest) ← scanDigits name
  if n > ulongMax then none
  else if rest.map Char.toLower = ".msg".toList then pure n
  else none

/-- `compare_msg_files(a, b) <= 0` -/
def compareMsgFiles (a b : IbolMsgFile) : Bool :=
  a.number < b.number || a.number = b.number && strcmpLe a.name b.name

/-- `collect_msg_files`: the files of a directory in order. -/
def collectMsgFiles (dir : List CString) : List IbolMsgFile :=
  (dir.filterMap fun name => (parseMsgNumber name).map fun n => ⟨n, name⟩).insertionSort
    fun a b => compareMsgFiles a b = true

/-- The `highest` of `collect_msg_files`. -/
def highestMsg (files : List IbolMsgFile) : Nat := (files.map (·.number)).foldr max 0

/-! ## The checkpoint -/

/-- `strtoul(s, &end, 10)`: `none` where it sets `errno`. -/
def strtoul (s : CString) : Option Nat × CString :=
  let (n, rest) := strtol s
  (if n.natAbs > ulongMax then none else some (n % (ulongMax + 1)).toNat, rest)

/-- `read_state`; a file that is missing is the checkpoint 0. -/
def readState : Option CString → Option Nat
  | none => some 0
  | some file =>
    let buf := (fgets 128 file).1
    if buf = [] then some 0
    else
      match strtoul buf with
      | (some n, rest) => if rest = buf ∨ rest.dropWhile isSpace ≠ [] then none else some n
      | (none, _) => none

/-- `write_state_atomic` -/
def writeState (lastMsg : Nat) : CString := decimal lastMsg ++ ['\n']

/-! ## The cache -/

def idSetAdd (set : List CString) (id : CString) : List CString :=
  if id ∈ set then set else set ++ [id]

/-- The records of the cache that can be read. -/
def cacheRecords (cache : CString) : List IbolRecord :=
  (getlines cache).filterMap fun line => (ibolParseLine line).toOption

/-- `load_cache_ids`; lines that cannot be read are passed over. -/
def loadCacheIds (cache : CString) : List CString :=
  ((cacheRecords cache).map (·.msgid)).foldl idSetAdd []

def cacheEndsWithNewline (cache : CString) : Bool := cache.getLast?.all isEol

/-! ## A message -/

/-- What `run_import` gets from outside: the messages, the times of their files and `mktime`, whose
results are 64-bit numbers. -/
structure IbolEnv where
  /-- `read_fido_msg`, `none` for a file that cannot be read -/
  read : IbolMsgFile → Option FidoMsg
  /-- `st_mtime`, `none` where `stat` fails -/
  mtime : IbolMsgFile → Option Int
  mktime : Tm → Int
  mtime_bounds : ∀ f, ∀ t ∈ mtime f, -llongMax - 1 ≤ t ∧ t ≤ llongMax
  mktime_bounds : ∀ tm, -llongMax - 1 ≤ mktime tm ∧ mktime tm ≤ llongMax

def makeRecord (env : IbolEnv) (file : IbolMsgFile) (msg : FidoMsg) (entry : IbolEntry) :
    Option IbolRecord := do
  -- a date that cannot be read is replaced by the time of the file
  let timestamp ← (ftnTimestamp env.mktime 7 msg.date).or (env.mtime file)
  pure
    { timestamp
      msgid := strlcpy ibolMsgidMax
        (if msg.msgid ≠ [] then msg.msgid else "FILE:".toList ++ decimal file.number)
      author := strlcpy ibolAuthorMax (if entry.author ≠ [] then entry.author else msg.fromName)
      source := strlcpy ibolSourceMax entry.source
      text := strlcpy ibolTextMax entry.text }

/-- What the loop of `run_import` finds in a file. -/
inductive FileResult where
  /-- the file cannot be read -/
  | failed
  /-- no one-liner, or one without usable text -/
  | skipped
  /-- `make_record` fails -/
  | broken
  | record (r : IbolRecord)
deriving DecidableEq, Repr

def messageResult (env : IbolEnv) (file : IbolMsgFile) (msg : FidoMsg) : FileResult :=
  if !ibolIsMessage msg then .skipped
  else
    match ibolParseMessage msg IbolEntry.init with
    | (entry, .ok) => (makeRecord env file msg entry).elim .broken .record
    | _ => .skipped

def fileResult (env : IbolEnv) (file : IbolMsgFile) : FileResult :=
  (env.read file).elim .failed (messageResult env file)

/-! ## The run -/

/-- `MODE_REBUILD` and `MODE_UPDATE` -/
inductive ImportMode where
  | rebuild
  | update
deriving DecidableEq, Repr

/-- The cache and the checkpoint file. -/
structure IbolStore where
  cache : Option CString
  state : Option CString
deriving DecidableEq, Repr

/-- What the loop of `run_import` changes; `written` goes to the output file. -/
structure ImportLoop where
  ids : List CString
  written : CString
  parseFailureSeen : Bool
  writeFailed : Bool
deriving DecidableEq, Repr

/-- The loop of `run_import` over the files that are selected. -/
def ibolImportLoop (env : IbolEnv) : List IbolMsgFile → ImportLoop → ImportLoop
  | [], s => s
  | file :: files, s =>
    match fileResult env file with
    | .failed => ibolImportLoop env files { s with parseFailureSeen := true }
    | .skipped => ibolImportLoop env files s
    | .broken => { s with writeFailed := true }
    | .record r =>
      if r.msgid ∈ s.ids then ibolImportLoop env files s
      else ibolImportLoop env files
        { s with written := s.written ++ ibolWriteRecord r, ids := idSetAdd s.ids r.msgid }

/-- The tests that an update begins with: the checkpoint and the `MSGID`s of the cache. -/
def updateStart (store : IbolStore) (files : List IbolMsgFile) : Option (Nat × List CString) := do
  let oldState ← readState store.state
  if oldState ≠ 0 ∧ highestMsg files < oldState then none
  else if store.state.isSome ∧ store.cache = none then none
  else pure (oldState, loadCacheIds (store.cache.getD []))

/-- What an update writes in front of its records. -/
def newlineRepair (cache : CString) : CString := if cacheEndsWithNewline cache then [] else ['\n']

/-- The state of the loop when it begins: the files that are selected, and what is written before. -/
def importStart (mode : ImportMode) (store : IbolStore) (files : List IbolMsgFile) :
    Option (List IbolMsgFile × ImportLoop) :=
  match mode with
  | .rebuild => some (files, ⟨[], [], false, false⟩)
  | .update => do
    let (oldState, ids) ← updateStart store files
    pure (files.filter fun f => ¬ f.number ≤ oldState,
      ⟨ids, newlineRepair (store.cache.getD []), false, false⟩)

/-- The output file: a rebuild writes a new one, an update appends. -/
def importBase (mode : ImportMode) (store : IbolStore) : CString :=
  match mode with
  | .rebuild => []
  | .update => store.cache.getD []

/-- `run_import`: the files afterwards, and whether it returned 0. -/
def runImport (mode : ImportMode) (env : IbolEnv) (dir : List CString) (store : IbolStore) :
    IbolStore × Bool :=
  let files := collectMsgFiles dir
  match importStart mode store files with
  | none => (store, false)
  | some (selected, s) =>
    let s := ibolImportLoop env selected s
    let cache := importBase mode store ++ s.written
    if s.writeFailed then
      -- an update has written what it has written, a rebuild removes its file
      (if mode = .update then { store with cache := some cache } else store, false)
    else
      ({ cache := some cache
         -- never past a file that could not be read
         state := if s.parseFailureSeen then store.state else some (writeState (highestMsg files)) },
        !s.parseFailureSeen)

/-- The files after an update that is cut off when it has written `k` bytes. -/
def interruptedUpdate (env : IbolEnv) (dir : List CString) (store : IbolStore) (k : Nat) : IbolStore :=
  match importStart .update store (collectMsgFiles dir) with
  | none => store
  | some (selected, s) =>
    { store with cache := some (store.cache.getD [] ++ (ibolImportLoop env selected s).written.take k) }

end SklaffKom
