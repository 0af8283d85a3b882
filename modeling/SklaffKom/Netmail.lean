import SklaffKom.FtnText
import SklaffKom.Sf7

/-!
# Imported netmail

`send_netmail_with_context` stores a netmail message as the next text of a mailbox, and
`netmail_already_imported` looks for its `MSGID` and its domain in the lines of the stored texts.
-/

open CString

namespace SklaffKom

/-! ## Writing -/

def countLines (s : CString) : Nat := s.count '\n'

/-- A name of a character set at the beginning of a `CHRS`. -/
def chrsNamed (name p : CString) : Bool :=
  hasPrefixCase name p && (p.drop name.length).head?.all isSpace

def ftnChrsIsUtf8 (chrs : CString) : Bool :=
  let p := chrs.dropWhile isBlank
  chrsNamed "UTF-8".toList p || chrsNamed "UTF8".toList p

/-- `netmail_to_sf7_dup` -/
def netmailToSf7 (src chrs : CString) : CString := if ftnChrsIsUtf8 chrs then utf8ToSf7 src else src

/-- `ftn_msgid_origin` into a buffer of the given size -/
def ftnMsgidOrigin (size : Nat) (msgid : CString) : CString :=
  strlcpy size (msgid.takeWhile fun c => !isSpace c)

/-- `make_ftn_5d_addr` into a buffer of the given size; a missing domain is empty. -/
def makeFtn5dAddr (size : Nat) (addr domain : CString) : CString :=
  if addr = [] then []
  else if '@' ∈ addr ∨ domain = [] then strlcpy size addr
  else strlcpy size (addr ++ '@' :: domain)

/-- `fromaddr` of `build_netmail_mbuf` -/
def netmailFromAddr (msg : FidoMsg) (domain : CString) : CString :=
  makeFtn5dAddr 192 (ftnMsgidOrigin 128 msg.msgid) domain

/-- `fromline` of `build_netmail_mbuf` -/
def netmailFromLine (msg : FidoMsg) (domain : CString) : CString :=
  let name := netmailToSf7 (if msg.fromName = [] then "(unknown)".toList else msg.fromName) msg.chrs
  let fromaddr := netmailFromAddr msg domain
  strlcpy 512 (if fromaddr = [] then name else name ++ " (".toList ++ fromaddr ++ [')'])

/-- The header lines before the domain. -/
def netmailHead (msg : FidoMsg) (domain : CString) : CString :=
  ("From: ".toList ++ netmailFromLine msg domain ++ ['\n']) ++
    ("To: ".toList ++ netmailToSf7 msg.toName msg.chrs ++ ['\n']) ++
    ("Subject: ".toList ++ netmailToSf7 msg.subject msg.chrs ++ ['\n']) ++
    ("Date: ".toList ++ msg.date ++ ['\n']) ++ "FTN-Netmail: yes\n".toList

/-- The header lines between the domain and the `MSGID`. -/
def netmailAddrs (msg : FidoMsg) (domain localAddr : CString) : CString :=
  optionalLine "FTN-FromAddr: ".toList (netmailFromAddr msg domain) ++
    optionalLine "FTN-ToAddr: ".toList (makeFtn5dAddr 192 localAddr domain)

/-- What follows the `MSGID`. -/
def netmailTail (msg : FidoMsg) : CString :=
  optionalLine "FTN-REPLY: ".toList msg.reply ++ optionalLine "FTN-CHRS: ".toList msg.chrs ++
    ['\n'] ++ netmailToSf7 msg.cleanBody msg.chrs

def buildNetmailMbuf (msg : FidoMsg) (domain localAddr : CString) : CString :=
  netmailHead msg domain ++ optionalLine "FTN-Domain: ".toList domain ++
    netmailAddrs msg domain localAddr ++ optionalLine "FTN-MSGID: ".toList msg.msgid ++
    netmailTail msg

def netmailSubject (msg : FidoMsg) : CString :=
  netmailToSf7 (if msg.subject = [] then "(no subject)".toList else msg.subject) msg.chrs

/-- The text file of `send_netmail_with_context`. -/
def netmailTextFile (n now : Int) (msg : FidoMsg) (domain localAddr : CString) : CString :=
  let mbuf := buildNetmailMbuf msg domain localAddr
  field n ++ field 0 ++ field now ++ field 0 ++ field 0 ++ field 0 ++ decimal (countLines mbuf) ++
    ['\n'] ++ (netmailSubject msg ++ ['\n']) ++ mbuf

/-- `send_netmail_with_context`; a mailbox is the conference of its user. -/
def sendNetmail (mbox : FtnConf) (msg : FidoMsg) (domain localAddr : CString) (now : Int) : FtnConf :=
  -- `rewrite_mailbox_last_text`
  let n := mbox.lastText + 1
  { lastText := n
    texts := Function.update mbox.texts n (some (netmailTextFile n now msg domain localAddr)) }

/-! ## The scan -/

/-- The size of the line buffer of `netmail_already_imported`. -/
def scanLineMax : Nat := 1024

/-- `line[strcspn(line, "\r\n")] = '\0'` -/
def cutEol (line : CString) : CString := line.takeWhile fun c => !isEol c

def msgidNeedle (msgid : CString) : CString := strlcpy 512 ("FTN-MSGID: ".toList ++ msgid)

/-- The domain that a line names. -/
def domainValue (line : CString) : Option CString :=
  if "FTN-Domain:".toList.isPrefixOf line then some ((line.drop 11).dropWhile isBlank) else none

/-- `strcasecmp(s, t) == 0` -/
def equalCase (s t : CString) : Bool := s.map Char.toLower = t.map Char.toLower

/-- What `netmail_already_imported` finds in a text. -/
def textHasMsgid (file domain msgid : CString) : Bool :=
  let lines := (fileLines scanLineMax file).map cutEol
  let needle := msgidNeedle msgid
  let domains := (lines.filter (· ≠ needle)).filterMap domainValue
  -- "Old imported netmail has no FTN-Domain line"
  lines.contains needle &&
    (domain = [] || domains = [] || domains.any fun value => equalCase value domain)

def netmailAlreadyImported (mbox : FtnConf) (domain msgid : CString) : Bool :=
  if msgid = [] then false
  else
    (List.range mbox.lastText.toNat).any fun k : Nat =>
      match mbox.texts ((k : Int) + 1) with
      | some file => textHasMsgid file domain msgid
      | none => false

end SklaffKom
