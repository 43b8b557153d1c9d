/-
# `Tstdb.Server.Commands` — the commands, from a header line to a reply

Every command scans its own line with `sscanf`, works on the store and hands what it
answers to `append_send_data`.  A line is a C string in the header array; `get` and
`gets` walk that array by themselves and may leave the line.

* An array that a command would overrun ends it with a fault (`overrun`): `%s` does
  not look at the size of what it writes to, and neither does the loop of `get`.
* `g_value_buf` is kept by the worker from one `get` to the next, and so are the two
  arrays of `handle_core`.  What `fread` does not fill stays what it was.
* The text a range command builds is taken as the keys in it.
-/
import Mathlib
import Tstdb.Lib.CText
import Tstdb.Lib.Bytes
import Tstdb.Tst.Arena
import Tstdb.Tst.Runs
import Tstdb.Tst.Scan
import Tstdb.Server.Index
import Tstdb.Server.Store
import Tstdb.Server.Sections
import Tstdb.Server.Pool

namespace Tstdb

open CText Bytes

def MAX_BODY_SIZE : Nat := 2000000
def VALUE_BUF_SIZE : Nat := 2000000
def MAX_PREFIX_RESULT : Nat := 10000
def PREFIX_BUF_SIZE : Nat := 2560000

/-! ## The index with its enumerations -/

/-- A call of `tst_prefix`, `tst_less` or `tst_greater`. -/
inductive ListCall where
  | below (pre : List UInt8) (limit : Int) (sortingOrder : SortingOrder)
  | less (key : List UInt8) (limit : Int)
  | greater (key : List UInt8) (limit : Int)
deriving DecidableEq, Repr

structure ScanIndex (ι : Type) extends Index ι where
  list : ι → ListCall → Option Listed

def ScanIndex.arena (n : Nat) : ScanIndex TstDb where
  toIndex := Index.arena n
  list db
    | .below pre limit sortingOrder => tstPrefix n db pre limit sortingOrder emptyListed
    | .less key limit => tstLess n db key limit emptyListed
    | .greater key limit => tstGreater n db key limit emptyListed

/-! ## Scanning -/

def Arg.text? : Arg → Option (List UInt8)
  | .str s => some s
  | _ => none

/-- The arrays that the strings among the values do not fit, with their terminators. -/
def overruns (args : List Arg) (arrays : List (CArray × Nat)) : List CArray :=
  ((args.filterMap Arg.text?).zip arrays).filterMap fun (s, a, size) => if size ≤ s.length then some a else none

/-- What a command makes of the values `sscanf` has read, unless they overran an array. -/
def scanned {α : Type} (line : List UInt8) (fmt : String) (arrays : List (CArray × Nat)) (args : Option α) :
    Except Fault (Option α) :=
  match overruns (sscanf line fmt) arrays with
  | a :: _ => .error (.overrun a)
  | [] => .ok args

def keyArray : CArray × Nat := (.key, MAX_KEY_SIZE)
def methodArray : CArray × Nat := (.method, HEADER_BUF_SIZE)

/-- Key, flags, expiry and length of the body of a `set` line. -/
def setArgs (line : List UInt8) : Option (List UInt8 × Int × Int × Int) :=
  match sscanf line "%s %s %d %d %d" with
  | [.str _, .str key, .int flag, .int expire, .int bodyLen] => some (key, flag, expire, bodyLen)
  | _ => none

/-- The same and the sign of a `cas` line. -/
def casArgs (line : List UInt8) : Option (List UInt8 × Int × Int × Int × Nat) :=
  match sscanf line "%s %s %d %d %d %llu" with
  | [.str _, .str key, .int flag, .int expire, .int bodyLen, .ull sign] => some (key, flag, expire, bodyLen, sign)
  | _ => none

def deleteArgs (line : List UInt8) : Option (List UInt8) :=
  match sscanf line "%s %s" with
  | [.str _, .str key] => some key
  | _ => none

def incrOrDecrArgs (line : List UInt8) : Option (List UInt8 × Int) :=
  match sscanf line "%s %s %d" with
  | [.str _, .str key, .int delta] => some (key, delta)
  | _ => none

def capLimit (limit : Int) : Int := if (MAX_PREFIX_RESULT : Int) < limit then MAX_PREFIX_RESULT else limit

def prefixArgs (line : List UInt8) : Option ListCall :=
  match sscanf line "prefix %s %d %s" with
  | [.str pre, .int limit, .str sortingOrder] =>
      some (.below pre (capLimit limit) (if sortingOrder = ascii "asc" then .asc else .desc))
  | _ => none

def lessArgs (line : List UInt8) : Option ListCall :=
  match sscanf line "less %s %d" with
  | [.str key, .int limit] => some (.less key (capLimit limit))
  | _ => none

def greaterArgs (line : List UInt8) : Option ListCall :=
  match sscanf line "greater %s %d" with
  | [.str key, .int limit] => some (.greater key (capLimit limit))
  | _ => none

/-! ## Replies -/

def Reply.text : Reply → List UInt8
  | .stored => ascii "STORED\r\n"
  | .exists => ascii "EXISTS\r\n"
  | .deleted => ascii "DELETED\r\n"
  | .notFound => ascii "NOT_FOUND\r\n"
  | .number n => decimal n ++ ascii "\r\n"
  | _ => []

/-- `if (!ends_with(header, " noreply")) append_send_data(p, msg, strlen(msg));` -/
def sendUnlessNoreply (line msg : List UInt8) : List (List UInt8) :=
  if endsWith line (ascii " noreply") then [] else [msg]

section Commands

variable {ι : Type} (ix : ScanIndex ι) (now : Int)

/-- Carry out what a section has planned, and answer. -/
def perform (st : Store ι) (plan : Except Fault (Reply × List Act)) : Except Fault (Reply × Store ι) := do
  let (reply, acts) ← plan
  let st ← Act.execAll ix.toIndex st acts
  return (reply, st)

/-- `fwrite(body, sizeof(char), body_len, ..)` reads this far into the array. -/
def bodyOf (body : Buf) (bodyLen : Int) : Except Fault (List UInt8) :=
  if (MAX_BODY_SIZE : Int) < bodyLen then .error (.overrun .sBodyBuf) else .ok (body.read 0 bodyLen.toNat)

def cmdDoSet (line : List UInt8) (body : Buf) (st : Store ι) : Except Fault (List (List UInt8) × Store ι) := do
  match ← scanned line "%s %s %d %d %d" [methodArray, keyArray] (setArgs line) with
  | none => return ([], st)
  | some (key, flag, expire, bodyLen) =>
      if bodyLen < 0 then return ([], st)
      else
        let bytes ← bodyOf body bodyLen
        let (reply, st) ← perform ix st (.ok (.stored, setPlan now st key bodyLen flag expire bytes))
        return (sendUnlessNoreply line reply.text, st)

/-- The body is only read where it is stored. -/
def casActs (st : Store ι) (key : List UInt8) (bodyLen flag expire : Int) (body : Buf) (sign : Nat) :
    Except Fault (Reply × List Act) := do
  let (reply, acts) ← casPlan ix.toIndex st key bodyLen flag expire (body.read 0 bodyLen.toNat) sign
  if reply = .stored ∧ (MAX_BODY_SIZE : Int) < bodyLen then throw (.overrun .sBodyBuf)
  else return (reply, acts)

def cmdDoCas (line : List UInt8) (body : Buf) (st : Store ι) : Except Fault (List (List UInt8) × Store ι) := do
  match ← scanned line "%s %s %d %d %d %llu" [methodArray, keyArray] (casArgs line) with
  | none => return ([], st)
  | some (key, flag, expire, bodyLen, sign) =>
      if bodyLen < 0 then return ([], st)
      else
        let (reply, st) ← perform ix st (casActs ix st key bodyLen flag expire body sign)
        return (sendUnlessNoreply line reply.text, st)

def cmdDoDelete (line : List UInt8) (st : Store ι) : Except Fault (List (List UInt8) × Store ι) := do
  match ← scanned line "%s %s" [methodArray, keyArray] (deleteArgs line) with
  | none => return ([], st)
  | some key =>
      let (reply, st) ← perform ix st (deletePlan ix.toIndex st key)
      return ([reply.text], st)

def incrOrDecr (line : List UInt8) (isDecr : Bool) (st : Store ι) :
    Except Fault (List (List UInt8) × Store ι) := do
  match ← scanned line "%s %s %d" [methodArray, keyArray] (incrOrDecrArgs line) with
  | none => return ([], st)
  | some (key, delta) =>
      let (reply, st) ← perform ix st (incrOrDecrPlan ix.toIndex st key delta isDecr)
      return ([reply.text], st)

def cmdDoIncr (line : List UInt8) (st : Store ι) : Except Fault (List (List UInt8) × Store ι) :=
  incrOrDecr ix line false st

def cmdDoDecr (line : List UInt8) (st : Store ι) : Except Fault (List (List UInt8) × Store ι) :=
  incrOrDecr ix line true st

/-! ### Ranges -/

/-- The three range commands: the keys of the call, or an error where the line does
not make one. -/
def sendKeys (st : Store ι) : Option ListCall → Except Fault (List (List UInt8))
  | none => .ok [ascii "ERROR\r\n"]
  | some call => do
      let (keys, resultSize) ← returns (ix.list st.index call)
      if PREFIX_BUF_SIZE ≤ (resultText keys).length then throw (.overrun .gPrefixBuf)
      else
        let result := cstr (resultText keys)
        return [ascii "KEYS " ++ decimal resultSize ++ ascii " " ++ decimal result.length ++ ascii "\r\n", result,
          ascii "END\r\n"]

def cmdDoPrefix (line : List UInt8) (st : Store ι) : Except Fault (List (List UInt8)) := do
  sendKeys ix st (← scanned line "prefix %s %d %s" [keyArray, (.sortingOrder, 10)] (prefixArgs line))

def cmdDoLess (line : List UInt8) (st : Store ι) : Except Fault (List (List UInt8)) := do
  sendKeys ix st (← scanned line "less %s %d" [keyArray] (lessArgs line))

def cmdDoGreater (line : List UInt8) (st : Store ι) : Except Fault (List (List UInt8)) := do
  sendKeys ix st (← scanned line "greater %s %d" [keyArray] (greaterArgs line))

/-! ### Values -/

/-- `strcspn(ptr, " ")` in the header array. -/
def wordLen (header : Buf) (i : Nat) : Except Fault Nat :=
  match Buf.span (fun b => b = 32 || b = 0) (MAX_BODY_SIZE - i) header i with
  | some n => .ok n
  | none => .error (.overrun .sHeadBuf)

/-- The line before a value. -/
def valueLine (key : List UInt8) (flag bodyLen : Int) (sign : Option Nat) : List UInt8 :=
  ascii "VALUE " ++ key ++ ascii " " ++ decimal flag ++ ascii " " ++ decimal bodyLen ++
    (match sign with
      | none => []
      | some offset => ascii " " ++ decimalNat offset) ++ ascii "\r\n"

/-- Where the loop of `cmd_do_get` has got to. -/
structure Getting (ι : Type) where
  store : Store ι
  valueBuf : Buf
  total : Nat

/-- One value: the record at `valueOffset` is copied, or the key removed because the
record has expired. -/
def getValue (rSign : Bool) (key : List UInt8) (valueOffset : Nat) (g : Getting ι) : Except Fault (Getting ι) := do
  let (bodyLen, flag, expire) ← readTmp g.store.dataFile valueOffset
  if 0 < expire ∧ expire ≤ wrap32 now then
    let st ← Act.execAll ix.toIndex g.store (deleteActs key)
    return { g with store := st }
  else if bodyLen < 0 then return g
  else
    let line := valueLine key flag bodyLen (if rSign then some valueOffset else none)
    if VALUE_BUF_SIZE < g.total + line.length + bodyLen.toNat + 2 then throw (.overrun .gValueBuf)
    else
      let body := slice g.store.dataFile (valueOffset + 12) bodyLen.toNat
      let b := (g.valueBuf.write g.total (line ++ [0])).write (g.total + line.length) body
      let total := g.total + line.length + bodyLen.toNat
      return { g with valueBuf := b.write total (ascii "\r\n"), total := total + 2 }

/-- The words of the line from position `i` of the header array on. -/
def getLoop (rSign : Bool) (header : Buf) : Nat → Nat → Getting ι → Except Fault (Getting ι)
  | 0, _, _ => .error (.overrun .sHeadBuf)
  | fuel + 1, i, g => do
      let span ← wordLen header i
      if MAX_KEY_SIZE ≤ span then throw (.overrun .key)
      else
        let key := header.read i span
        let valueOffset ← returns (ix.get g.store.index key)
        if VALUE_BUF_SIZE ≤ g.total then throw (.overrun .gValueBuf)
        else
          let g := { g with valueBuf := g.valueBuf.write g.total [0] }
          let g ← if 0 < valueOffset then getValue ix now rSign key valueOffset g else pure g
          if header (i + span) = 0 then return g else getLoop rSign header fuel (i + span + 1) g

def cmdDoGet (rSign : Bool) (header : Buf) (st : Store ι) (valueBuf : Buf) :
    Except Fault (List (List UInt8) × Store ι × Buf) := do
  let span ← wordLen header 0
  -- a line without a space ends here, and the walk goes on behind it
  let g ← getLoop ix now rSign header MAX_BODY_SIZE (span + 1) ⟨st, valueBuf, 0⟩
  if VALUE_BUF_SIZE < g.total + 5 then throw (.overrun .gValueBuf)
  else
    let b := g.valueBuf.write g.total (ascii "END\r\n")
    return ([b.read 0 (g.total + 5)], g.store, b)

/-! ### Dispatch -/

/-- What the commands of one worker work on: the store all workers share, and the
worker's `g_value_buf`. -/
structure Shared (ι : Type) where
  store : Store ι
  valueBuf : Buf

/-- The line and the body as strings in their arrays. -/
def terminate (s : Scratch) (headerLen : Nat) (bodyLen : Int) : Except Fault Scratch :=
  if MAX_BODY_SIZE ≤ headerLen then .error (.overrun .sHeadBuf)
  else if bodyLen < 0 ∨ (MAX_BODY_SIZE : Int) ≤ bodyLen then .error (.overrun .sBodyBuf)
  else .ok ⟨s.headBuf.write headerLen [0], s.bodyBuf.write bodyLen.toNat [0]⟩

/-- The string at the start of the header array. -/
def lineOf (s : Scratch) (headerLen : Nat) : List UInt8 := cstr (s.headBuf.read 0 (headerLen + 1))

/-- The commands as `handle_cmd` tells them apart. -/
inductive Method where
  | set | gets | get | below | less | greater | cas | delete | incr | decr | quit | unknown
deriving DecidableEq, Repr

def methodOf (line : List UInt8) : Method :=
  if startsWith line (ascii "set") then .set
  else if startsWith line (ascii "gets") then .gets
  else if startsWith line (ascii "get") then .get
  else if startsWith line (ascii "prefix") then .below
  else if startsWith line (ascii "less") then .less
  else if startsWith line (ascii "greater") then .greater
  else if startsWith line (ascii "cas") then .cas
  else if startsWith line (ascii "delete") then .delete
  else if startsWith line (ascii "incr") then .incr
  else if startsWith line (ascii "decr") then .decr
  else if startsWith line (ascii "quit") then .quit
  else .unknown

/-- The answer of a command that works on the store. -/
def answerStore (sh : Shared ι) (r : Except Fault (List (List UInt8) × Store ι)) :
    Except Fault (Answer × Shared ι) :=
  r.map fun (chunks, st) => (.sent chunks, { sh with store := st })

def answerKeys (sh : Shared ι) (r : Except Fault (List (List UInt8))) : Except Fault (Answer × Shared ι) :=
  r.map fun chunks => (.sent chunks, sh)

def answerValues (r : Except Fault (List (List UInt8) × Store ι × Buf)) : Except Fault (Answer × Shared ι) :=
  r.map fun (chunks, st, b) => (.sent chunks, ⟨st, b⟩)

def runCmd (line : List UInt8) (s : Scratch) (sh : Shared ι) : Except Fault (Answer × Shared ι) :=
  match methodOf line with
  | .set => answerStore sh (cmdDoSet ix now line s.bodyBuf sh.store)
  | .gets => answerValues (cmdDoGet ix now true s.headBuf sh.store sh.valueBuf)
  | .get => answerValues (cmdDoGet ix now false s.headBuf sh.store sh.valueBuf)
  | .below => answerKeys sh (cmdDoPrefix ix line sh.store)
  | .less => answerKeys sh (cmdDoLess ix line sh.store)
  | .greater => answerKeys sh (cmdDoGreater ix line sh.store)
  | .cas => answerStore sh (cmdDoCas ix line s.bodyBuf sh.store)
  | .delete => answerStore sh (cmdDoDelete ix line sh.store)
  | .incr => answerStore sh (cmdDoIncr ix line sh.store)
  | .decr => answerStore sh (cmdDoDecr ix line sh.store)
  | .quit => .ok (.quit, sh)
  | .unknown => .ok (.sent [ascii "ERROR\r\n"], sh)

def handleCmd : Handler (Shared ι) := fun s headerLen bodyLen sh => do
  let s ← terminate s headerLen bodyLen
  let (answer, sh) ← runCmd ix now (lineOf s headerLen) s sh
  return (answer, s, sh)

end Commands

end Tstdb
