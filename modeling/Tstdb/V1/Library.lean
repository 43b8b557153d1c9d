/-
# `Tstdb.V1.Library` — the first version: `tst.c` as a library over three files

The v1 library keeps keys in a ternary tree like the later one, without parents and
without a free list, and keeps short values in the nodes.  A node's `value` means one
of three things, told apart by `small_value_len` and by special numbers:

* `small_value_len ≠ 0` or `value = 0`: the value itself, at most eight bytes;
* otherwise an offset into the data file, where the record of the value starts;
* except that `value = -1` was put there by `new_node` and nothing was stored yet.

* The data file, opened twice, is one list of bytes: what was written is visible to
  the reader.  The reading side has a position, which stays where the last read or
  seek left it.  The hint file is a list of bytes.
* Positions are `long`, so an offset from `2 ^ 63` on is negative and is refused by
  `fseek`.  What `fread` does not reach is left as it was, which for a variable that
  was never set means that anything may be in it; such answers are `none`.
* Messages on the terminal are left out.
-/
import Mathlib
import Tstdb.Lib.CText
import Tstdb.Lib.Bytes
import Tstdb.Tst.Arena

namespace Tstdb.V1

open CText Bytes

/-! ## Nodes -/

structure TstNode where
  c : UInt8
  smallValueLen : Nat
  left : Nat
  mid : Nat
  right : Nat
  value : Nat
deriving DecidableEq, Repr

/-- `-1` as a `uint64`. -/
def NO_VALUE : Nat := 18446744073709551615

/-- The first offset that is negative as a `long`. -/
def LONG_END : Nat := 9223372036854775808

/-- What `new_node` makes of a node. -/
def TstNode.fresh : TstNode := ⟨0, 0, 0, 0, 0, NO_VALUE⟩

structure TstDb where
  root : Nat
  size : Nat
  cap : Nat
  ready : Bool
  data : Nat → TstNode
  /-- The data file. -/
  file : List UInt8
  /-- Where `read_file_ptr` stands in it. -/
  readPos : Nat
  /-- The hint file. -/
  hint : List UInt8

def TstDb.set (db : TstDb) (i : Nat) (n : TstNode) : TstDb :=
  { db with data := Function.update db.data i n }

def ensureEnoughSpace (db : TstDb) : TstDb :=
  if dec32 db.cap ≤ db.size then { db with cap := u32 (db.cap * 2) } else db

def newNode (db : TstDb) : Nat × TstDb :=
  let db := ensureEnoughSpace db
  let size := u32 (db.size + 1)
  (size, { db.set size TstNode.fresh with size := size })

/-! ## The tree -/

def insert : Nat → TstDb → Nat → List UInt8 → Nat → Nat → Nat → Nat → Option (Nat × TstDb)
  | 0, _, _, _, _, _, _, _ => none
  | fuel + 1, db, node, s, value, d, lenOfS, smallValueLen =>
      let c := s.getD d 0
      let (x, db) :=
        if node = 0 then
          let (x, db) := newNode db
          (x, db.set x { db.data x with c := c })
        else (node, db)
      if char c < char (db.data x).c then
        (insert fuel db (db.data x).left s value d lenOfS smallValueLen).map fun (no, db) =>
          (x, db.set x { db.data x with left := no })
      else if char (db.data x).c < char c then
        (insert fuel db (db.data x).right s value d lenOfS smallValueLen).map fun (no, db) =>
          (x, db.set x { db.data x with right := no })
      else if d + 1 < lenOfS then
        (insert fuel db (db.data x).mid s value (d + 1) lenOfS smallValueLen).map fun (no, db) =>
          (x, db.set x { db.data x with mid := no })
      else some (x, db.set x { db.data x with value := value, smallValueLen := smallValueLen })

def search : Nat → TstDb → Nat → List UInt8 → Nat → Nat → Option Nat
  | 0, _, _, _, _, _ => none
  | fuel + 1, db, node, s, d, lenOfS =>
      if node = 0 then some 0
      else
        let c := s.getD d 0
        if char c < char (db.data node).c then search fuel db (db.data node).left s d lenOfS
        else if char (db.data node).c < char c then search fuel db (db.data node).right s d lenOfS
        else if d + 1 < lenOfS then search fuel db (db.data node).mid s (d + 1) lenOfS
        else some node

def put (fuel : Nat) (db : TstDb) (key : List UInt8) (value smallValueLen : Nat) : Option TstDb :=
  if key.length = 0 then some db
  else (insert fuel db db.root key value 0 key.length smallValueLen).map fun (root, db) => { db with root := root }

def getNode (fuel : Nat) (db : TstDb) (key : List UInt8) : Option Nat :=
  if key.length = 0 then some 0 else search fuel db db.root key 0 key.length

/-! ## Storing a value -/

/-- `fprintf(hint_file_ptr, "%s\t%u\t%llu\n", key, len, cur)`. -/
def hintLine (key : List UInt8) (lenOfValue cur : Nat) : List UInt8 :=
  key ++ 9 :: (decimalNat lenOfValue ++ 9 :: (decimalNat cur ++ [10]))

/-- The two lengths, the key and the value. -/
def record (key value : List UInt8) : List UInt8 :=
  int32LE key.length ++ (int32LE value.length ++ (key ++ value))

def tstPut (fuel : Nat) (db : TstDb) (key value : List UInt8) : Option TstDb :=
  let oldCur := db.file.length
  if key.length = 0 ∨ 255 < key.length then some db
  else if !db.ready then some db
  else
    let db := { db with file := db.file ++ record key value }
    if 8 < value.length then
      (put fuel db key oldCur 0).map fun db => { db with hint := db.hint ++ hintLine key value.length oldCur }
    else
      -- `memcpy` into a `uint64`, lowest byte first
      let tmpValue := natLE value
      (put fuel db key tmpValue value.length).map fun db =>
        { db with hint := db.hint ++ hintLine key value.length tmpValue }

/-! ## Reading a value -/

/-- What a call stores through its two pointers. -/
structure Reply where
  lenOfValue : Nat
  /-- The bytes written to the buffer, from its start. -/
  value : List UInt8
deriving DecidableEq, Repr

/-- The four reads of `tst_get`: the two lengths, a step over the key, the value. -/
def readRecord (file : List UInt8) (pos : Nat) : Option (Reply × Nat) :=
  if file.length < pos + 8 then none
  else
    let lenOfKey := int32Of (slice file pos 4)
    let lenOfValue := int32Of (slice file (pos + 4) 4)
    -- a seek to before the start is refused
    let cur := if (pos : Int) + 8 + lenOfKey < 0 then pos + 8 else ((pos : Int) + 8 + lenOfKey).toNat
    -- a negative length asks `fread` for more bytes than any buffer has
    if lenOfValue < 0 then none
    else
      let value := slice file cur lenOfValue.toNat
      some (⟨lenOfValue.toNat, value⟩, cur + value.length)

/-- The answer, and where the reading position is left; `none` inside when the answer is
not determined. -/
def tstGet (fuel : Nat) (db : TstDb) (key : List UInt8) : Option (Option (Reply × Nat)) :=
  (getNode fuel db key).map fun node =>
    if !db.ready then none
    else if node = 0 then some (⟨0, []⟩, db.readPos)
    else if (db.data node).smallValueLen = 0 ∧ (db.data node).value ≠ 0 then
      let cur := (db.data node).value
      readRecord db.file (if cur < LONG_END then cur else db.readPos)
    else
      let lenOfValue := (db.data node).smallValueLen
      some (⟨lenOfValue, (bytesLE 8 (db.data node).value).take lenOfValue⟩, db.readPos)

/-! ## Opening and closing -/

def MAGIC_NUMBER : Int := 1984

/-- The two files of a database that is not open; `none` for a file that is not there. -/
structure Files where
  data : Option (List UInt8)
  hint : Option (List UInt8)

/-- `create_tst_db` with the files opened; `malloc` leaves anything in the nodes. -/
def createTstDb (mem : Nat → TstNode) (file hint : List UInt8) : TstDb :=
  { root := 0, size := 0, cap := 409600, ready := false, data := mem, file := file, readPos := 4, hint := hint }

/-- One number of a `fscanf`: its value as a `uint64`, and the rest of the stream.  Where
there is none a sign has been read all the same. -/
def scanStream (t : List UInt8) : Option Nat × List UInt8 :=
  match scanNumber t with
  | some (neg, ds, t) => (some (toUInt64 neg ds), t)
  | none =>
      match t.dropWhile isSpace with
      | 45 :: t => (none, t)
      | 43 :: t => (none, t)
      | t => (none, t)

/-- What `fscanf(hint_file_ptr, "%s %u %llu", ..)` returns, with the rest of the stream:
`EOF`, fewer than three conversions, or a tuple. -/
inductive Scanned where
  | eof
  | short (rest : List UInt8)
  | tuple (key : List UInt8) (lenOfValue cur : Nat) (rest : List UInt8)
deriving DecidableEq, Repr

def scanHint (t : List UInt8) : Scanned :=
  match scanToken t with
  | none => .eof
  | some (key, t) =>
      match scanStream t with
      | (none, t) => .short t
      | (some len, t) =>
          match scanStream t with
          | (none, t) => .short t
          | (some cur, t) => .tuple key (u32 len) cur t

/-- The loop of `tst_open` over the hint file. -/
def loadHint : Nat → TstDb → List UInt8 → Option TstDb
  | 0, _, _ => none
  | fuel + 1, db, t =>
      match scanHint t with
      | .eof => some db
      | .short t => loadHint fuel db t
      | .tuple key lenOfValue cur t =>
          -- the length is compared as a `size_t`, so a negative one counts as long
          (put fuel db key cur (if 8 < lenOfValue then 0 else lenOfValue)).bind fun db => loadHint fuel db t

/-- `tst_open`; `none` inside when it gives up. -/
def tstOpen (fuel : Nat) (mem : Nat → TstNode) (files : Files) : Option (Option TstDb) :=
  let file := files.data.getD (int32LE MAGIC_NUMBER)
  let hint := files.hint.getD []
  if slice file 0 4 ≠ int32LE MAGIC_NUMBER then some none
  else (loadHint fuel (createTstDb mem file hint) hint).map fun db => some { db with ready := true }

def tstClose (db : TstDb) : Files := ⟨some db.file, some db.hint⟩

end Tstdb.V1
