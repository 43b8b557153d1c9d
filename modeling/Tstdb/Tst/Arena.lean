/-
# `Tstdb.Tst.Arena` — the index of `tst.c`: nodes in one array, linked by number

The v2 index keeps all its nodes in one block of memory.  A node names its
children and its parent by their position in the block, position `0` stands for
"no node", and freed nodes are threaded through `mid` into a list that starts at
`f_head`.  This file embeds the structure and the functions that build, search,
extend and shrink it; `Tstdb.Tst.Scan` has the enumerations.

* Memory is a total function from positions to nodes.  What `malloc` and
  `realloc` leave in it is arbitrary, and `block` records how many nodes the
  block holds that was last obtained, which `cap` is supposed to say.
* `uint32` arithmetic wraps where the code computes with it (`size`, `cap`); a
  `realloc` that is called succeeds.
* A key is the list of its bytes before the terminator, so `strlen` is `length`
  and `key[d]` is `key.getD d 0`.  Bytes compare as `char`, which is signed.
* Every loop and recursion takes fuel and answers `none` when it runs out.
-/
import Mathlib
import Tstdb.Lib.Fuel

namespace Tstdb

open Fuel

/-- A byte read as a `char`. -/
def char (b : UInt8) : Int := b.toInt8.toInt

theorem char_inj {a b : UInt8} : char a = char b ↔ a = b := by
  constructor
  · intro h
    have h8 : a.toInt8 = b.toInt8 := Int8.toInt_inj.mp h
    have := congrArg Int8.toUInt8 h8
    simpa using this
  · intro h; rw [h]

/-- Keys of at most this many bytes, terminator included, fit the server's buffers. -/
def MAX_KEY_SIZE : Nat := 256

/-- How many values a `uint32` has. -/
def UINT32 : Nat := 4294967296

/-- `uint32` arithmetic. -/
def u32 (n : Nat) : Nat := n % UINT32

/-- `n - 1` in `uint32` arithmetic. -/
def dec32 (n : Nat) : Nat := if n = 0 then UINT32 - 1 else n - 1

theorem u32_of_lt {n : Nat} (h : n < UINT32) : u32 n = n := Nat.mod_eq_of_lt h

structure TstNode where
  c : UInt8
  left : Nat
  mid : Nat
  right : Nat
  parent : Nat
  value : Nat
deriving DecidableEq, Repr

/-- What `memset(.., 0, sizeof(tst_node))` makes of a node. -/
def TstNode.zero : TstNode := ⟨0, 0, 0, 0, 0, 0⟩

structure TstDb where
  root : Nat
  size : Nat
  cap : Nat
  /-- Head of the list of reusable nodes. -/
  fHead : Nat
  data : Nat → TstNode
  /-- Nodes in the block behind `data`. -/
  block : Nat

/-- Write one node. -/
def TstDb.set (db : TstDb) (i : Nat) (n : TstNode) : TstDb :=
  { db with data := Function.update db.data i n }

/-! ## Creating a database -/

/-- `memset(&db->data[0], 0, sizeof(db->data))`: the size is that of the pointer,
so only the first eight bytes of node `0` are cleared, which are `c`, `left` and
the three low bytes of `mid`. -/
def clearHead (n : TstNode) : TstNode :=
  { n with c := 0, left := 0, mid := n.mid / 2 ^ 24 * 2 ^ 24 }

def newTstDb (mem : Nat → TstNode) (cap : Nat) : TstDb :=
  { root := 0, size := 0, fHead := 0, cap := cap, block := cap
    data := Function.update mem 0 (clearHead (mem 0)) }

def createTstDb (mem : Nat → TstNode) : TstDb := newTstDb mem 409600

/-! ## Allocating and freeing nodes -/

def ensureEnoughSpace (db : TstDb) : TstDb :=
  -- the byte count `sizeof * cap * 2` is 64-bit, the new `cap` is not
  if dec32 db.cap ≤ db.size then
    { db with block := db.cap * 2, cap := u32 (db.cap * 2) }
  else db

def freeNode (db : TstDb) (node : Nat) : TstDb :=
  { db.set node { db.data node with mid := db.fHead, value := 0 } with fHead := node }

def newNode (db : TstDb) : Nat × TstDb :=
  if db.fHead = 0 then
    let db := ensureEnoughSpace db
    let size := u32 (db.size + 1)
    (size, { db.set size TstNode.zero with size := size })
  else
    let tmp := db.fHead
    (tmp, { db.set tmp TstNode.zero with fHead := (db.data tmp).mid })

/-! ## Storing a key -/

def insert : Nat → TstDb → Nat → List UInt8 → Nat → Nat → Nat → Nat → Option (Nat × TstDb)
  | 0, _, _, _, _, _, _, _ => none
  | fuel + 1, db, node, s, value, d, lenOfS, parent =>
      let c := s.getD d 0
      let (x, db) :=
        if node = 0 then
          let (x, db) := newNode db
          (x, db.set x { db.data x with c := c })
        else (node, db)
      if char c < char (db.data x).c then
        (insert fuel db (db.data x).left s value d lenOfS x).map fun (no, db) =>
          let db := db.set x { db.data x with left := no }
          (x, db.set x { db.data x with parent := parent })
      else if char (db.data x).c < char c then
        (insert fuel db (db.data x).right s value d lenOfS x).map fun (no, db) =>
          let db := db.set x { db.data x with right := no }
          (x, db.set x { db.data x with parent := parent })
      else if d + 1 < lenOfS then
        (insert fuel db (db.data x).mid s value (d + 1) lenOfS x).map fun (no, db) =>
          let db := db.set x { db.data x with mid := no }
          (x, db.set x { db.data x with parent := parent })
      else
        let db := db.set x { db.data x with value := value }
        some (x, db.set x { db.data x with parent := parent })

def tstPut (fuel : Nat) (db : TstDb) (key : List UInt8) (value : Nat) : Option TstDb :=
  if key.length = 0 then some db
  else (insert fuel db db.root key value 0 key.length 0).map fun (root, db) => { db with root := root }

/-! ## Looking a key up -/

/-- The loop of `search`, which `tst_delete` repeats word for word. -/
def searchLoop : Nat → TstDb → List UInt8 → Nat → Nat → Option Nat
  | 0, _, _, _, _ => none
  | fuel + 1, db, key, node, d =>
      if node = 0 then some 0
      else
        let c := key.getD d 0
        if char c < char (db.data node).c then searchLoop fuel db key (db.data node).left d
        else if char (db.data node).c < char c then searchLoop fuel db key (db.data node).right d
        else if d + 1 < key.length then searchLoop fuel db key (db.data node).mid (d + 1)
        else some node

def search (fuel : Nat) (db : TstDb) (key : List UInt8) : Option Nat :=
  if key.length = 0 then some 0 else searchLoop fuel db key db.root 0

def tstGet (fuel : Nat) (db : TstDb) (key : List UInt8) : Option Nat :=
  if key.length = 0 then some 0
  else (search fuel db key).map fun node => (db.data node).value

/-! ## Deleting a key -/

/-- `while (db->data[max_p].right) max_p = db->data[max_p].right;` -/
def maxLoop : Nat → TstDb → Nat → Option Nat
  | 0, _, _ => none
  | fuel + 1, db, maxP =>
      if (db.data maxP).right = 0 then some maxP else maxLoop fuel db (db.data maxP).right

def removeNode (fuel : Nat) (db : TstDb) (node : Nat) : Option (Nat × TstDb) :=
  let left := (db.data node).left
  let right := (db.data node).right
  let db := freeNode db node
  if left = 0 ∧ right = 0 then some (0, db)
  else if 0 < left ∧ right = 0 then some (left, db)
  else if 0 < right ∧ left = 0 then some (right, db)
  else
    -- `right` moves under `max_p`; its `parent` field is not touched
    (maxLoop fuel db left).map fun maxP => (left, db.set maxP { db.data maxP with right := right })

/-- `if (new_p) db->data[new_p].parent = myparent;` -/
def adopt (db : TstDb) (newP myparent : Nat) : TstDb :=
  if newP = 0 then db else db.set newP { db.data newP with parent := myparent }

/-- The second loop of `tst_delete`, from the found node up. -/
def climb : Nat → TstDb → Nat → Option TstDb
  | 0, _, _ => none
  | fuel + 1, db, node =>
      if node = 0 then some db
      else
        let myparent := (db.data node).parent
        if (db.data node).mid = 0 ∧ (db.data node).value = 0 then
          if 0 < myparent then
            if node = (db.data myparent).left then
              (removeNode fuel db node).bind fun (newP, db) =>
                let db := db.set myparent { db.data myparent with left := newP }
                climb fuel (adopt db newP myparent) myparent
            else if node = (db.data myparent).right then
              (removeNode fuel db node).bind fun (newP, db) =>
                let db := db.set myparent { db.data myparent with right := newP }
                climb fuel (adopt db newP myparent) myparent
            else
              (removeNode fuel db node).bind fun (newP, db) =>
                let db := db.set myparent { db.data myparent with mid := newP }
                climb fuel (adopt db newP myparent) myparent
          else
            (removeNode fuel db node).bind fun (newP, db) =>
              let db := { db with root := newP }
              -- unguarded at the root: an empty tree writes node `0`
              climb fuel (db.set newP { db.data newP with parent := myparent }) myparent
        else climb fuel db myparent

def tstDelete (fuel : Nat) (db : TstDb) (key : List UInt8) : Option TstDb :=
  if key.length = 0 then some db
  else (searchLoop fuel db key db.root 0).bind fun node =>
    let db := if node = 0 then db else db.set node { db.data node with value := 0 }
    climb fuel db node

/-! ## Fields of a written arena -/

@[simp] theorem TstDb.set_root (db : TstDb) (i : Nat) (n : TstNode) : (db.set i n).root = db.root := rfl
@[simp] theorem TstDb.set_size (db : TstDb) (i : Nat) (n : TstNode) : (db.set i n).size = db.size := rfl
@[simp] theorem TstDb.set_cap (db : TstDb) (i : Nat) (n : TstNode) : (db.set i n).cap = db.cap := rfl
@[simp] theorem TstDb.set_fHead (db : TstDb) (i : Nat) (n : TstNode) :
    (db.set i n).fHead = db.fHead := rfl
@[simp] theorem TstDb.set_data_same (db : TstDb) (i : Nat) (n : TstNode) :
    (db.set i n).data i = n := by simp [TstDb.set]
theorem TstDb.set_data_other (db : TstDb) {i j : Nat} (n : TstNode) (h : j ≠ i) :
    (db.set i n).data j = db.data j := by simp [TstDb.set, h]

@[simp] theorem ensureEnoughSpace_size (db : TstDb) : (ensureEnoughSpace db).size = db.size := by
  unfold ensureEnoughSpace; split <;> rfl
@[simp] theorem ensureEnoughSpace_data (db : TstDb) : (ensureEnoughSpace db).data = db.data := by
  unfold ensureEnoughSpace; split <;> rfl
@[simp] theorem ensureEnoughSpace_root (db : TstDb) : (ensureEnoughSpace db).root = db.root := by
  unfold ensureEnoughSpace; split <;> rfl
@[simp] theorem ensureEnoughSpace_fHead (db : TstDb) : (ensureEnoughSpace db).fHead = db.fHead := by
  unfold ensureEnoughSpace; split <;> rfl

/-! ## More fuel, same answer -/

theorem insert_mono : ∀ (n : Nat) (db : TstDb) (node : Nat) (s : List UInt8) (v d len p : Nat)
    (r : Nat × TstDb), insert n db node s v d len p = some r → insert (n + 1) db node s v d len p = some r := by
  intro n
  induction n with
  | zero => intro db node s v d len p r h; simp [insert] at h
  | succ n ih =>
      intro db node s v d len p r h
      rw [insert] at h ⊢
      dsimp only at h ⊢
      split_ifs at h ⊢ with h1 h2 h3
      all_goals first
        | exact h
        | (obtain ⟨q, hq, rfl⟩ := Option.map_eq_some_iff.mp h
           rw [ih _ _ _ _ _ _ _ _ hq]
           rfl)

theorem tstPut_mono (db : TstDb) (key : List UInt8) (v : Nat) : Mono fun n => tstPut n db key v := by
  intro n b h
  simp only [tstPut] at h ⊢
  split_ifs at h ⊢
  · exact h
  · obtain ⟨q, hq, rfl⟩ := Option.map_eq_some_iff.mp h
    rw [insert_mono _ _ _ _ _ _ _ _ _ hq]
    rfl

theorem searchLoop_mono : ∀ (n : Nat) (db : TstDb) (key : List UInt8) (node d r : Nat),
    searchLoop n db key node d = some r → searchLoop (n + 1) db key node d = some r := by
  intro n
  induction n with
  | zero => intro db key node d r h; simp [searchLoop] at h
  | succ n ih =>
      intro db key node d r h
      rw [searchLoop] at h ⊢
      dsimp only at h ⊢
      split_ifs at h ⊢
      all_goals first
        | exact h
        | exact ih _ _ _ _ _ h

theorem tstGet_mono (db : TstDb) (key : List UInt8) : Mono fun n => tstGet n db key := by
  intro n b h
  simp only [tstGet, search] at h ⊢
  split_ifs at h ⊢
  · exact h
  · obtain ⟨q, hq, rfl⟩ := Option.map_eq_some_iff.mp h
    rw [searchLoop_mono _ _ _ _ _ _ hq]
    rfl

theorem maxLoop_mono : ∀ (n : Nat) (db : TstDb) (p r : Nat),
    maxLoop n db p = some r → maxLoop (n + 1) db p = some r := by
  intro n
  induction n with
  | zero => intro db p r h; simp [maxLoop] at h
  | succ n ih =>
      intro db p r h
      rw [maxLoop] at h ⊢
      split_ifs at h ⊢
      · exact h
      · exact ih _ _ _ h

theorem removeNode_mono (n : Nat) (db : TstDb) (node : Nat) (r : Nat × TstDb)
    (h : removeNode n db node = some r) : removeNode (n + 1) db node = some r := by
  simp only [removeNode] at h ⊢
  split_ifs at h ⊢
  · exact h
  · exact h
  · exact h
  · obtain ⟨q, hq, rfl⟩ := Option.map_eq_some_iff.mp h
    rw [maxLoop_mono _ _ _ _ hq]
    rfl

theorem climb_mono : ∀ (n : Nat) (db : TstDb) (node : Nat) (r : TstDb),
    climb n db node = some r → climb (n + 1) db node = some r := by
  intro n
  induction n with
  | zero => intro db node r h; simp [climb] at h
  | succ n ih =>
      intro db node r h
      rw [climb] at h ⊢
      dsimp only at h ⊢
      split_ifs at h ⊢
      all_goals first
        | exact h
        | exact ih _ _ _ h
        | (obtain ⟨q, hq, hr⟩ := Option.bind_eq_some_iff.mp h
           rw [removeNode_mono _ _ _ _ hq]
           exact ih _ _ _ hr)

theorem tstDelete_mono (db : TstDb) (key : List UInt8) : Mono fun n => tstDelete n db key := by
  intro n b h
  simp only [tstDelete] at h ⊢
  split_ifs at h ⊢
  · exact h
  · obtain ⟨q, hq, hr⟩ := Option.bind_eq_some_iff.mp h
    rw [searchLoop_mono _ _ _ _ _ _ hq]
    exact climb_mono _ _ _ _ hr

end Tstdb
