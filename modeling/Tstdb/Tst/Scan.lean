/-
# `Tstdb.Tst.Scan` — the enumerations of `tst.c`

`tst_prefix`, `tst_less` and `tst_greater` append the keys they find to a result
text and count them, up to a limit; a key is put together letter by letter in an
array `key_buf` that the recursive calls share.

* The result text is embedded as the list of the keys appended to it; `Scan.text`
  is the text.
* `key_buf` is the list of its `MAX_KEY_SIZE` bytes.  A write behind it, a string in
  it without an end, or a step past the terminator of the bound answers `none`, like
  running out of fuel.

A walk is described by what it appends (`Emits`): the first words of a list, as many
as the limit leaves room for.
-/
import Mathlib
import Tstdb.Lib.Fuel
import Tstdb.Lib.CText
import Tstdb.Lib.TernaryTree
import Tstdb.Lib.TernaryWords
import Tstdb.Tst.Arena
import Tstdb.Tst.Shape

namespace Tstdb

open Fuel CText

inductive SortingOrder where
  | asc
  | desc
deriving DecidableEq, Repr

structure Scan where
  /-- The keys appended to `result`. -/
  result : List (List UInt8)
  resultSize : Int
  keyBuf : List UInt8

/-- The text of a result. -/
def resultText (result : List (List UInt8)) : List UInt8 := result.flatMap fun key => key ++ ascii "\r\n"

/-- `char base_key[MAX_KEY_SIZE] = { 0 };` -/
def zeroKey : List UInt8 := List.replicate MAX_KEY_SIZE 0

/-- `key_buf[d] = c;` -/
def writeKey (keyBuf : List UInt8) (d : Nat) (c : UInt8) : Option (List UInt8) :=
  if d < MAX_KEY_SIZE then some (keyBuf.set d c) else none

def Scan.write (st : Scan) (d : Nat) (c : UInt8) : Option Scan :=
  (writeKey st.keyBuf d c).map fun keyBuf => { st with keyBuf := keyBuf }

/-- `append_result(key_buf, result, result_size)` -/
def appendResult (st : Scan) : Option Scan :=
  if 0 ∈ st.keyBuf then
    some { st with result := st.result ++ [cstr st.keyBuf], resultSize := st.resultSize + 1 }
  else none

/-- `if (value) { key_buf[d + 1] = '\0'; append_result(key_buf, result, result_size); }` -/
def Scan.emit (st : Scan) (d value : Nat) : Option Scan :=
  if value = 0 then some st else (st.write (d + 1) 0).bind appendResult

def dfs : Nat → TstDb → Nat → Nat → Int → SortingOrder → Scan → Option Scan
  | 0, _, _, _, _, _, _ => none
  | fuel + 1, db, node, d, limit, sortingOrder, st =>
      if node = 0 then some st
      else if limit ≤ st.resultSize then some st
      else
        let n := db.data node
        let (first, second) :=
          match sortingOrder with
          | .asc => (n.left, n.right)
          | .desc => (n.right, n.left)
        (dfs fuel db first d limit sortingOrder st).bind fun st =>
        (st.write d n.c).bind fun st =>
        if limit ≤ st.resultSize then some st
        else
          (match sortingOrder with
            | .asc =>
                (st.emit d n.value).bind fun st =>
                (dfs fuel db n.mid (d + 1) limit sortingOrder st).bind fun st => st.write d n.c
            | .desc =>
                (dfs fuel db n.mid (d + 1) limit sortingOrder st).bind fun st =>
                -- the `return` here is the one below
                if limit ≤ st.resultSize then some st else st.emit d n.value).bind fun st =>
          if limit ≤ st.resultSize then some st
          else
            (dfs fuel db second d limit sortingOrder st).bind fun st => st.write d n.c

def dfsLess : Nat → TstDb → Nat → List UInt8 → Nat → Int → Scan → Option Scan
  | 0, _, _, _, _, _, _ => none
  | fuel + 1, db, node, key, d, limit, st =>
      if node = 0 then some st
      else if limit ≤ 0 then some st
      else
        let n := db.data node
        (st.write d n.c).bind fun st =>
        if char (key.headD 0) < char n.c then dfsLess fuel db n.left key d limit st
        else if key.headD 0 = n.c then
          key.tail?.bind fun key =>
          (dfsLess fuel db n.mid key (d + 1) limit st).bind fun st =>
          (if st.resultSize < limit then st.emit d n.value else some st).bind fun st =>
          if st.resultSize < limit then dfs fuel db n.left d limit .desc st else some st
        else
          (dfsLess fuel db n.right key d limit st).bind fun st =>
          (st.write d n.c).bind fun st =>
          (if st.resultSize < limit then dfs fuel db n.mid (d + 1) limit .desc st else some st).bind fun st =>
          (if st.resultSize < limit then st.emit d n.value else some st).bind fun st =>
          if st.resultSize < limit then dfs fuel db n.left d limit .desc st else some st

def dfsGreater : Nat → TstDb → Nat → List UInt8 → Nat → Int → Scan → Option Scan
  | 0, _, _, _, _, _, _ => none
  | fuel + 1, db, node, key, d, limit, st =>
      if node = 0 then some st
      else if limit ≤ 0 then some st
      else
        let n := db.data node
        (st.write d n.c).bind fun st =>
        if char n.c < char (key.headD 0) then dfsGreater fuel db n.right key d limit st
        else if key.headD 0 = n.c then
          key.tail?.bind fun key =>
          -- here `key_buf[d + 1]` is not written before the string is read
          (if st.resultSize < limit ∧ key = [] ∧ n.value ≠ 0 then appendResult st else some st).bind fun st =>
          (if st.resultSize < limit then dfsGreater fuel db n.mid key (d + 1) limit st else some st).bind fun st =>
          if st.resultSize < limit then dfs fuel db n.right d limit .asc st else some st
        else
          (dfsGreater fuel db n.left key d limit st).bind fun st =>
          (st.write d n.c).bind fun st =>
          (if st.resultSize < limit then st.emit d n.value else some st).bind fun st =>
          (if st.resultSize < limit then dfs fuel db n.mid (d + 1) limit .asc st else some st).bind fun st =>
          if st.resultSize < limit then dfs fuel db n.right d limit .asc st else some st

/-- `search_with_path`; the path is written to an array as well. -/
def searchWithPath : Nat → TstDb → List UInt8 → Nat → Nat → List UInt8 → Option (Nat × List UInt8)
  | 0, _, _, _, _, _ => none
  | fuel + 1, db, key, node, d, path =>
      if node = 0 then some (0, path)
      else
        let c := key.getD d 0
        let n := db.data node
        if char c < char n.c then searchWithPath fuel db key n.left d path
        else if char n.c < char c then searchWithPath fuel db key n.right d path
        else if d + 1 < key.length then
          (writeKey path d n.c).bind fun path => searchWithPath fuel db key n.mid (d + 1) path
        else (writeKey path d n.c).map fun path => (node, path)

/-- What a caller finds in `result` and `result_size`. -/
abbrev Listed := List (List UInt8) × Int

def Scan.listed (st : Scan) : Listed := (st.result, st.resultSize)

def tstLess (fuel : Nat) (db : TstDb) (key : List UInt8) (limit : Int) (out : Listed) : Option Listed :=
  if key.length = 0 then some out
  else if db.root = 0 then some out
  else (dfsLess fuel db db.root key 0 limit ⟨[], 0, zeroKey⟩).map Scan.listed

def tstGreater (fuel : Nat) (db : TstDb) (key : List UInt8) (limit : Int) (out : Listed) : Option Listed :=
  if key.length = 0 then some out
  else if db.root = 0 then some out
  else (dfsGreater fuel db db.root key 0 limit ⟨[], 0, zeroKey⟩).map Scan.listed

def tstPrefix (fuel : Nat) (db : TstDb) (pre : List UInt8) (limit : Int) (sortingOrder : SortingOrder)
    (out : Listed) : Option Listed :=
  if pre.length = 0 then some out
  else (searchWithPath fuel db pre db.root 0 zeroKey).bind fun (node, baseKey) =>
    if node = 0 then some out
    else
      let n := db.data node
      let st : Scan := ⟨[], 0, baseKey⟩
      (if sortingOrder = .asc ∧ n.value ≠ 0 ∧ st.resultSize < limit then appendResult st else some st).bind fun st =>
      (if st.resultSize < limit then
          dfs fuel db n.mid (cstr st.keyBuf).length limit sortingOrder st
        else some st).bind fun st =>
      -- `base_key` is the array `dfs` has written to
      (if sortingOrder = .desc ∧ n.value ≠ 0 ∧ st.resultSize < limit then appendResult st else some st).map
        Scan.listed

/-- An empty result, as the commands hand it in. -/
def emptyListed : Listed := ([], 0)

/-! ## What a walk appends -/

/-- The keys `ws` are appended as far as the limit goes, and counted; below `d` the
array is as before, and its last byte stays a terminator. -/
structure Emits (limit : Int) (d : Nat) (ws : List (List UInt8)) (st st' : Scan) : Prop where
  result : st'.result = st.result ++ ws.take (limit - st.resultSize).toNat
  size : st'.resultSize = st.resultSize + (ws.take (limit - st.resultSize).toNat).length
  keep : st'.keyBuf.take d = st.keyBuf.take d
  length : st'.keyBuf.length = st.keyBuf.length
  last : st.keyBuf.getD (MAX_KEY_SIZE - 1) 0 = 0 → st'.keyBuf.getD (MAX_KEY_SIZE - 1) 0 = 0

section Emits

variable {limit : Int} {d : Nat} {ws ws' : List (List UInt8)} {st st₁ st₂ : Scan}

/-- The limit is reached: nothing is appended any more. -/
theorem Emits.full (h : limit ≤ st.resultSize) : Emits limit d ws st st := by
  have h0 : (limit - st.resultSize).toNat = 0 := by omega
  exact ⟨by rw [h0]; simp, by rw [h0]; simp, rfl, rfl, id⟩

theorem Emits.nil (st : Scan) : Emits limit d [] st st := ⟨by simp, by simp, rfl, rfl, id⟩

theorem Emits.trans (h : Emits limit d ws st st₁) (h' : Emits limit d ws' st₁ st₂) :
    Emits limit d (ws ++ ws') st st₂ := by
  have hrest : (limit - st₁.resultSize).toNat = (limit - st.resultSize).toNat - ws.length := by
    rw [h.size, List.length_take]
    omega
  have htake : (ws ++ ws').take (limit - st.resultSize).toNat =
      ws.take (limit - st.resultSize).toNat ++ ws'.take (limit - st₁.resultSize).toNat := by
    rw [List.take_append, hrest]
  refine ⟨?_, ?_, h'.keep.trans h.keep, h'.length.trans h.length, fun hz => h'.last (h.last hz)⟩
  · rw [h'.result, h.result, htake, List.append_assoc]
  · rw [h'.size, htake, List.length_append, h.size, Nat.cast_add, Int.add_assoc]

theorem Emits.weaken {d' : Nat} (h : Emits limit d ws st st₁) (hd : d' ≤ d) : Emits limit d' ws st st₁ := by
  refine ⟨h.result, h.size, ?_, h.length, h.last⟩
  have hk := congrArg (List.take d') h.keep
  rwa [List.take_take, List.take_take, Nat.min_eq_left hd] at hk

theorem Emits.one (h : st.resultSize < limit) (w : List UInt8) :
    Emits limit d [w] st { st with result := st.result ++ [w], resultSize := st.resultSize + 1 } := by
  obtain ⟨n, hn⟩ : ∃ n, (limit - st.resultSize).toNat = n + 1 := ⟨(limit - st.resultSize).toNat - 1, by omega⟩
  exact ⟨by rw [hn, List.take_succ_cons, List.take_nil], by rw [hn]; simp, rfl, rfl, id⟩

/-- A computation ends and appends these keys. -/
def Outputs (f : Nat → Option Scan) (limit : Int) (d : Nat) (ws : List (List UInt8)) (st : Scan) : Prop :=
  ∃ st', Settles f st' ∧ Emits limit d ws st st'

variable {f : Nat → Option Scan} {g : Nat → Scan → Option Scan}

theorem Outputs.done (st : Scan) : Outputs (fun _ => some st) limit d [] st := ⟨st, settles_const st, .nil st⟩

theorem Outputs.bind (h : Outputs f limit d ws st)
    (h' : ∀ st', Emits limit d ws st st' → Outputs (fun n => g n st') limit d ws' st') :
    Outputs (fun n => (f n).bind (g n)) limit d (ws ++ ws') st := by
  obtain ⟨st₁, hf, e⟩ := h
  obtain ⟨st₂, hg, e'⟩ := h' st₁ e
  exact ⟨st₂, hf.bind hg, e.trans e'⟩

/-- The first part may keep more of the array than the whole does. -/
theorem Outputs.bind_deep {d' : Nat} (hd : d ≤ d') (h : Outputs f limit d' ws st)
    (h' : ∀ st', Emits limit d' ws st st' → Outputs (fun n => g n st') limit d ws' st') :
    Outputs (fun n => (f n).bind (g n)) limit d (ws ++ ws') st := by
  obtain ⟨st₁, hf, e⟩ := h
  obtain ⟨st₂, hg, e'⟩ := h' st₁ e
  exact ⟨st₂, hf.bind hg, (e.weaken hd).trans e'⟩

theorem Outputs.of_eq (h : Outputs f limit d ws st) (e : ws = ws') : Outputs f limit d ws' st := e ▸ h

theorem Outputs.after (e : Emits limit d ws st st₁) (h : Outputs f limit d ws' st₁) :
    Outputs f limit d (ws ++ ws') st := by
  obtain ⟨st₂, hs, e'⟩ := h
  exact ⟨st₂, hs, e.trans e'⟩

theorem Outputs.weaken {d' : Nat} (h : Outputs f limit d ws st) (hd : d' ≤ d) : Outputs f limit d' ws st := by
  obtain ⟨st', hf, e⟩ := h
  exact ⟨st', hf, e.weaken hd⟩

theorem Outputs.succ {f' : Nat → Option Scan} (h : Outputs f limit d ws st) (hf : ∀ n, f' (n + 1) = f n) :
    Outputs f' limit d ws st := by
  obtain ⟨st', hs, e⟩ := h
  exact ⟨st', Settles.succ hf hs, e⟩

/-- `if (*result_size >= limit) return;` -/
theorem Outputs.stop (h : st.resultSize < limit → Outputs f limit d ws st) :
    Outputs (fun n => if limit ≤ st.resultSize then some st else f n) limit d ws st := by
  by_cases hl : limit ≤ st.resultSize
  · simp only [if_pos hl]
    exact ⟨st, settles_const st, .full hl⟩
  · simp only [if_neg hl]
    exact h (not_le.mp hl)

/-- `if (*result_size < limit) ..` -/
theorem Outputs.only (h : st.resultSize < limit → Outputs f limit d ws st) :
    Outputs (fun n => if st.resultSize < limit then f n else some st) limit d ws st := by
  by_cases hl : st.resultSize < limit
  · simp only [if_pos hl]
    exact h hl
  · simp only [if_neg hl]
    exact ⟨st, settles_const st, .full (not_lt.mp hl)⟩

/-- Only a terminator is written to the last byte. -/
theorem getD_set_last {keyBuf : List UInt8} {c : UInt8} (hc : c = 0 ∨ d + 1 < MAX_KEY_SIZE)
    (h : keyBuf.getD (MAX_KEY_SIZE - 1) 0 = 0) : (keyBuf.set d c).getD (MAX_KEY_SIZE - 1) 0 = 0 := by
  simp only [List.getD_eq_getElem?_getD, List.getElem?_set] at h ⊢
  split_ifs with hd hlen
  · rcases hc with rfl | hc
    · rfl
    · omega
  · rfl
  · exact h

theorem Outputs.write (hd : d < MAX_KEY_SIZE) {c : UInt8} (hc : c = 0 ∨ d + 1 < MAX_KEY_SIZE)
    (h : Outputs (fun n => g n { st with keyBuf := st.keyBuf.set d c }) limit d ws
      { st with keyBuf := st.keyBuf.set d c }) :
    Outputs (fun n => (st.write d c).bind (g n)) limit d ws st := by
  obtain ⟨st', hs, e⟩ := h
  refine ⟨st', hs.congr fun n => ?_, ⟨e.result, e.size, ?_, ?_, fun hz => e.last (getD_set_last hc hz)⟩⟩
  · rw [Scan.write, writeKey, if_pos hd]
    rfl
  · rw [e.keep, List.take_set_of_le (le_refl d)]
  · rw [e.length, List.length_set]

/-- The string that ends at a byte that was just cleared. -/
theorem cstr_set {keyBuf : List UInt8} {d : Nat} (hd : d < keyBuf.length) (h0 : 0 ∉ keyBuf.take d) :
    cstr (keyBuf.set d 0) = keyBuf.take d ∧ 0 ∈ keyBuf.set d 0 := by
  have hset : keyBuf.set d 0 = keyBuf.take d ++ 0 :: keyBuf.drop (d + 1) := List.set_eq_take_append_cons_drop.trans
    (if_pos hd)
  rw [hset]
  refine ⟨?_, by simp⟩
  unfold cstr
  rw [List.takeWhile_append_of_pos]
  · simp
  · intro b hb
    have hne : b ≠ 0 := fun e => h0 (e ▸ hb)
    simpa using hne

theorem Outputs.emit (hlen : st.keyBuf.length = MAX_KEY_SIZE) (hd : d + 1 < MAX_KEY_SIZE)
    (h0 : 0 ∉ st.keyBuf.take (d + 1)) (hl : st.resultSize < limit) (value : Nat) :
    Outputs (fun _ => st.emit d value) limit (d + 1) (if value = 0 then [] else [st.keyBuf.take (d + 1)]) st := by
  unfold Scan.emit
  by_cases hv : value = 0
  · simp only [if_pos hv]
    exact .done st
  · simp only [if_neg hv]
    refine .write hd (Or.inl rfl) ?_
    obtain ⟨hstr, hmem⟩ := cstr_set (show d + 1 < st.keyBuf.length by omega) h0
    refine ⟨_, ?_, @Emits.one limit (d + 1) { st with keyBuf := st.keyBuf.set (d + 1) 0 } hl _⟩
    simp only [appendResult, if_pos hmem, hstr]
    exact settles_const _

end Emits

end Tstdb
