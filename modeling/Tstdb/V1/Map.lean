/-
# `Tstdb.V1.Map` — what `tst_get` answers after any run of `tst_put`

A stored key reads back its last value, from the node or from the file, and a key
whose path is not in the tree reads as empty.  In between are the keys nobody put that
are proper prefixes of stored ones: their nodes hold `-1`, which `tst_get` takes for an
offset.  The seek to it is refused, so the answer is whatever record the reading
position happens to be at.
-/
import Mathlib
import Tstdb.Lib.Fuel
import Tstdb.Lib.Runs
import Tstdb.Lib.CText
import Tstdb.Lib.Bytes
import Tstdb.Lib.TernaryTree
import Tstdb.Tst.Arena
import Tstdb.Tst.Shape
import Tstdb.Tst.Put
import Tstdb.Tst.Runs
import Tstdb.Tst.NullNode
import Tstdb.V1.Library
import Tstdb.V1.Tree

namespace Tstdb.V1

open Fuel TTree Runs CText Bytes

/-! ## Records -/

/-- The record of the key with the value starts at this offset. -/
def RecordAt (file : List UInt8) (off : Nat) (key value : List UInt8) : Prop :=
  ∃ pre post, file = pre ++ (record key value ++ post) ∧ off = pre.length

theorem RecordAt.append {file key value : List UInt8} {off : Nat} (h : RecordAt file off key value)
    (more : List UInt8) : RecordAt (file ++ more) off key value := by
  obtain ⟨pre, post, rfl, rfl⟩ := h
  exact ⟨pre, post ++ more, by simp only [List.append_assoc], rfl⟩

/-- The lengths that can be read back: those of an `int`. -/
def INT_END : Nat := 2147483648

/-- With both lengths in the file, only the length of the value decides. -/
theorem readRecord_eq {file : List UInt8} {pos : Nat} (h : pos + 8 ≤ file.length) : ∃ cur,
    (0 ≤ (pos : Int) + 8 + int32Of (slice file pos 4) →
      cur = ((pos : Int) + 8 + int32Of (slice file pos 4)).toNat) ∧
    readRecord file pos = if int32Of (slice file (pos + 4) 4) < 0 then none
      else some (⟨(int32Of (slice file (pos + 4) 4)).toNat, slice file cur (int32Of (slice file (pos + 4) 4)).toNat⟩,
        cur + (slice file cur (int32Of (slice file (pos + 4) 4)).toNat).length) := by
  refine ⟨_, ?_, if_neg (Nat.not_lt.mpr h)⟩
  exact fun h0 => if_neg (Int.not_lt.mpr h0)

/-- Reading where a record starts. -/
theorem readRecord_at {file key value : List UInt8} {off : Nat} (h : RecordAt file off key value)
    (hk : key.length ≤ 255) (hv : value.length < UINT32) : readRecord file off =
      if value.length < INT_END then some (⟨value.length, value⟩, off + 8 + key.length + value.length) else none := by
  obtain ⟨pre, post, hfile, rfl⟩ := h
  have hkey : file = pre ++ (int32LE key.length ++ (int32LE value.length ++ (key ++ (value ++ post)))) := by
    rw [hfile]
    simp only [record, List.append_assoc]
  have hval : file = (pre ++ int32LE key.length) ++ (int32LE value.length ++ (key ++ (value ++ post))) := by
    rw [hkey, List.append_assoc]
  have hbody : file = (pre ++ (int32LE key.length ++ (int32LE value.length ++ key))) ++ (value ++ post) := by
    rw [hkey]
    simp only [List.append_assoc]
  have h1 : int32Of (slice file pre.length 4) = key.length := by
    rw [hkey, slice_length_append _ _ _ rfl (length_int32LE _).symm, int32Of_int32LE,
      wrap32_of_range (by omega) (by omega)]
  have h2 : int32Of (slice file (pre.length + 4) 4) = wrap32 value.length := by
    rw [hval, slice_length_append _ _ _ (by simp) (length_int32LE _).symm, int32Of_int32LE]
  have h3 : slice file (pre.length + 8 + key.length) value.length = value := by
    rw [hbody]
    exact slice_length_append _ _ _ (by simp; omega) rfl
  have hlen : pre.length + 8 ≤ file.length := by
    rw [hkey]
    simp only [List.length_append, length_int32LE]
    omega
  obtain ⟨cur, hcur, hread⟩ := readRecord_eq hlen
  rw [h1] at hcur
  obtain rfl : cur = pre.length + 8 + key.length := by
    rw [hcur (by omega)]
    omega
  rw [hread, h2]
  rcases Nat.lt_or_ge value.length INT_END with hshort | hlong
  · have hw : wrap32 (value.length : Int) = value.length :=
      wrap32_of_range (by omega) (by unfold INT_END at hshort; omega)
    have hnat : ((value.length : Int)).toNat = value.length := by omega
    rw [hw, if_neg (by omega), if_pos hshort, hnat, h3]
  · have hw : wrap32 (value.length : Int) < 0 := by
      unfold wrap32
      unfold INT_END at hlong
      unfold UINT32 at hv
      omega
    rw [if_pos hw, if_neg (Nat.not_lt.mpr hlong)]

/-- At the position the length of the value of a record, were there one, is `0`. -/
def EmptyRecord (file : List UInt8) (pos : Nat) : Prop :=
  pos + 8 ≤ file.length ∧ int32Of (slice file (pos + 4) 4) = 0

/-- Only such a record reads as empty. -/
theorem readRecord_empty_iff (file : List UInt8) (pos : Nat) :
    (∃ pos', readRecord file pos = some (⟨0, []⟩, pos')) ↔ EmptyRecord file pos := by
  rcases Nat.lt_or_ge file.length (pos + 8) with hlen | hlen
  · have hnone : readRecord file pos = none := if_pos hlen
    rw [hnone]
    exact ⟨fun ⟨_, h⟩ => absurd h (Option.some_ne_none _).symm, fun h => absurd h.1 (Nat.not_le.mpr hlen)⟩
  · obtain ⟨cur, -, hread⟩ := readRecord_eq hlen
    rw [hread]
    constructor
    · rintro ⟨pos', h⟩
      rcases Int.lt_or_le (int32Of (slice file (pos + 4) 4)) 0 with hneg | hpos
      · rw [if_pos hneg] at h
        exact absurd h (Option.some_ne_none _).symm
      · rw [if_neg (Int.not_lt.mpr hpos)] at h
        rw [Option.some.injEq, Prod.mk.injEq, Reply.mk.injEq] at h
        exact ⟨hlen, le_antisymm (Int.toNat_eq_zero.mp h.1.1) hpos⟩
    · rintro ⟨-, h0⟩
      rw [h0, if_neg (lt_irrefl 0)]
      exact ⟨_, rfl⟩

/-! ## Runs of `tst_put` -/

/-- A call of `tst_put` with a key it accepts. -/
structure PutArgs where
  key : List UInt8
  value : List UInt8
  ne : key ≠ []
  le : key.length ≤ 255
  nul : 0 ∉ key
  /-- The length is a `uint32`. -/
  len : value.length < UINT32

theorem letter_x_short : [(120 : UInt8)].length < UINT32 := by decide

def PutArgs.Step (db : TstDb) (p : PutArgs) (db' : TstDb) : Prop :=
  Settles (fun n => tstPut n db p.key p.value) db'

/-- The nodes of the key still have a place, and the offset of the record is a `long`. -/
def PutArgs.Room (db : TstDb) (p : PutArgs) : Prop :=
  db.size + p.key.length < ARENA_LIMIT ∧ db.file.length < LONG_END

/-- The value last put under each key. -/
def lastPut (puts : List PutArgs) : List UInt8 → Option (List UInt8) :=
  puts.foldl (fun m p => Function.update m p.key (some p.value)) fun _ => none

theorem lastPut_concat (puts : List PutArgs) (p : PutArgs) :
    lastPut (puts ++ [p]) = Function.update (lastPut puts) p.key (some p.value) := by
  simp only [lastPut, List.foldl_append, List.foldl_cons, List.foldl_nil]

/-- A key has no last value when no call put it. -/
theorem lastPut_eq_none_iff (puts : List PutArgs) (key : List UInt8) :
    lastPut puts key = none ↔ ∀ p ∈ puts, p.key ≠ key := by
  induction puts using List.reverseRecOn with
  | nil => exact ⟨fun _ p hp => absurd hp List.not_mem_nil, fun _ => rfl⟩
  | append_singleton puts p ih =>
      rw [lastPut_concat]
      simp only [List.mem_append, List.mem_singleton]
      rcases Classical.em (key = p.key) with rfl | hne
      · rw [Function.update_self]
        exact ⟨fun h => absurd h (Option.some_ne_none _), fun h => absurd rfl (h p (Or.inr rfl))⟩
      · rw [Function.update_of_ne hne, ih]
        exact ⟨fun h q hq => hq.elim (h q) fun e => e ▸ Ne.symm hne, fun h q hq => h q (Or.inl hq)⟩

/-! ## The invariant -/

/-- What the tree has for a key: nothing, or where the value is. -/
def Held (file key : List UInt8) : Option (List UInt8) → Nat → Prop
  | none, n => n = 0
  | some v, n => (v.length ≤ 8 ∧ n = holding v.length (natLE v)) ∨
      (8 < v.length ∧ ∃ off, n = holding 0 off ∧ off ≠ 0 ∧ off < LONG_END ∧ RecordAt file off key v)

theorem Held.append {file key : List UInt8} {v : Option (List UInt8)} {n : Nat} (h : Held file key v n)
    (more : List UInt8) : Held (file ++ more) key v n := by
  cases v with
  | none => exact h
  | some v =>
      rcases h with h | ⟨hv, off, hn, h0, hlt, hrec⟩
      · exact Or.inl h
      · exact Or.inr ⟨hv, off, hn, h0, hlt, hrec.append more⟩

/-- The tree of the database is that of the puts, and the records are in the file. -/
structure Keeps (db : TstDb) (puts : List PutArgs) (tst : Tstdb.TstDb) (t : Tree) : Prop where
  mirrors : Mirrors db tst
  planted : Planted tst t
  ready : db.ready = true
  magic : int32LE MAGIC_NUMBER <+: db.file
  path : ∀ key, key ≠ [] → (t.find? (letters key) = none ↔ ∀ p ∈ puts, ¬key <+: p.key)
  held : ∀ key, key ≠ [] → Held db.file key (lastPut puts key) (t.lookup (letters key))
  pos : ∀ key v, lastPut puts key = some v → key.length ≤ 255 ∧ v.length < UINT32

theorem letters_prefix_iff {key key' : List UInt8} : letters key <+: letters key' ↔ key <+: key' :=
  List.prefix_map_iff_of_injective fun _ _ => char_inj.mp

/-- The effect of a put on the tree. -/
theorem path_put {t : Tree} {puts : List PutArgs} (h : ∀ key, key ≠ [] → (t.find? (letters key) = none ↔
    ∀ p ∈ puts, ¬key <+: p.key)) (p : PutArgs) (v : Nat) {is : List Nat} (hl : p.key.length ≤ is.length) :
    ∀ key, key ≠ [] → ((t.put (letters p.key) v is).find? (letters key) = none ↔
      ∀ q ∈ puts ++ [p], ¬key <+: q.key) := by
  intro key hk
  have hall : (∀ q ∈ puts ++ [p], ¬key <+: q.key) ↔ (∀ q ∈ puts, ¬key <+: q.key) ∧ ¬key <+: p.key := by
    simp only [List.mem_append, List.mem_singleton]
    exact ⟨fun hq => ⟨fun q hm => hq q (Or.inl hm), hq p (Or.inr rfl)⟩,
      fun hq q hm => hm.elim (hq.1 q) fun e => e ▸ hq.2⟩
  rw [hall]
  rcases Classical.em (key <+: p.key) with hp | hp
  · have hfind := find?_put_initial v is t (letters p.key) (letters key) (fun e => hk (letters_eq_nil.mp e))
      (letters_prefix_iff.mpr hp) (by simpa using hl)
    exact ⟨fun hn => absurd hn hfind, fun hq => absurd hp hq.2⟩
  · rw [find?_put_other v is t _ _ fun hpre => hp (letters_prefix_iff.mp hpre), h key hk]
    exact ⟨fun hq => ⟨hq, hp⟩, fun hq => hq.1⟩

theorem Keeps.file_pos {db : TstDb} {puts : List PutArgs} {tst : Tstdb.TstDb} {t : Tree}
    (h : Keeps db puts tst t) : 0 < db.file.length :=
  lt_of_lt_of_le (by rw [length_int32LE]; norm_num) h.magic.length_le

/-- What the node of the key gets: a short value itself, or the offset of the record. -/
def PutArgs.cur (p : PutArgs) (off : Nat) : Nat := if 8 < p.value.length then off else natLE p.value

/-- The length kept in the node, which is that of a short value. -/
def PutArgs.small (p : PutArgs) : Nat := if 8 < p.value.length then 0 else p.value.length

/-- `tst_put` of an accepted key on an open database. -/
theorem tstPut_eq {db : TstDb} (p : PutArgs) (hready : db.ready = true) (n : Nat) :
    tstPut n db p.key p.value =
      (V1.put n { db with file := db.file ++ record p.key p.value } p.key (p.cur db.file.length) p.small).map fun db₁ =>
        { db₁ with hint := db₁.hint ++ hintLine p.key p.value.length (p.cur db.file.length) } := by
  have hguard : ¬(p.key.length = 0 ∨ 255 < p.key.length) := by
    rintro (h0 | h0)
    · exact p.ne (List.length_eq_zero_iff.mp h0)
    · exact absurd p.le (Nat.not_le.mpr h0)
  have hopen : ¬(!db.ready) = true := by rw [hready]; decide
  rw [tstPut, if_neg hguard, if_neg hopen]
  unfold PutArgs.cur PutArgs.small
  rcases Classical.em (8 < p.value.length) with hlong | hshort
  · simp only [if_pos hlong]
  · simp only [if_neg hshort]

/-- `tst_put` with room stores the last value; the tree grows by the path of the key,
and a record and a line are appended. -/
theorem Keeps.put {db : TstDb} {puts : List PutArgs} {tst : Tstdb.TstDb} {t : Tree} (h : Keeps db puts tst t)
    {p : PutArgs} (hroom : p.Room db) : ∃ db' tst', p.Step db db' ∧
      Keeps db' (puts ++ [p]) tst' (t.put (letters p.key) (holding p.small (p.cur db.file.length))
        (supply [] db.size p.key.length)) ∧
      db'.size = db.size + t.missing (letters p.key) ∧ db'.file = db.file ++ record p.key p.value ∧
      db'.hint = db.hint ++ hintLine p.key p.value.length (p.cur db.file.length) ∧ db'.readPos = db.readPos := by
  have hm : Mirrors { db with file := db.file ++ record p.key p.value } tst := h.mirrors.congr rfl rfl rfl rfl
  obtain ⟨db₁, tst₁, hset, hm₁, hp₁, hf₁, hsize⟩ :=
    put_stores hm h.planted p.ne (p.cur db.file.length) p.small hroom.1
  have hheld : Held (db.file ++ record p.key p.value) p.key (some p.value) (holding p.small (p.cur db.file.length)) := by
    unfold PutArgs.cur PutArgs.small
    rcases Nat.lt_or_ge 8 p.value.length with hlong | hshort
    · rw [if_pos hlong, if_pos hlong]
      exact Or.inr ⟨hlong, db.file.length, rfl, Nat.ne_of_gt h.file_pos, hroom.2, db.file, [],
        by rw [List.append_nil], rfl⟩
    · rw [if_neg (Nat.not_lt.mpr hshort), if_neg (Nat.not_lt.mpr hshort)]
      exact Or.inl ⟨hshort, rfl⟩
  refine ⟨_, tst₁, (hset.map _).congr fun n => tstPut_eq p h.ready n,
    ⟨hm₁.congr rfl rfl rfl rfl, hp₁, hf₁.ready.trans h.ready, ?_, ?_, ?_, ?_⟩, hsize, hf₁.file, ?_, hf₁.readPos⟩
  · show _ <+: db₁.file
    rw [hf₁.file]
    exact h.magic.trans (List.prefix_append _ _)
  · exact path_put h.path p _ (by simp)
  · intro key hk
    show Held db₁.file key _ _
    rw [hf₁.file, lastPut_concat]
    rcases Classical.em (key = p.key) with rfl | hne
    · rw [Function.update_self, lookup_put_same _ _ _ _ (fun e => hk (letters_eq_nil.mp e)) (by simp)]
      exact hheld
    · rw [Function.update_of_ne hne, lookup_put_other _ _ _ _ _ fun e => hne (letters_inj.mp e)]
      exact (h.held key hk).append _
  · intro key v hv
    rw [lastPut_concat] at hv
    rcases Classical.em (key = p.key) with rfl | hne
    · rw [Function.update_self] at hv
      exact ⟨p.le, Option.some.inj hv ▸ p.len⟩
    · rw [Function.update_of_ne hne] at hv
      exact h.pos key v hv
  · show db₁.hint ++ _ = _
    rw [hf₁.hint]

theorem PutArgs.Step.unique {db db₁ db₂ : TstDb} {p : PutArgs} (h₁ : p.Step db db₁) (h₂ : p.Step db db₂) :
    db₁ = db₂ := Settles.unique h₁ h₂

/-- After any run with room. -/
theorem Keeps.run {puts : List PutArgs} {db db' : TstDb}
    (h : Run (Guarded PutArgs.Step fun db p => p.Room db) db puts db') : ∀ {pre : List PutArgs}
    {tst : Tstdb.TstDb} {t : Tree}, Keeps db pre tst t → ∃ tst' t', Keeps db' (pre ++ puts) tst' t' := by
  induction h with
  | nil s =>
      intro pre tst t hk
      exact ⟨tst, t, by rwa [List.append_nil]⟩
  | cons hs _ ih =>
      intro pre tst t hk
      obtain ⟨db₁, tst₁, hstep, hk₁, -⟩ := hk.put hs.1
      obtain rfl := hstep.unique hs.2
      obtain ⟨tst', t', hk'⟩ := ih hk₁
      exact ⟨tst', t', by rwa [List.append_assoc, List.singleton_append] at hk'⟩

/-- `tst_open` where there are no files yet. -/
theorem tstOpen_new (mem : Nat → TstNode) : ∃ db, Settles (fun n => tstOpen n mem ⟨none, none⟩) (some db) := by
  refine ⟨{ createTstDb mem (int32LE MAGIC_NUMBER) [] with ready := true }, ?_⟩
  refine Settles.succ (f := fun _ => some _) (fun n => ?_) (settles_const _)
  rfl

theorem Keeps.create {mem : Nat → TstNode} {db : TstDb}
    (h : Settles (fun n => tstOpen n mem ⟨none, none⟩) (some db)) : db.readPos = 4 ∧
      db.file = int32LE MAGIC_NUMBER ∧ db.hint = [] ∧ db.size = 0 ∧ ∃ tst, Keeps db [] tst .nil := by
  have hopen : Settles (fun n => tstOpen n mem ⟨none, none⟩)
      (some { createTstDb mem (int32LE MAGIC_NUMBER) [] with ready := true }) := by
    refine Settles.succ (f := fun _ => some _) (fun n => ?_) (settles_const _)
    rfl
  obtain rfl := Option.some.inj (hopen.unique h)
  obtain ⟨tst, hm, hp⟩ := Mirrors.create mem (int32LE MAGIC_NUMBER) []
  refine ⟨rfl, rfl, rfl, rfl, tst, hm.congr rfl rfl rfl rfl, hp, rfl, List.prefix_refl _, fun key _ => ?_,
    fun key _ => ?_, ?_⟩
  · exact ⟨fun _ p hp => absurd hp List.not_mem_nil, fun _ => by cases letters key <;> rfl⟩
  · exact lookup_nil _
  · exact fun key v hv => absurd hv (Option.some_ne_none _).symm

/-! ## What `tst_get` answers -/

/-- The call stores exactly these bytes and their number. -/
def Yields (db : TstDb) (key value : List UInt8) : Prop :=
  ∃ pos', Settles (fun n => tstGet n db key) (some (⟨value.length, value⟩, pos'))

/-- The database with the reading position where earlier reads have left it. -/
def TstDb.at (db : TstDb) (pos : Nat) : TstDb := { db with readPos := pos }

section Node

variable {db : TstDb} {key : List UInt8} {node : Nat} (h : Settles (fun n => getNode n db key) node)
  (hready : db.ready = true)

include h hready

theorem tstGet_absent (h0 : node = 0) : Settles (fun n => tstGet n db key) (some (⟨0, []⟩, db.readPos)) := by
  obtain ⟨N, hN⟩ := h
  refine ⟨N, fun n hn => ?_⟩
  have hnode : getNode n db key = some node := hN n hn
  simp only [tstGet, hnode, Option.map_some, hready, Bool.not_true, Bool.false_eq_true, if_false, if_pos h0]

theorem tstGet_file (h0 : node ≠ 0) (hs : (db.data node).smallValueLen = 0) (hv : (db.data node).value ≠ 0) :
    Settles (fun n => tstGet n db key)
      (readRecord db.file (if (db.data node).value < LONG_END then (db.data node).value else db.readPos)) := by
  obtain ⟨N, hN⟩ := h
  have hfile : (db.data node).smallValueLen = 0 ∧ (db.data node).value ≠ 0 := ⟨hs, hv⟩
  refine ⟨N, fun n hn => ?_⟩
  have hnode : getNode n db key = some node := hN n hn
  simp only [tstGet, hnode, Option.map_some, hready, Bool.not_true, Bool.false_eq_true, if_false, if_neg h0, if_pos hfile]

theorem tstGet_inline (h0 : node ≠ 0) (hs : ¬((db.data node).smallValueLen = 0 ∧ (db.data node).value ≠ 0)) :
    Settles (fun n => tstGet n db key) (some (⟨(db.data node).smallValueLen,
      (bytesLE 8 (db.data node).value).take (db.data node).smallValueLen⟩, db.readPos)) := by
  obtain ⟨N, hN⟩ := h
  refine ⟨N, fun n hn => ?_⟩
  have hnode : getNode n db key = some node := hN n hn
  simp only [tstGet, hnode, Option.map_some, hready, Bool.not_true, Bool.false_eq_true, if_false, if_neg h0, if_neg hs]

end Node

section Get

variable {db : TstDb} {puts : List PutArgs} {tst : Tstdb.TstDb} {t : Tree} (h : Keeps db puts tst t) (pos : Nat)
  {key : List UInt8} (hk : key ≠ [])

include h hk

/-- The node of the key, at any reading position. -/
theorem Keeps.getNode : Settles (fun n => V1.getNode n (db.at pos) key) ((t.find? (letters key)).getD 0) ∧
    ∀ x, t.find? (letters key) = some x → x ≠ 0 ∧
      ((db.data x).smallValueLen, (db.data x).value) = heldBy (t.lookup (letters key)) :=
  getNode_finds (show Mirrors (db.at pos) tst from h.mirrors.congr rfl rfl rfl rfl) h.planted hk

/-- A key without a path reads as empty. -/
theorem Keeps.get_pathless (hpath : ∀ p ∈ puts, ¬key <+: p.key) : Yields (db.at pos) key [] := by
  obtain ⟨hnode, -⟩ := h.getNode pos hk
  rw [(h.path key hk).mpr hpath] at hnode
  exact ⟨pos, tstGet_absent hnode h.ready rfl⟩

/-- A node nothing was stored in has the answer of wherever the reading position is. -/
theorem Keeps.get_internal (hnone : lastPut puts key = none) (hpath : ¬∀ p ∈ puts, ¬key <+: p.key) :
    Settles (fun n => tstGet n (db.at pos) key) (readRecord db.file pos) := by
  obtain ⟨hnode, hcell⟩ := h.getNode pos hk
  obtain ⟨x, hx⟩ := Option.ne_none_iff_exists'.mp fun hn => hpath ((h.path key hk).mp hn)
  obtain ⟨hx0, hheld⟩ := hcell x hx
  have hlookup : t.lookup (letters key) = 0 := by
    have := h.held key hk
    rwa [hnone] at this
  rw [hlookup] at hheld
  obtain ⟨hsmall, hvalue⟩ := Prod.mk.inj hheld
  rw [hx, Option.getD_some] at hnode
  have hvalue' : (db.data x).value ≠ 0 := by
    rw [hvalue]
    norm_num [NO_VALUE]
  have hseek : ¬(db.data x).value < LONG_END := by
    rw [hvalue]
    norm_num [NO_VALUE, LONG_END]
  have hget := tstGet_file hnode h.ready hx0 hsmall hvalue'
  rwa [show (if ((db.at pos).data x).value < LONG_END then ((db.at pos).data x).value else (db.at pos).readPos) = pos
    from if_neg hseek] at hget

/-- A stored key reads its last value, unless the length does not fit an `int`. -/
theorem Keeps.get_put {v : List UInt8} (hv : lastPut puts key = some v) : ∃ pos',
    Settles (fun n => tstGet n (db.at pos) key) (if v.length < INT_END then some (⟨v.length, v⟩, pos') else none) := by
  obtain ⟨hnode, hcell⟩ := h.getNode pos hk
  have hheld := h.held key hk
  rw [hv] at hheld
  obtain ⟨hle, hlen⟩ := h.pos key v hv
  have hne : t.lookup (letters key) ≠ 0 := by
    rcases hheld with ⟨-, hn⟩ | ⟨-, off, hn, -⟩
    · rw [hn]; exact holding_ne_zero _ _
    · rw [hn]; exact holding_ne_zero _ _
  obtain ⟨x, hx⟩ := Option.ne_none_iff_exists'.mp fun hn => hne (lookup_of_find?_none t _ hn)
  obtain ⟨hx0, hcontent⟩ := hcell x hx
  rw [hx, Option.getD_some] at hnode
  rcases hheld with ⟨hshort, hn⟩ | ⟨-, off, hn, hoff, hlt, hrec⟩
  · rw [hn, heldBy_holding] at hcontent
    obtain ⟨hsmall, hvalue⟩ := Prod.mk.inj hcontent
    have hinline : ¬((db.data x).smallValueLen = 0 ∧ (db.data x).value ≠ 0) := by
      rintro ⟨h0, hval⟩
      rw [hsmall, List.length_eq_zero_iff] at h0
      rw [hvalue, h0] at hval
      exact hval rfl
    have hget : Settles (fun n => tstGet n (db.at pos) key) (some (⟨(db.data x).smallValueLen,
        (bytesLE 8 (db.data x).value).take (db.data x).smallValueLen⟩, pos)) :=
      tstGet_inline hnode h.ready hx0 hinline
    rw [hsmall, hvalue, take_bytesLE_natLE v 8 hshort] at hget
    have hint : v.length < INT_END := lt_of_le_of_lt hshort (by norm_num [INT_END])
    refine ⟨pos, ?_⟩
    rw [if_pos hint]
    exact hget
  · rw [hn, heldBy_holding] at hcontent
    obtain ⟨hsmall, hvalue⟩ := Prod.mk.inj hcontent
    have hget : Settles (fun n => tstGet n (db.at pos) key)
        (readRecord db.file (if (db.data x).value < LONG_END then (db.data x).value else pos)) :=
      tstGet_file hnode h.ready hx0 hsmall (hvalue ▸ hoff)
    rw [hvalue, if_pos hlt, readRecord_at hrec hle hlen] at hget
    exact ⟨_, hget⟩

end Get

/-- The key was put with a length that can be read back, or it was not put and either
has no path or finds the reading position at an empty record. -/
def Served (puts : List PutArgs) (file : List UInt8) (pos : Nat) (key : List UInt8) : Prop :=
  match lastPut puts key with
  | some v => v.length < INT_END
  | none => (∀ p ∈ puts, ¬key <+: p.key) ∨ EmptyRecord file pos

/-- After any run of puts on a new database, and wherever reads have left the reading
position, `tst_get` yields the last value of a key, or nothing for one that was never
put, exactly when the key is served. -/
theorem get_yields_last {mem : Nat → TstNode} {db₀ db : TstDb} {puts : List PutArgs}
    (h₀ : Settles (fun n => tstOpen n mem ⟨none, none⟩) (some db₀))
    (h : Run (Guarded PutArgs.Step fun db p => p.Room db) db₀ puts db) (pos : Nat) (key : List UInt8)
    (hk : key ≠ []) : Yields (db.at pos) key ((lastPut puts key).getD []) ↔ Served puts db.file pos key := by
  obtain ⟨-, -, -, -, tst₀, hk₀⟩ := Keeps.create h₀
  obtain ⟨tst, t, hkeeps⟩ := hk₀.run h
  rw [List.nil_append] at hkeeps
  unfold Served
  cases hv : lastPut puts key with
  | some v =>
      obtain ⟨pos', hget⟩ := hkeeps.get_put pos hk hv
      simp only [Option.getD_some]
      rcases Nat.lt_or_ge v.length INT_END with hshort | hlong
      · rw [if_pos hshort] at hget
        exact ⟨fun _ => hshort, fun _ => ⟨pos', hget⟩⟩
      · rw [if_neg (Nat.not_lt.mpr hlong)] at hget
        constructor
        · rintro ⟨pos₂, hy⟩
          exact absurd (hget.unique hy) (Option.some_ne_none _).symm
        · exact fun hlt => absurd hlt (Nat.not_lt.mpr hlong)
  | none =>
      simp only [Option.getD_none]
      rcases Classical.em (∀ p ∈ puts, ¬key <+: p.key) with hpath | hpath
      · exact ⟨fun _ => Or.inl hpath, fun _ => hkeeps.get_pathless pos hk hpath⟩
      · have hget := hkeeps.get_internal pos hk hv hpath
        rw [← readRecord_empty_iff]
        constructor
        · rintro ⟨pos', hy⟩
          exact Or.inr ⟨pos', hget.unique hy⟩
        · rintro (hall | ⟨pos', hread⟩)
          · exact absurd hall hpath
          · exact ⟨pos', hread ▸ hget⟩

/-- One call on a new database always has room. -/
theorem first_put (p : PutArgs) : ∃ db₀ db, Settles (fun n => tstOpen n (fun _ => TstNode.fresh) ⟨none, none⟩) (some db₀) ∧
    p.Room db₀ ∧ p.Step db₀ db ∧ db.readPos = 4 ∧ db.file = int32LE MAGIC_NUMBER ++ record p.key p.value ∧
    db.hint = hintLine p.key p.value.length (p.cur 4) := by
  obtain ⟨db₀, h₀⟩ := tstOpen_new fun _ => TstNode.fresh
  obtain ⟨hpos, hfile, hhint, hsize, tst, hk⟩ := Keeps.create h₀
  have hlen : db₀.file.length = 4 := by rw [hfile, length_int32LE]
  have hroom : p.Room db₀ := by
    have hle := p.le
    unfold PutArgs.Room
    rw [hsize, hlen]
    unfold ARENA_LIMIT LONG_END
    omega
  obtain ⟨db, tst', hstep, -, -, hfile', hhint', hpos'⟩ := hk.put hroom
  exact ⟨db₀, db, h₀, hroom, hstep, hpos'.trans hpos, by rw [hfile', hfile],
    by rw [hhint', hhint, hlen, List.nil_append]⟩

/-- `ab` with the value `x`. -/
def putAb : PutArgs := ⟨[97, 98], [120], by simp, by simp, by simp, by norm_num [UINT32]⟩

/-- `ab` reads as `x`. -/
theorem get_yields_last_putAb : ∃ db : TstDb, db.file = int32LE MAGIC_NUMBER ++ record [97, 98] [120] ∧
    (Yields (db.at 4) [97, 98] ((lastPut [putAb] [97, 98]).getD []) ↔ Served [putAb] db.file 4 [97, 98]) := by
  obtain ⟨db₀, db, h₀, hroom, hstep, -, hfile, -⟩ := first_put putAb
  exact ⟨db, hfile, get_yields_last h₀ (.cons ⟨hroom, hstep⟩ (.nil db)) 4 [97, 98] (by simp)⟩

/-- `a` reads as `x`, although it was never put. -/
theorem get_yields_record : ¬ ∀ (mem : Nat → TstNode) (db₀ db : TstDb) (puts : List PutArgs),
    Settles (fun n => tstOpen n mem ⟨none, none⟩) (some db₀) →
    Run PutArgs.Step db₀ puts db → ∀ key, key ≠ [] → Yields db key ((lastPut puts key).getD []) := by
  intro H
  obtain ⟨db₀, db, h₀, hroom, hstep, hpos, hfile, -⟩ := first_put putAb
  obtain ⟨pos', hy⟩ := H _ db₀ db [putAb] h₀ (.cons hstep (.nil db)) [97] (by simp)
  obtain ⟨-, -, -, -, tst₀, hk₀⟩ := Keeps.create h₀
  obtain ⟨tst, t, hk⟩ := hk₀.run (.cons ⟨hroom, hstep⟩ (.nil db))
  have hnone : lastPut [putAb] [97] = none := by decide +kernel
  have hget := hk.get_internal db.readPos (show ([97] : List UInt8) ≠ [] by simp) hnone
    (fun hall => hall putAb List.mem_cons_self ⟨[98], rfl⟩)
  have hread : readRecord db.file db.readPos = some (⟨1, [120]⟩, 15) := by
    rw [hpos, hfile]
    decide +kernel
  rw [hread] at hget
  rw [hnone] at hy
  have hempty : Settles (fun n => tstGet n (db.at db.readPos) [97]) (some (⟨0, []⟩, pos')) := hy
  have heq := hget.unique hempty
  rw [Option.some.injEq, Prod.mk.injEq, Reply.mk.injEq] at heq
  exact absurd heq.1.1 Nat.one_ne_zero

end Tstdb.V1
