/-
# `Tstdb.Server.Store` — the two files, and what a writer does under its lock

A value lives in the data file as three `int`s (length of the body, flags, expiry)
and the body; the index maps its key to the offset of the first `int`.  Every
change of the index is first written to the binlog as the length of the key, the
key, and the offset, `0` for a removal.

A section of the writer lock is a list of actions in program order: bytes handed
to one of the files, and at last one change of the index (`storeActs`,
`deleteActs`).  What a section writes is decided before its first action, so a
section is embedded as a plan and then executed; a process that dies in between has
executed the actions up to some byte (`Act.atoms`).

Two limits of the environment stop a section: no file reaches `FILE_LIMIT` bytes
(`off_t` is signed), and an index call may not return.
-/
import Mathlib
import Tstdb.Lib.CText
import Tstdb.Lib.Bytes
import Tstdb.Tst.Arena
import Tstdb.Tst.Runs
import Tstdb.Server.Index

namespace Tstdb

open CText Bytes

/-- The arrays a request can run over. -/
inductive CArray where
  | key | method | strNumber | gValueBuf | gPrefixBuf | keyBuf | sHeadBuf | sBodyBuf | sortingOrder
deriving DecidableEq, Repr

/-- What ends a computation without a result. -/
inductive Fault where
  /-- A call on the index does not return. -/
  | diverge
  /-- A file cannot grow any more. -/
  | fileTooLong
  /-- `fread` left unset what the code goes on to use. -/
  | indeterminate
  /-- An access past the end of an array. -/
  | overrun (a : CArray)
deriving DecidableEq, Repr

def HEADER_BUF_SIZE : Nat := 512
def VALUE_LIMIT : Nat := 1000000

/-- No file holds more bytes. -/
def FILE_LIMIT : Nat := 9223372036854775808

/-- A key that fits the `key[MAX_KEY_SIZE]` arrays. -/
structure WireKey extends Key where
  short : bytes.length < MAX_KEY_SIZE

/-- The key of one letter. -/
def WireKey.letter (c : UInt8) (h : c ≠ 0) : WireKey := { Key.letter c h with short := by simp [Key.letter, MAX_KEY_SIZE] }

/-- A body as `read_body` frames it. -/
structure Body where
  bytes : List UInt8
  framed : bytes.length ≤ VALUE_LIMIT

theorem letter_x_framed : [(120 : UInt8)].length ≤ VALUE_LIMIT := by decide

theorem letter_y_framed : [(121 : UInt8)].length ≤ VALUE_LIMIT := by decide

structure Store (ι : Type) where
  index : ι
  dataFile : List UInt8
  binlog : List UInt8

/-! ## Records -/

/-- `fread(tmp, sizeof(int), 3, ..)` at an offset of the data file. -/
def readTmp (data : List UInt8) (off : Nat) : Except Fault (Int × Int × Int) :=
  if off + 12 ≤ data.length then
    .ok (int32Of (slice data off 4), int32Of (slice data (off + 4) 4), int32Of (slice data (off + 8) 4))
  else .error .indeterminate

/-- The bytes of a record of the data file. -/
def recordBytes (bodyLen flag expire : Int) (body : List UInt8) : List UInt8 :=
  int32LE bodyLen ++ int32LE flag ++ int32LE expire ++ body

/-- The bytes of a record of the binlog. -/
def binlogRecord (key : List UInt8) (value : Nat) : List UInt8 :=
  int32LE key.length ++ key ++ bytesLE 8 value

/-- What a record of the data file says. -/
structure Record where
  flag : Int
  expire : Int
  body : List UInt8
deriving DecidableEq, Repr

/-- The record at an offset, if all of it is in the file. -/
def recordAt (data : List UInt8) (off : Nat) : Option Record :=
  match readTmp data off with
  | .ok (bodyLen, flag, expire) =>
      if 0 ≤ bodyLen ∧ off + 12 + bodyLen.toNat ≤ data.length then
        some ⟨flag, expire, slice data (off + 12) bodyLen.toNat⟩
      else none
  | .error _ => none

/-- `expire > 0 && expire <= (int)time(NULL)` -/
def Record.expired (r : Record) (now : Int) : Prop := 0 < r.expire ∧ r.expire ≤ wrap32 now

instance (r : Record) (now : Int) : Decidable (r.expired now) := by
  unfold Record.expired; infer_instance

/-- What is read at the offset of a complete record. -/
theorem readTmp_of_recordAt {data : List UInt8} {off : Nat} {r : Record} (h : recordAt data off = some r) :
    readTmp data off = .ok (r.body.length, r.flag, r.expire) ∧
      slice data (off + 12) r.body.length = r.body ∧ off + 12 + r.body.length ≤ data.length := by
  unfold recordAt at h
  cases ht : readTmp data off with
  | error e => rw [ht] at h; cases h
  | ok t =>
      obtain ⟨bodyLen, flag, expire⟩ := t
      rw [ht] at h
      simp only [Option.ite_none_right_eq_some] at h
      obtain ⟨⟨h0, hlen⟩, hr⟩ := h
      obtain rfl := Option.some.inj hr
      have hb : (slice data (off + 12) bodyLen.toNat).length = bodyLen.toNat := length_slice hlen
      exact ⟨by rw [hb, Int.toNat_of_nonneg h0], by rw [hb], by rw [hb]; exact hlen⟩

theorem readTmp_append {data : List UInt8} (bs : List UInt8) {off : Nat} {t : Int × Int × Int}
    (h : readTmp data off = .ok t) : readTmp (data ++ bs) off = .ok t := by
  unfold readTmp at h ⊢
  split_ifs at h with hlen
  rw [if_pos (by rw [List.length_append]; omega), slice_append bs (by omega), slice_append bs (by omega),
    slice_append bs (by omega)]
  exact h

/-- Appending to the data file changes no record. -/
theorem recordAt_append {data : List UInt8} (bs : List UInt8) {off : Nat} {r : Record}
    (h : recordAt data off = some r) : recordAt (data ++ bs) off = some r := by
  unfold recordAt at h ⊢
  cases ht : readTmp data off with
  | error e => rw [ht] at h; cases h
  | ok t =>
      obtain ⟨bodyLen, flag, expire⟩ := t
      rw [ht] at h
      rw [readTmp_append bs ht]
      simp only [Option.ite_none_right_eq_some] at h ⊢
      obtain ⟨⟨h0, hlen⟩, hr⟩ := h
      exact ⟨⟨h0, by rw [List.length_append]; omega⟩, by rw [slice_append bs hlen]; exact hr⟩

theorem readTmp_recordBytes (data : List UInt8) (bodyLen flag expire : Int) (body : List UInt8) :
    readTmp (data ++ recordBytes bodyLen flag expire body) data.length
      = .ok (wrap32 bodyLen, wrap32 flag, wrap32 expire) := by
  have h1 : slice (data ++ recordBytes bodyLen flag expire body) data.length 4 = int32LE bodyLen := by
    rw [recordBytes, List.append_assoc, List.append_assoc]
    exact slice_length_append _ _ _ rfl (by simp)
  have h2 : slice (data ++ recordBytes bodyLen flag expire body) (data.length + 4) 4 = int32LE flag := by
    rw [recordBytes, List.append_assoc, List.append_assoc, ← List.append_assoc data]
    exact slice_length_append _ _ _ (by simp) (by simp)
  have h3 : slice (data ++ recordBytes bodyLen flag expire body) (data.length + 8) 4 = int32LE expire := by
    rw [recordBytes, List.append_assoc, ← List.append_assoc data]
    exact slice_length_append _ _ _ (by simp) (by simp)
  rw [readTmp, if_pos (by simp [recordBytes]; omega), h1, h2, h3, int32Of_int32LE, int32Of_int32LE,
    int32Of_int32LE]

/-- A record that was appended is there. -/
theorem recordAt_recordBytes (data : List UInt8) (flag expire : Int) {body : List UInt8}
    (hb : body.length < 2147483648) :
    recordAt (data ++ recordBytes body.length flag expire body) data.length
      = some ⟨wrap32 flag, wrap32 expire, body⟩ := by
  have hlen : wrap32 (body.length : Int) = body.length := wrap32_of_range (by omega) (by omega)
  have hbody : slice (data ++ recordBytes body.length flag expire body) (data.length + 12) body.length
      = body := by
    have h := slice_length_append (data ++ (int32LE body.length ++ int32LE flag ++ int32LE expire)) body []
      (i := data.length + 12) (n := body.length) (by simp) rfl
    simpa [recordBytes] using h
  unfold recordAt
  rw [readTmp_recordBytes]
  simp only [hlen, Int.toNat_natCast]
  rw [if_pos ⟨by omega, by simp [recordBytes]; omega⟩, hbody]

/-! ## Actions -/

/-- A change of the index. -/
inductive IndexOp where
  | put (key : List UInt8) (value : Nat)
  | delete (key : List UInt8)
deriving DecidableEq, Repr

inductive Act where
  | data (bs : List UInt8)
  | log (bs : List UInt8)
  | apply (op : IndexOp)
deriving DecidableEq, Repr

/-- A call on the index that is not known to return. -/
def returns {α : Type} (o : Option α) : Except Fault α := o.elim (.error .diverge) .ok

section Exec

variable {ι : Type} (ix : Index ι)

def IndexOp.exec (i : ι) : IndexOp → Option ι
  | .put key value => ix.put i key value
  | .delete key => ix.delete i key

def Act.exec (st : Store ι) : Act → Except Fault (Store ι)
  | .data bs =>
      if st.dataFile.length + bs.length < FILE_LIMIT then .ok { st with dataFile := st.dataFile ++ bs }
      else .error .fileTooLong
  | .log bs =>
      if st.binlog.length + bs.length < FILE_LIMIT then .ok { st with binlog := st.binlog ++ bs }
      else .error .fileTooLong
  | .apply op => (returns (op.exec ix st.index)).map fun i => { st with index := i }

def Act.execAll (st : Store ι) : List Act → Except Fault (Store ι)
  | [] => .ok st
  | a :: as => (a.exec ix st).bind fun st => Act.execAll st as

end Exec

/-- Write a record at the end of the data file, log it, put it. -/
def storeActs (off : Nat) (key : List UInt8) (bodyLen flag expire : Int) (body : List UInt8) : List Act :=
  [.data (int32LE bodyLen ++ int32LE flag ++ int32LE expire), .data body,
    .log (int32LE key.length), .log key, .log (bytesLE 8 off), .apply (.put key off)]

/-- Log a removal and remove. -/
def deleteActs (key : List UInt8) : List Act :=
  [.log (int32LE key.length), .log key, .log (bytesLE 8 0), .apply (.delete key)]

/-- `st'` is `st` after a record was appended, logged and put. -/
structure Stored {ι : Type} (ix : Index ι) (st st' : Store ι) (key : List UInt8) (flag expire : Int)
    (body : List UInt8) : Prop where
  index : ix.put st.index key st.dataFile.length = some st'.index
  data : st'.dataFile = st.dataFile ++ recordBytes body.length flag expire body
  log : st'.binlog = st.binlog ++ binlogRecord key st.dataFile.length
  short : st'.dataFile.length < FILE_LIMIT

/-- `st'` is `st` after a removal was logged and carried out. -/
structure Removed {ι : Type} (ix : Index ι) (st st' : Store ι) (key : List UInt8) : Prop where
  index : ix.delete st.index key = some st'.index
  data : st'.dataFile = st.dataFile
  log : st'.binlog = st.binlog ++ binlogRecord key 0

section Spec

variable {ι : Type} {ix : Index ι} {st st' : Store ι}

theorem returns_eq_ok {α : Type} {o : Option α} {a : α} : returns o = .ok a ↔ o = some a := by
  cases o <;> simp [returns]

theorem Act.exec_data {bs : List UInt8} (h : (Act.data bs).exec ix st = .ok st') :
    st' = { st with dataFile := st.dataFile ++ bs } ∧ st.dataFile.length + bs.length < FILE_LIMIT := by
  simp only [Act.exec] at h
  split_ifs at h with hlen
  exact ⟨(Except.ok.inj h).symm, hlen⟩

theorem Act.exec_log {bs : List UInt8} (h : (Act.log bs).exec ix st = .ok st') :
    st' = { st with binlog := st.binlog ++ bs } := by
  simp only [Act.exec] at h
  split_ifs at h
  exact (Except.ok.inj h).symm

theorem Act.exec_apply {op : IndexOp} (h : (Act.apply op).exec ix st = .ok st') :
    ∃ i, op.exec ix st.index = some i ∧ st' = { st with index := i } := by
  simp only [Act.exec] at h
  cases ho : op.exec ix st.index with
  | none => rw [ho] at h; cases h
  | some i => rw [ho] at h; cases h; exact ⟨i, rfl, rfl⟩

theorem Act.execAll_cons {a : Act} {as : List Act} (h : Act.execAll ix st (a :: as) = .ok st') :
    ∃ st₁, a.exec ix st = .ok st₁ ∧ Act.execAll ix st₁ as = .ok st' := by
  simp only [Act.execAll] at h
  cases ha : a.exec ix st with
  | error e => rw [ha] at h; cases h
  | ok st₁ => rw [ha] at h; exact ⟨st₁, rfl, h⟩

theorem execAll_storeActs {key : List UInt8} {flag expire : Int} {body : List UInt8}
    (h : Act.execAll ix st (storeActs st.dataFile.length key body.length flag expire body) = .ok st') :
    Stored ix st st' key flag expire body := by
  obtain ⟨s₁, e₁, h⟩ := Act.execAll_cons h
  obtain ⟨s₂, e₂, h⟩ := Act.execAll_cons h
  obtain ⟨s₃, e₃, h⟩ := Act.execAll_cons h
  obtain ⟨s₄, e₄, h⟩ := Act.execAll_cons h
  obtain ⟨s₅, e₅, h⟩ := Act.execAll_cons h
  obtain ⟨s₆, e₆, h⟩ := Act.execAll_cons h
  obtain ⟨rfl, -⟩ := Act.exec_data e₁
  obtain ⟨rfl, hlen⟩ := Act.exec_data e₂
  obtain rfl := Act.exec_log e₃
  obtain rfl := Act.exec_log e₄
  obtain rfl := Act.exec_log e₅
  obtain ⟨i, hi, rfl⟩ := Act.exec_apply e₆
  obtain rfl := Except.ok.inj h
  refine ⟨hi, by simp [recordBytes], by simp [binlogRecord], ?_⟩
  simp only [List.length_append] at hlen ⊢
  omega

theorem execAll_deleteActs {key : List UInt8} (h : Act.execAll ix st (deleteActs key) = .ok st') :
    Removed ix st st' key := by
  obtain ⟨s₁, e₁, h⟩ := Act.execAll_cons h
  obtain ⟨s₂, e₂, h⟩ := Act.execAll_cons h
  obtain ⟨s₃, e₃, h⟩ := Act.execAll_cons h
  obtain ⟨s₄, e₄, h⟩ := Act.execAll_cons h
  obtain rfl := Act.exec_log e₁
  obtain rfl := Act.exec_log e₂
  obtain rfl := Act.exec_log e₃
  obtain ⟨i, hi, rfl⟩ := Act.exec_apply e₄
  obtain rfl := Except.ok.inj h
  exact ⟨hi, rfl, by simp [binlogRecord]⟩

theorem Act.exec_data_eq {bs : List UInt8} (h : st.dataFile.length + bs.length < FILE_LIMIT) :
    (Act.data bs).exec ix st = .ok { st with dataFile := st.dataFile ++ bs } := if_pos h

theorem Act.exec_log_eq {bs : List UInt8} (h : st.binlog.length + bs.length < FILE_LIMIT) :
    (Act.log bs).exec ix st = .ok { st with binlog := st.binlog ++ bs } := if_pos h

theorem Act.exec_apply_eq (op : IndexOp) {i i' : ι} {data log : List UInt8} (h : op.exec ix i = some i') :
    (Act.apply op).exec ix ⟨i, data, log⟩ = .ok ⟨i', data, log⟩ := by
  rw [Act.exec, h]
  rfl

theorem Act.execAll_cons_eq {a : Act} {as : List Act} {st₁ : Store ι} (h : a.exec ix st = .ok st₁) :
    Act.execAll ix st (a :: as) = Act.execAll ix st₁ as := by
  rw [Act.execAll, h]
  rfl

/-- With room in the files and an index that returns, a store is carried out. -/
theorem execAll_storeActs_eq {off : Nat} {key : List UInt8} {bodyLen flag expire : Int} {body : List UInt8}
    {i : ι} (hd : st.dataFile.length + 12 + body.length < FILE_LIMIT)
    (hl : st.binlog.length + 12 + key.length < FILE_LIMIT) (hi : ix.put st.index key off = some i) :
    Act.execAll ix st (storeActs off key bodyLen flag expire body)
      = .ok ⟨i, st.dataFile ++ recordBytes bodyLen flag expire body, st.binlog ++ binlogRecord key off⟩ := by
  rw [storeActs, Act.execAll_cons_eq (Act.exec_data_eq (by simp; omega)),
    Act.execAll_cons_eq (Act.exec_data_eq (by simp; omega)),
    Act.execAll_cons_eq (Act.exec_log_eq (by simp; omega)),
    Act.execAll_cons_eq (Act.exec_log_eq (by simp; omega)),
    Act.execAll_cons_eq (Act.exec_log_eq (by simp; omega)),
    Act.execAll_cons_eq (Act.exec_apply_eq (.put key off) hi)]
  simp [Act.execAll, recordBytes, binlogRecord]

theorem execAll_deleteActs_eq {key : List UInt8} {i : ι} (hl : st.binlog.length + 12 + key.length < FILE_LIMIT)
    (hi : ix.delete st.index key = some i) :
    Act.execAll ix st (deleteActs key) = .ok ⟨i, st.dataFile, st.binlog ++ binlogRecord key 0⟩ := by
  rw [deleteActs, Act.execAll_cons_eq (Act.exec_log_eq (by simp; omega)),
    Act.execAll_cons_eq (Act.exec_log_eq (by simp; omega)),
    Act.execAll_cons_eq (Act.exec_log_eq (by simp; omega)),
    Act.execAll_cons_eq (Act.exec_apply_eq (.delete key) hi)]
  simp [Act.execAll, binlogRecord]

/-- Every value the index holds is the offset of a complete record. -/
def Store.Sound (ix : Index ι) (st : Store ι) : Prop :=
  ∀ v, ix.holds st.index v → (recordAt st.dataFile v).isSome

theorem isSome_recordAt_append {data : List UInt8} (bs : List UInt8) {off : Nat}
    (h : (recordAt data off).isSome) : (recordAt (data ++ bs) off).isSome := by
  obtain ⟨r, hr⟩ := Option.isSome_iff_exists.mp h
  exact Option.isSome_iff_exists.mpr ⟨r, recordAt_append bs hr⟩

theorem Stored.sound {key : List UInt8} {flag expire : Int} {body : List UInt8}
    (h : Stored ix st st' key flag expire body) (hb : body.length < 2147483648) (hs : st.Sound ix) :
    st'.Sound ix := by
  intro v hv
  rw [h.data]
  rcases ix.put_holds h.index hv with hold | rfl
  · exact isSome_recordAt_append _ (hs v hold)
  · rw [recordAt_recordBytes _ _ _ hb]; rfl

theorem Removed.sound {key : List UInt8} (h : Removed ix st st' key) (hs : st.Sound ix) : st'.Sound ix := by
  intro v hv
  rw [h.data]
  exact hs v (ix.delete_holds h.index hv)

end Spec

end Tstdb
