/-
# `Tstdb.Server.Boot` — what starts and stops the server

`init_data` loads the index file, or makes an empty index where there is none, and
replays the binlog on top of it; the binlog is then cut back to its last complete
record.  `dump_tst` writes the index to a temporary file, renames it over the index
file and removes the binlog.

The index file is an image `φ` of the index; `load` makes an index of what is
found.  The arena's image is its header and the nodes below `cap`, and loading
leaves the memory past them as `malloc` returned it.  The four files are four
different files, none reaches `FILE_LIMIT`, and opening and renaming succeed.
-/
import Mathlib
import Tstdb.Lib.CText
import Tstdb.Lib.Bytes
import Tstdb.Tst.Arena
import Tstdb.Server.Index
import Tstdb.Server.Store

namespace Tstdb

open CText Bytes

/-- The temporary index file. -/
inductive TmpFile (φ : Type) where
  | absent
  | torn
  | whole (image : φ)

/-- The files between two runs of the server. -/
structure Disk (φ : Type) where
  dataFile : List UInt8
  binlog : List UInt8
  indexFile : Option φ
  tmpFile : TmpFile φ

/-! ## Replaying the binlog -/

/-- `tst_put` or `tst_delete`, as `replay_binlog` tells them apart; the key is the
C string in `key`. -/
def replayOp (key : List UInt8) (value : Nat) : IndexOp :=
  if 0 < value then .put (cstr key) value else .delete (cstr key)

section Replay

variable {ι : Type} (ix : Index ι)

/-- The loop of `replay_binlog` on the unread rest of the file: the index, and how
many bytes of complete records were read. -/
def replayLoop : Nat → ι → List UInt8 → Nat → Except Fault (ι × Nat)
  | 0, i, _, lastSuccessPos => .ok (i, lastSuccessPos)
  | fuel + 1, i, rest, lastSuccessPos =>
      if rest.length < 4 then .ok (i, lastSuccessPos)
      else
        let n := int32Of (rest.take 4)
        let rest := rest.drop 4
        if n ≤ 0 then .ok (i, lastSuccessPos)
        -- `fread` fills `key` as far as the file goes
        else if MAX_KEY_SIZE < min n.toNat rest.length then .error (.overrun .key)
        else if rest.length < n.toNat then .ok (i, lastSuccessPos)
        else if MAX_KEY_SIZE ≤ n.toNat then .error (.overrun .key)
        else
          let key := rest.take n.toNat
          let rest := rest.drop n.toNat
          if rest.length < 8 then .ok (i, lastSuccessPos)
          else
            let value := natLE (rest.take 8)
            (returns ((replayOp key value).exec ix i)).bind fun i =>
              replayLoop fuel i (rest.drop 8) (lastSuccessPos + (4 + n.toNat + 8))

/-- `ftruncate` to an `int` position; a negative one is an error and changes nothing. -/
def truncate (file : List UInt8) (lastSuccessPos : Nat) : List UInt8 :=
  let p := wrap32 lastSuccessPos
  if p < 0 then file else file.take p.toNat

/-- The index and the binlog after the replay. -/
def replayBinlog (i : ι) (binlog : List UInt8) : Except Fault (ι × List UInt8) :=
  (replayLoop ix (binlog.length + 1) i binlog 0).map fun (i, lastSuccessPos) =>
    (i, truncate binlog lastSuccessPos)

/-- `[2012]`, so that no record has offset `0`. -/
def dataFileHead : List UInt8 := ascii "[2012]"

def initData {φ : Type} (load : Option φ → ι) (disk : Disk φ) : Except Fault (Store ι) :=
  let dataFile := if disk.dataFile.length = 0 then dataFileHead else disk.dataFile
  (replayBinlog ix (load disk.indexFile) disk.binlog).map fun (i, binlog) =>
    { index := i, dataFile := dataFile, binlog := binlog }

end Replay

/-! ## Dumping the index -/

/-- How far `dump_tst` gets. -/
inductive DumpPoint where
  | beforeDump
  | whileDumping
  | tmpClosed
  | renamed
  | binlogRemoved
deriving DecidableEq, Repr

/-- The files that are left when `dump_tst` stops at a point. -/
def dumpTst {φ : Type} (image : φ) (disk : Disk φ) : DumpPoint → Disk φ
  | .beforeDump => disk
  | .whileDumping => { disk with tmpFile := .torn }
  | .tmpClosed => { disk with tmpFile := .whole image }
  | .renamed => { disk with tmpFile := .absent, indexFile := some image }
  | .binlogRemoved => { disk with tmpFile := .absent, indexFile := some image, binlog := [] }

/-! ## Index files -/

/-- The index file of the arena: the header and `cap` nodes. -/
structure IndexImage where
  root : Nat
  size : Nat
  cap : Nat
  fHead : Nat
  nodes : Nat → TstNode

def TstDb.image (db : TstDb) : IndexImage :=
  { root := db.root, size := db.size, cap := db.cap, fHead := db.fHead, nodes := db.data }

/-- `reload_index` -/
def reloadIndex (mem : Nat → TstNode) : Option IndexImage → TstDb
  | some img =>
      { root := img.root, size := img.size, cap := img.cap, fHead := img.fHead, block := img.cap
        data := fun i => if i < img.cap then img.nodes i else mem i }
  | none => createTstDb mem

/-- The same for the map. -/
def reloadMap (file : Option KeyMap) : KeyMap := file.getD KeyMap.empty

/-! ## Logs of complete records -/

/-- One complete record of the binlog. -/
structure LogEntry where
  key : List UInt8
  value : Nat
  key_pos : 0 < key.length
  key_short : key.length < MAX_KEY_SIZE
  value_lt : value < 256 ^ 8

def LogEntry.bytes (e : LogEntry) : List UInt8 := binlogRecord e.key e.value

def LogEntry.op (e : LogEntry) : IndexOp := replayOp e.key e.value

def logBytes (es : List LogEntry) : List UInt8 := es.flatMap LogEntry.bytes

section Entries

variable {ι : Type} (ix : Index ι)

/-- Carry out the records in order. -/
def execEntries : ι → List LogEntry → Except Fault ι
  | i, [] => .ok i
  | i, e :: es => (returns (e.op.exec ix i)).bind fun i => execEntries i es

variable {ix}

theorem execEntries_append {i i' : ι} {es es' : List LogEntry} (h : execEntries ix i es = .ok i') :
    execEntries ix i (es ++ es') = execEntries ix i' es' := by
  induction es generalizing i with
  | nil => cases h; rfl
  | cons e es ih =>
      simp only [execEntries, List.cons_append] at h ⊢
      cases he : e.op.exec ix i with
      | none => rw [he] at h; cases h
      | some i₁ => rw [he] at h; exact ih h

theorem execEntries_concat {i i' i'' : ι} {es : List LogEntry} {e : LogEntry}
    (h : execEntries ix i es = .ok i') (he : e.op.exec ix i' = some i'') :
    execEntries ix i (es ++ [e]) = .ok i'' := by
  rw [execEntries_append h]
  simp only [execEntries, he]
  rfl

@[simp] theorem length_binlogRecord (key : List UInt8) (value : Nat) :
    (binlogRecord key value).length = 4 + key.length + 8 := by
  simp only [binlogRecord, List.length_append, length_int32LE, length_bytesLE]

/-- One complete record is read, applied and counted. -/
theorem replayLoop_cons (fuel : Nat) (i : ι) (e : LogEntry) (rest : List UInt8) (pos : Nat) :
    replayLoop ix (fuel + 1) i (e.bytes ++ rest) pos =
      (returns (e.op.exec ix i)).bind fun i => replayLoop ix fuel i rest (pos + e.bytes.length) := by
  have hk : e.key.length < 256 := e.key_short
  have hkp := e.key_pos
  have hn : int32Of (int32LE (e.key.length : Int)) = e.key.length := by
    rw [int32Of_int32LE, wrap32_of_range (by omega) (by omega)]
  have h4 : (e.bytes ++ rest).take 4 = int32LE e.key.length := by
    rw [LogEntry.bytes, binlogRecord, List.append_assoc, List.append_assoc]
    exact List.take_left' (length_int32LE _)
  have hd : (e.bytes ++ rest).drop 4 = e.key ++ (bytesLE 8 e.value ++ rest) := by
    rw [LogEntry.bytes, binlogRecord, List.append_assoc, List.append_assoc]
    exact List.drop_left' (length_int32LE _)
  have hlen : ¬ (e.bytes ++ rest).length < 4 := by
    rw [List.length_append, LogEntry.bytes, length_binlogRecord]; omega
  have hv : natLE ((bytesLE 8 e.value ++ rest).take 8) = e.value := by
    rw [List.take_left' (length_bytesLE 8 _), natLE_bytesLE e.value_lt]
  rw [replayLoop, if_neg hlen, h4, hn, hd]
  simp only [Int.toNat_natCast, List.length_append, length_bytesLE]
  rw [if_neg (by omega), if_neg (by simp only [MAX_KEY_SIZE]; omega), if_neg (by omega),
    if_neg (by simp only [MAX_KEY_SIZE]; omega), List.drop_left' rfl, List.take_left' rfl, if_neg (by simp),
    List.drop_left' (length_bytesLE 8 _), hv]
  rw [LogEntry.bytes, length_binlogRecord]
  rfl

/-- What is left of a record that was cut short stops the replay. -/
theorem replayLoop_torn (fuel : Nat) (i : ι) {e : LogEntry} {tail : List UInt8} (pos : Nat)
    (ht : tail <+: e.bytes) (hs : tail.length < e.bytes.length) :
    replayLoop ix fuel i tail pos = .ok (i, pos) := by
  cases fuel with
  | zero => rfl
  | succ fuel =>
      have hk : e.key.length < 256 := e.key_short
      have hkp := e.key_pos
      rw [LogEntry.bytes, length_binlogRecord] at hs
      obtain ⟨more, hmore⟩ := ht
      rw [replayLoop]
      by_cases hlen : tail.length < 4
      · rw [if_pos hlen]
      · have h4 : tail.take 4 = int32LE e.key.length := by
          have h := congrArg (List.take 4) hmore
          rw [List.take_append_of_le_length (by omega)] at h
          rw [h, LogEntry.bytes, binlogRecord, List.append_assoc]
          exact List.take_left' (length_int32LE _)
        have hn : int32Of (int32LE (e.key.length : Int)) = e.key.length := by
          rw [int32Of_int32LE, wrap32_of_range (by omega) (by omega)]
        rw [if_neg hlen, h4, hn]
        simp only [Int.toNat_natCast, List.length_drop]
        rw [if_neg (by omega), if_neg (by simp only [MAX_KEY_SIZE]; omega)]
        split_ifs
        · rfl
        · simp only [MAX_KEY_SIZE] at *; omega
        · rfl
        · omega

/-- The replay of complete records and a torn tail carries out exactly the records. -/
theorem replayLoop_entries {e : LogEntry} {tail : List UInt8} (ht : tail <+: e.bytes)
    (hs : tail.length < e.bytes.length) : ∀ (es : List LogEntry) (fuel : Nat) (i : ι) (pos : Nat),
    es.length ≤ fuel → replayLoop ix fuel i (logBytes es ++ tail) pos =
      (execEntries ix i es).map fun i => (i, pos + (logBytes es).length) := by
  intro es
  induction es with
  | nil => intro fuel i pos _; exact replayLoop_torn fuel i pos ht hs
  | cons a es ih =>
      intro fuel i pos hf
      obtain ⟨fuel, rfl⟩ : ∃ f, fuel = f + 1 := ⟨fuel - 1, by simp only [List.length_cons] at hf; omega⟩
      have hcons : logBytes (a :: es) ++ tail = a.bytes ++ (logBytes es ++ tail) := by
        simp [logBytes, List.append_assoc]
      rw [hcons, replayLoop_cons]
      simp only [execEntries]
      cases ho : a.op.exec ix i with
      | none => rfl
      | some i₁ =>
          show replayLoop ix fuel i₁ (logBytes es ++ tail) (pos + a.bytes.length) = _
          rw [ih fuel i₁ _ (by simpa using hf)]
          have hlen : pos + a.bytes.length + (logBytes es).length = pos + (logBytes (a :: es)).length := by
            simp only [logBytes, List.flatMap_cons, List.length_append]; omega
          rw [hlen]
          rfl

theorem length_logBytes_le (es : List LogEntry) : es.length ≤ (logBytes es).length := by
  induction es with
  | nil => exact Nat.le_refl _
  | cons e es ih =>
      simp only [logBytes, List.flatMap_cons, List.length_append, List.length_cons] at ih ⊢
      rw [LogEntry.bytes, length_binlogRecord]
      omega

/-- `replay_binlog` on complete records and a torn tail. -/
theorem replayBinlog_entries {e : LogEntry} {tail : List UInt8} (ht : tail <+: e.bytes)
    (hs : tail.length < e.bytes.length) (es : List LogEntry) (i : ι) :
    replayBinlog ix i (logBytes es ++ tail) =
      (execEntries ix i es).map fun i => (i, truncate (logBytes es ++ tail) (logBytes es).length) := by
  have hf : es.length ≤ (logBytes es ++ tail).length + 1 := by
    have := length_logBytes_le es
    rw [List.length_append]
    omega
  rw [replayBinlog, replayLoop_entries ht hs es _ i 0 hf, Nat.zero_add]
  cases execEntries ix i es <;> rfl

/-- A log whose length is an `int` is cut back to its complete records. -/
theorem truncate_entries {es : List LogEntry} (tail : List UInt8) (h : (logBytes es).length < 2147483648) :
    truncate (logBytes es ++ tail) (logBytes es).length = logBytes es := by
  unfold truncate
  rw [wrap32_of_range (by omega) (by omega)]
  simp only [Int.toNat_natCast]
  rw [if_neg (by omega), List.take_left' rfl]

/-- When the cut is right: the length is an `int`, or it wraps to a negative one, the
cut fails, and there is nothing to cut off. -/
theorem truncate_eq_iff (bs tail : List UInt8) : truncate (bs ++ tail) bs.length = bs ↔
    bs.length < 2147483648 ∨ tail = [] ∧ 2147483648 ≤ bs.length % 4294967296 := by
  have hw : wrap32 bs.length = ((bs.length : Int) + 2147483648) % 4294967296 - 2147483648 := rfl
  unfold truncate
  rcases Nat.lt_or_ge bs.length 2147483648 with hlt | hge
  · have hp : wrap32 bs.length = bs.length := wrap32_of_range (by omega) (by omega)
    simp only [hp, if_neg (show ¬(bs.length : Int) < 0 by omega), Int.toNat_natCast, List.take_left' rfl, hlt, true_or]
  · rcases Nat.lt_or_ge (bs.length % 4294967296) 2147483648 with hmod | hmod
    · have hp : wrap32 bs.length = (bs.length % 4294967296 : Nat) := by omega
      simp only [hp, if_neg (show ¬((bs.length % 4294967296 : Nat) : Int) < 0 by omega), Int.toNat_natCast]
      refine iff_of_false (fun h => ?_) (by omega)
      have hlen := congrArg List.length h
      rw [List.length_take, List.length_append] at hlen
      omega
    · have hp : wrap32 bs.length < 0 := by omega
      simp only [hp, if_true]
      constructor
      · exact fun h => Or.inr ⟨by simpa using h, hmod⟩
      · rintro (hlt | ⟨rfl, -⟩)
        · omega
        · exact List.append_nil bs

end Entries

/-- `replay_binlog` applies the complete records and leaves just them, exactly if their
length fits the `int` that counts it, or else wraps below zero with nothing torn behind
them. -/
theorem replay_binlog_repairs {ι : Type} {ix : Index ι} (es : List LogEntry) {e : LogEntry} {tail : List UInt8}
    (ht : tail <+: e.bytes) (hs : tail.length < e.bytes.length) {i i' : ι} (hi : execEntries ix i es = .ok i') :
    replayBinlog ix i (logBytes es ++ tail) = .ok (i', logBytes es) ↔
      (logBytes es).length < 2147483648 ∨ tail = [] ∧ 2147483648 ≤ (logBytes es).length % 4294967296 := by
  rw [replayBinlog_entries ht hs, hi, ← truncate_eq_iff]
  exact ⟨fun h => (Prod.mk.inj (Except.ok.inj h)).2, fun h => congrArg (fun log => Except.ok (i', log)) h⟩

/-- `k` at offset 6. -/
def entryK : LogEntry := ⟨[107], 6, by decide, by decide, by decide⟩

theorem replay_binlog_repairs_torn : replayBinlog Index.map KeyMap.empty (logBytes [entryK] ++ [1, 0]) =
    .ok (KeyMap.empty.put [107] 6, logBytes [entryK]) :=
  (replay_binlog_repairs (e := entryK) [entryK] (by decide) (by decide) rfl).mpr (Or.inl (by decide))

theorem length_logBytes_replicate (n : Nat) : (logBytes (List.replicate n entryK)).length = n * 13 := by
  induction n with
  | zero => rfl
  | succ n ih =>
      rw [List.replicate_succ, logBytes, List.flatMap_cons, List.length_append, LogEntry.bytes, length_binlogRecord]
      rw [logBytes] at ih
      rw [ih]
      simp only [entryK, List.length_singleton]
      omega

theorem exists_execEntries_map (m : KeyMap) : ∀ es : List LogEntry, ∃ m', execEntries Index.map m es = .ok m' := by
  intro es
  induction es generalizing m with
  | nil => exact ⟨m, rfl⟩
  | cons e es ih =>
      rw [execEntries]
      cases hv : e.op with
      | put key value => exact ih _
      | delete key => exact ih _

/-- 2 GiB of records and one byte of the next: the byte stays. -/
theorem replay_binlog_keeps_torn : ¬ ∀ (es : List LogEntry) (e : LogEntry) (tail : List UInt8), tail <+: e.bytes →
    tail.length < e.bytes.length → ∀ m m', execEntries Index.map m es = .ok m' →
      replayBinlog Index.map m (logBytes es ++ tail) = .ok (m', logBytes es) := by
  intro H
  obtain ⟨m', hm'⟩ := exists_execEntries_map KeyMap.empty (List.replicate 165191050 entryK)
  have htorn : [1] <+: entryK.bytes := by decide
  have h := H _ entryK [1] htorn (by decide) _ _ hm'
  rw [replayBinlog_entries htorn (by decide), hm'] at h
  have hlen := length_logBytes_replicate 165191050
  rcases (truncate_eq_iff _ _).mp (Prod.mk.inj (Except.ok.inj h)).2 with hlt | ⟨hnil, -⟩
  · omega
  · cases hnil

end Tstdb
