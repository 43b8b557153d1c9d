/-
# `Tstdb.V1.Hint` — closing a v1 database and opening it again

`tst_put` prints one line for each call to the hint file, and `tst_open` reads the file
with `%s %u %llu` and puts what it read.  A key of bytes that are no white space comes
back as it was printed, so the same puts are made in the same order and the same tree
results.  A key with white space is torn: what is behind it is read as numbers or, in
the next round, as another key.
-/
import Mathlib
import Tstdb.Lib.Fuel
import Tstdb.Lib.Runs
import Tstdb.Lib.CText
import Tstdb.Lib.Bytes
import Tstdb.Lib.TernaryTree
import Tstdb.Tst.Arena
import Tstdb.Tst.Shape
import Tstdb.Tst.Put
import Tstdb.Tst.Runs
import Tstdb.Tst.NullNode
import Tstdb.V1.Library
import Tstdb.V1.Tree
import Tstdb.V1.Map

namespace Tstdb.V1

open Fuel TTree Runs CText Bytes

/-! ## Reading what was printed -/

/-- The numbers a `uint64` can hold. -/
def UINT64 : Nat := 18446744073709551616

/-- A printed number is read up to the next byte that is no digit. -/
theorem scanStream_decimalNat {n : Nat} (hn : n < UINT64) {b : UInt8} {rest : List UInt8} (hb : isDigit b = false) :
    scanStream (9 :: (decimalNat n ++ b :: rest)) = (some n, b :: rest) := by
  have hscan : scanNumber (9 :: (decimalNat n ++ b :: rest)) = some (false, decimalNat n, b :: rest) := by
    rw [← scanNumber_dropWhile, List.dropWhile_cons_of_pos (by decide), scanNumber_dropWhile, ← decimal_natCast,
      scanNumber_decimal _ (by simpa using hb)]
    have hneg : decide ((n : Int) < 0) = false := decide_eq_false (by omega)
    rw [hneg, Int.natAbs_natCast, decimal_natCast]
  have hval : toUInt64 false (decimalNat n) = n := by
    have hle : ¬18446744073709551615 < n := by
      unfold UINT64 at hn
      omega
    rw [toUInt64, digitsValue_decimalNat]
    simp only [if_neg hle, Bool.false_eq_true, if_false]
  simp only [scanStream, hscan, hval]

/-- One line, with what follows it. -/
theorem scanHint_line {key : List UInt8} (hk : key ≠ []) (hw : ∀ b ∈ key, isSpace b = false) {len cur : Nat}
    (hlen : len < UINT32) (hcur : cur < UINT64) (rest : List UInt8) :
    scanHint (hintLine key len cur ++ rest) = .tuple key len cur (10 :: rest) := by
  have htext : hintLine key len cur ++ rest = key ++ (9 :: (decimalNat len ++ 9 :: (decimalNat cur ++ 10 :: rest))) := by
    simp only [hintLine, List.append_assoc, List.cons_append, List.nil_append]
  have hlen64 : len < UINT64 := lt_trans hlen (by norm_num [UINT32, UINT64])
  rw [htext, scanHint, scanToken_append hk hw (by simp; decide)]
  simp only [scanStream_decimalNat hlen64 (show isDigit 9 = false by decide),
    scanStream_decimalNat hcur (show isDigit 10 = false by decide), u32_of_lt hlen]

/-- White space before a tuple is skipped. -/
theorem scanHint_newline (t : List UInt8) : scanHint (10 :: t) = scanHint t := by
  have htok : scanToken (10 :: t) = scanToken t := by
    rw [scanToken, scanToken, List.dropWhile_cons_of_pos (by decide)]
  rw [scanHint, scanHint, htok]

/-! ## Loading -/

/-- The bytes `%s` stops at are not in the key. -/
def PutArgs.Untorn (p : PutArgs) : Prop := ∀ b ∈ p.key, isSpace b = false

theorem loadHint_newline (n : Nat) (db : TstDb) (t : List UInt8) : loadHint n db (10 :: t) = loadHint n db t := by
  cases n with
  | zero => rfl
  | succ n => rw [loadHint, loadHint, scanHint_newline]

/-- A line that is read as a tuple is put, and the loop goes on behind it. -/
theorem loadHint_line {db db₁ db₂ : TstDb} {t key rest : List UInt8} {len cur : Nat}
    (hscan : scanHint t = .tuple key len cur (10 :: rest))
    (hput : Settles (fun n => put n db key cur (if 8 < len then 0 else len)) db₁)
    (hrest : Settles (fun n => loadHint n db₁ rest) db₂) : Settles (fun n => loadHint n db t) db₂ := by
  refine Settles.succ (fun n => ?_) (Settles.bind (g := fun n db => loadHint n db rest) hput hrest)
  rw [loadHint, hscan]
  simp only [loadHint_newline]

/-- What is read short of a tuple is passed over. -/
theorem loadHint_short {db db₁ : TstDb} {t rest : List UInt8} (hscan : scanHint t = .short rest)
    (hrest : Settles (fun n => loadHint n db rest) db₁) : Settles (fun n => loadHint n db t) db₁ := by
  refine Settles.succ (fun n => ?_) hrest
  rw [loadHint, hscan]

theorem loadHint_nil (db : TstDb) : Settles (fun n => loadHint n db []) db :=
  Settles.succ (f := fun _ => some db) (fun _ => rfl) (settles_const db)

theorem PutArgs.cur_lt {p : PutArgs} {off : Nat} (h : off < LONG_END) : p.cur off < UINT64 := by
  unfold PutArgs.cur
  rcases Nat.lt_or_ge 8 p.value.length with hlong | hshort
  · rw [if_pos hlong]
    exact lt_trans h (by norm_num [LONG_END, UINT64])
  · rw [if_neg (Nat.not_lt.mpr hshort)]
    have hpow : 256 ^ p.value.length ≤ 256 ^ 8 := Nat.pow_le_pow_right (by decide) hshort
    refine lt_of_lt_of_le (natLE_lt p.value) (le_trans hpow ?_)
    norm_num [UINT64]

/-- The lines of a run make the tree of the run again, from any arena as it was before. -/
theorem Keeps.reload {puts : List PutArgs} {db db' : TstDb}
    (h : Run (Guarded PutArgs.Step fun db p => p.Room db ∧ p.Untorn) db puts db') : ∀ {pre : List PutArgs}
    {tst : Tstdb.TstDb} {t : Tree}, Keeps db pre tst t → ∃ tst' t' lines, Keeps db' (pre ++ puts) tst' t' ∧
      db'.hint = db.hint ++ lines ∧ ∀ dbₗ tstₗ, Mirrors dbₗ tstₗ → Planted tstₗ t → dbₗ.size = db.size →
        ∃ dbₗ' tstₗ', Settles (fun n => loadHint n dbₗ lines) dbₗ' ∧ Mirrors dbₗ' tstₗ' ∧ Planted tstₗ' t' ∧
          SameFiles dbₗ dbₗ' := by
  induction h with
  | nil s =>
      intro pre tst t hk
      refine ⟨tst, t, [], by rwa [List.append_nil], (List.append_nil _).symm, fun dbₗ tstₗ hm hp _ => ?_⟩
      exact ⟨dbₗ, tstₗ, loadHint_nil dbₗ, hm, hp, .refl dbₗ⟩
  | @cons s s₁ s' p ps hs _ ih =>
      intro pre tst t hk
      obtain ⟨⟨hroom, huntorn⟩, hstep⟩ := hs
      obtain ⟨db₁, tst₁, hstep₁, hk₁, hsize₁, -, hhint₁, -⟩ := hk.put hroom
      obtain rfl := hstep₁.unique hstep
      obtain ⟨tst', t', lines, hk', hhint', hload⟩ := ih hk₁
      refine ⟨tst', t', hintLine p.key p.value.length (p.cur s.file.length) ++ lines,
        by rwa [List.append_assoc, List.singleton_append] at hk', ?_, fun dbₗ tstₗ hm hp hsize => ?_⟩
      · rw [hhint', hhint₁, List.append_assoc]
      · obtain ⟨dbₗ₁, tstₗ₁, hset, hm₁, hp₁, hf₁, hsizeₗ⟩ :=
          put_stores hm hp p.ne (p.cur s.file.length) p.small (by rw [hsize]; exact hroom.1)
        rw [hsize] at hp₁ hsizeₗ
        obtain ⟨dbₗ', tstₗ', hset', hm', hp', hf'⟩ := hload dbₗ₁ tstₗ₁ hm₁ hp₁ (hsizeₗ.trans hsize₁.symm)
        exact ⟨dbₗ', tstₗ', loadHint_line (scanHint_line p.ne huntorn p.len (PutArgs.cur_lt hroom.2) lines) hset hset',
          hm', hp', hf₁.trans hf'⟩

/-! ## Opening again -/

/-- The files of an open database are accepted; what loading the hint file makes of an
empty arena is the database. -/
theorem tstOpen_close {db dbₗ : TstDb} (mem : Nat → TstNode) (hmagic : int32LE MAGIC_NUMBER <+: db.file)
    (h : Settles (fun n => loadHint n (createTstDb mem db.file db.hint) db.hint) dbₗ) :
    Settles (fun n => tstOpen n mem (tstClose db)) (some { dbₗ with ready := true }) := by
  obtain ⟨post, hpost⟩ := hmagic
  have hslice : ¬slice db.file 0 4 ≠ int32LE MAGIC_NUMBER := by
    rw [not_not, ← hpost, slice, List.drop_zero]
    exact List.take_left' (length_int32LE _)
  refine (h.map fun db => some { db with ready := true }).congr fun n => ?_
  exact if_neg hslice

/-- The key has a node something was put in. -/
def Readable (db : TstDb) (key : List UInt8) : Prop :=
  ∃ node, Settles (fun n => getNode n db key) node ∧ node ≠ 0 ∧
    ¬((db.data node).smallValueLen = 0 ∧ (db.data node).value = NO_VALUE)

theorem Keeps.not_readable {db : TstDb} {puts : List PutArgs} {tst : Tstdb.TstDb} {t : Tree} (h : Keeps db puts tst t)
    {key : List UInt8} (hk : key ≠ []) (hnone : lastPut puts key = none) : ¬Readable db key := by
  rintro ⟨node, hnode, h0, hset⟩
  obtain ⟨hfound, hcell⟩ := h.getNode db.readPos hk
  have hnode' : Settles (fun n => V1.getNode n (db.at db.readPos) key) node := hnode
  obtain rfl := hfound.unique hnode'
  cases hx : t.find? (letters key) with
  | none => exact h0 (by rw [hx]; rfl)
  | some x =>
      obtain ⟨-, hheld⟩ := hcell x hx
      have hlookup : t.lookup (letters key) = 0 := by
        have := h.held key hk
        rwa [hnone] at this
      rw [hlookup] at hheld
      rw [hx] at hset
      exact hset (Prod.mk.inj hheld)

/-- Two databases that keep the same puts yield the same values for the keys put. -/
theorem Keeps.yields_iff {db db' : TstDb} {puts : List PutArgs} {tst tst' : Tstdb.TstDb} {t t' : Tree}
    (h : Keeps db puts tst t) (h' : Keeps db' puts tst' t') {key v : List UInt8} (hv : lastPut puts key = some v)
    (hk : key ≠ []) (pos pos' : Nat) (value : List UInt8) :
    Yields (db.at pos) key value ↔ Yields (db'.at pos') key value := by
  have one : ∀ {db db' : TstDb} {tst tst' : Tstdb.TstDb} {t t' : Tree} (pos pos' : Nat), Keeps db puts tst t →
      Keeps db' puts tst' t' → Yields (db.at pos) key value → Yields (db'.at pos') key value := by
    intro db db' tst tst' t t' pos pos' h h' hy
    obtain ⟨p₁, hget⟩ := h.get_put pos hk hv
    obtain ⟨p₂, hget'⟩ := h'.get_put pos' hk hv
    obtain ⟨p₃, hy⟩ := hy
    have heq := hget.unique hy
    rcases Classical.em (v.length < INT_END) with hlt | hlt
    · rw [if_pos hlt] at heq hget'
      rw [Option.some.injEq, Prod.mk.injEq] at heq
      exact ⟨p₂, heq.1 ▸ hget'⟩
    · rw [if_neg hlt] at heq
      exact absurd heq (Option.some_ne_none _).symm
  exact ⟨one pos pos' h h', one pos' pos h' h⟩

/-- A database to which only untorn keys were put is restored by closing and opening
it: every key that was put yields the same, and no other is readable. -/
theorem reopen_restores {mem : Nat → TstNode} (mem' : Nat → TstNode) {db₀ db : TstDb} {puts : List PutArgs}
    (h₀ : Settles (fun n => tstOpen n mem ⟨none, none⟩) (some db₀))
    (h : Run (Guarded PutArgs.Step fun db p => p.Room db ∧ p.Untorn) db₀ puts db) :
    ∃ db', Settles (fun n => tstOpen n mem' (tstClose db)) (some db') ∧
      (∀ p ∈ puts, ∀ value pos pos', Yields (db.at pos) p.key value ↔ Yields (db'.at pos') p.key value) ∧
      ∀ key, key ≠ [] → (∀ p ∈ puts, p.key ≠ key) → ¬Readable db' key := by
  obtain ⟨-, -, hhint₀, hsize₀, tst₀, hk₀⟩ := Keeps.create h₀
  obtain ⟨tst, t, lines, hk, hhint, hload⟩ := hk₀.reload h
  rw [List.nil_append] at hk
  rw [hhint₀, List.nil_append] at hhint
  obtain ⟨tstₗ, hmₗ, hpₗ⟩ := Mirrors.create mem' db.file db.hint
  obtain ⟨dbₗ, tstₗ', hset, hm, hp, hf⟩ := hload _ _ hmₗ hpₗ hsize₀.symm
  rw [← hhint] at hset
  have hk' : Keeps { dbₗ with ready := true } puts tstₗ' t :=
    ⟨hm.congr rfl rfl rfl rfl, hp, rfl, by rw [show _ = db.file from hf.file]; exact hk.magic, hk.path,
      by rw [show _ = db.file from hf.file]; exact hk.held, hk.pos⟩
  refine ⟨_, tstOpen_close mem' hk.magic hset, fun p hp value pos pos' => ?_, fun key hne hkey => ?_⟩
  · obtain ⟨v, hv⟩ := Option.ne_none_iff_exists'.mp ((lastPut_eq_none_iff puts p.key).not.mpr fun hall => hall p hp rfl)
    exact hk.yields_iff hk' hv p.ne pos pos' value
  · exact hk'.not_readable hne ((lastPut_eq_none_iff puts key).mpr hkey)

/-- `ab` survives. -/
theorem reopen_restores_putAb : ∃ db db' : TstDb, db.hint = hintLine [97, 98] 1 120 ∧
    (∀ p ∈ [putAb], ∀ value pos pos', Yields (db.at pos) p.key value ↔ Yields (db'.at pos') p.key value) ∧
      ∀ key, key ≠ [] → (∀ p ∈ [putAb], p.key ≠ key) → ¬Readable db' key := by
  obtain ⟨db₀, db, h₀, hroom, hstep, -, -, hhint⟩ := first_put putAb
  obtain ⟨db', -, hyields, hread⟩ := reopen_restores (fun _ => TstNode.fresh) h₀
    (.cons ⟨⟨hroom, fun b hb => by rcases List.mem_pair.mp hb with rfl | rfl <;> decide⟩, hstep⟩ (.nil db))
  exact ⟨db, db', hhint, hyields, hread⟩

/-- `a b` with the value `x`. -/
def putTorn : PutArgs := ⟨[97, 32, 98], [120], by simp, by simp, by simp, letter_x_short⟩

/-- Its line is read as the key `b`, so that `a b` is lost. -/
theorem reopen_tears : ¬ ∀ (mem mem' : Nat → TstNode) (db₀ db : TstDb) (puts : List PutArgs),
    Settles (fun n => tstOpen n mem ⟨none, none⟩) (some db₀) → Run PutArgs.Step db₀ puts db →
    ∃ db', Settles (fun n => tstOpen n mem' (tstClose db)) (some db') ∧
      (∀ p ∈ puts, ∀ value pos pos', Yields (db.at pos) p.key value ↔ Yields (db'.at pos') p.key value) ∧
      ∀ key, key ≠ [] → (∀ p ∈ puts, p.key ≠ key) → ¬Readable db' key := by
  intro H
  obtain ⟨db₀, db, h₀, hroom, hstep, -, -, hhint⟩ := first_put putTorn
  obtain ⟨db', hopen, hyields, -⟩ := H _ (fun _ => TstNode.fresh) db₀ db [putTorn] h₀ (.cons hstep (.nil db))
  obtain ⟨-, -, -, -, tst₀, hk₀⟩ := Keeps.create h₀
  obtain ⟨tst, t, hk⟩ := hk₀.run (.cons ⟨hroom, hstep⟩ (.nil db))
  have hne : putTorn.key ≠ [] := putTorn.ne
  -- before: the value is in the node
  obtain ⟨pos, hget⟩ := hk.get_put 4 hne (show lastPut ([] ++ [putTorn]) putTorn.key = some [120] by decide +kernel)
  have hbefore : Yields (db.at 4) putTorn.key [120] := ⟨pos, hget⟩
  -- after: the loader puts `b` only
  obtain ⟨tstₗ, hmₗ, hpₗ⟩ := Mirrors.create (fun _ => TstNode.fresh) db.file db.hint
  obtain ⟨dbₗ, tstₗ', hset, hm, hp, hf, -⟩ := put_stores hmₗ hpₗ (show ([98] : List UInt8) ≠ [] by simp) 120 1
    (show 0 + 1 < ARENA_LIMIT by norm_num [ARENA_LIMIT])
  have hshort : scanHint db.hint = .short ([98] ++ 9 :: (decimalNat 1 ++ 9 :: (decimalNat 120 ++ [10]))) := by
    rw [show db.hint = hintLine [97, 32, 98] 1 120 from hhint]
    decide +kernel
  have htuple : scanHint ([98] ++ 9 :: (decimalNat 1 ++ 9 :: (decimalNat 120 ++ [10]))) = .tuple [98] 1 120 [10] := by
    decide +kernel
  have hload := loadHint_short hshort (loadHint_line htuple hset (loadHint_nil dbₗ))
  obtain rfl := Option.some.inj ((tstOpen_close _ hk.magic hload).unique hopen)
  have hmiss : ∀ is, ((TTree.nil : Tree).put (letters [98]) (holding 1 120) is).find? (letters putTorn.key) = none := by
    intro is
    rw [find?_put_other _ _ _ _ _ fun hpre => absurd (letters_prefix_iff.mp hpre) (by decide)]
    rfl
  have hm' : Mirrors { dbₗ with ready := true, readPos := 4 } tstₗ' := hm.congr rfl rfl rfl rfl
  obtain ⟨hnode, -⟩ := getNode_finds hm' hp hne
  have hafter := tstGet_absent hnode rfl (by rw [hmiss]; rfl)
  obtain ⟨pos', hstill⟩ := (hyields putTorn List.mem_cons_self [120] 4 4).mp hbefore
  have heq := hafter.unique hstill
  rw [Option.some.injEq, Prod.mk.injEq, Reply.mk.injEq] at heq
  exact absurd heq.1.1.symm Nat.one_ne_zero

end Tstdb.V1
