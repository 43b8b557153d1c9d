/-
# `Tstdb.Lib.Bytes` — little-endian numbers and byte arrays

The codec of fixed-width little-endian numbers, and byte arrays as total functions
from positions: an array that is reused keeps whatever was written last at each
position, so nothing is ever missing from it, only out of date.
-/
import Mathlib
import Tstdb.Lib.CText

namespace Bytes

open CText

/-! ## Numbers -/

/-- The lowest `w` bytes, lowest first. -/
def bytesLE : Nat → Nat → List UInt8
  | 0, _ => []
  | w + 1, n => UInt8.ofNat (n % 256) :: bytesLE w (n / 256)

def natLE (bs : List UInt8) : Nat := bs.foldr (fun b v => b.toNat + 256 * v) 0

@[simp] theorem length_bytesLE : ∀ w n : Nat, (bytesLE w n).length = w
  | 0, _ => rfl
  | w + 1, n => congrArg (· + 1) (length_bytesLE w (n / 256))

theorem natLE_bytesLE : ∀ {w n : Nat}, n < 256 ^ w → natLE (bytesLE w n) = n := by
  intro w
  induction w with
  | zero => intro n h; simp only [pow_zero, Nat.lt_one_iff] at h; simp [h, bytesLE, natLE]
  | succ w ih =>
      intro n h
      have hdiv : n / 256 < 256 ^ w := Nat.div_lt_of_lt_mul (by rw [pow_succ] at h; omega)
      have htail : natLE (bytesLE w (n / 256)) = n / 256 := ih hdiv
      have hhead : (UInt8.ofNat (n % 256)).toNat = n % 256 := by
        rw [UInt8.toNat_ofNat']
        omega
      show (UInt8.ofNat (n % 256)).toNat + 256 * natLE (bytesLE w (n / 256)) = n
      rw [htail, hhead]
      omega

/-- Bytes that were read as a number are its lowest ones. -/
theorem take_bytesLE_natLE : ∀ (bs : List UInt8) (w : Nat), bs.length ≤ w →
    (bytesLE w (natLE bs)).take bs.length = bs := by
  intro bs
  induction bs with
  | nil => intro w _; rfl
  | cons b bs ih =>
      intro w h
      obtain ⟨w, rfl⟩ : ∃ v, w = v + 1 := ⟨w - 1, (Nat.sub_add_cancel (Nat.one_le_of_lt h)).symm⟩
      have hlt := b.toNat_lt
      have hval : natLE (b :: bs) = b.toNat + 256 * natLE bs := rfl
      have hlow : natLE (b :: bs) % 256 = b.toNat := by rw [hval]; omega
      have hhigh : natLE (b :: bs) / 256 = natLE bs := by rw [hval]; omega
      rw [bytesLE, hlow, hhigh, List.length_cons, List.take_succ_cons, ih w (Nat.le_of_succ_le_succ h), UInt8.ofNat_toNat]

theorem natLE_lt : ∀ bs : List UInt8, natLE bs < 256 ^ bs.length := by
  intro bs
  induction bs with
  | nil => exact Nat.one_pos
  | cons b bs ih =>
      have hlt := b.toNat_lt
      show b.toNat + 256 * natLE bs < 256 ^ (bs.length + 1)
      rw [pow_succ]
      omega

/-- An `int` as it lies in memory. -/
def int32LE (n : Int) : List UInt8 := bytesLE 4 (n % 4294967296).toNat

def int32Of (bs : List UInt8) : Int := wrap32 (natLE bs)

@[simp] theorem length_int32LE (n : Int) : (int32LE n).length = 4 := length_bytesLE 4 _

/-- Writing and reading an `int` keeps its low 32 bits. -/
theorem int32Of_int32LE (n : Int) : int32Of (int32LE n) = wrap32 n := by
  have hlt : (n % 4294967296).toNat < 256 ^ 4 := by
    have : (256 : Nat) ^ 4 = 4294967296 := by norm_num
    omega
  rw [int32Of, int32LE, natLE_bytesLE hlt]
  unfold wrap32
  omega

/-! ## Slices of a file -/

/-- `n` bytes from position `i` on, fewer at the end. -/
def slice (bs : List UInt8) (i n : Nat) : List UInt8 := (bs.drop i).take n

theorem length_slice {bs : List UInt8} {i n : Nat} (h : i + n ≤ bs.length) : (slice bs i n).length = n := by
  simp only [slice, List.length_take, List.length_drop]
  omega

/-- Appending does not change what lies before. -/
theorem slice_append {bs : List UInt8} (cs : List UInt8) {i n : Nat} (h : i + n ≤ bs.length) :
    slice (bs ++ cs) i n = slice bs i n := by
  rw [slice, slice, List.drop_append_of_le_length (by omega),
    List.take_append_of_le_length (by rw [List.length_drop]; omega)]

theorem slice_length_append (bs cs ds : List UInt8) {i n : Nat} (hi : i = bs.length) (hn : n = cs.length) :
    slice (bs ++ (cs ++ ds)) i n = cs := by
  subst hi hn
  simp [slice]

/-! ## Arrays that are reused -/

/-- A byte array, position by position. -/
abbrev Buf := Nat → UInt8

namespace Buf

/-- `memcpy(b + i, bs, n)`. -/
def write (b : Buf) (i : Nat) (bs : List UInt8) : Buf := fun j =>
  if i ≤ j then (bs[j - i]?).getD (b j) else b j

/-- The `n` bytes from position `i` on. -/
def read (b : Buf) (i n : Nat) : List UInt8 := (List.range n).map fun j => b (i + j)

/-- How many bytes come before the first one that stops the search, if it comes in time. -/
def span (stop : UInt8 → Bool) : Nat → Buf → Nat → Option Nat
  | 0, _, _ => none
  | fuel + 1, b, i => if stop (b i) then some 0 else (span stop fuel b (i + 1)).map (· + 1)

@[simp] theorem length_read (b : Buf) (i n : Nat) : (b.read i n).length = n := by simp [read]

theorem write_before (b : Buf) {i j : Nat} (bs : List UInt8) (h : j < i) : b.write i bs j = b j := by
  rw [write, if_neg (by omega)]

theorem write_after (b : Buf) {i j : Nat} (bs : List UInt8) (h : i + bs.length ≤ j) :
    b.write i bs j = b j := by
  rw [write, if_pos (by omega), List.getElem?_eq_none (by omega), Option.getD_none]

theorem write_at (b : Buf) {i j : Nat} {bs : List UInt8} (h : j < bs.length) :
    b.write i bs (i + j) = bs[j] := by
  rw [write, if_pos (by omega), Nat.add_sub_cancel_left, List.getElem?_eq_getElem h, Option.getD_some]

@[simp] theorem write_nil (b : Buf) (i : Nat) : b.write i [] = b := by
  funext j; simp [write]

theorem read_write (b : Buf) (i : Nat) (bs : List UInt8) : (b.write i bs).read i bs.length = bs := by
  refine List.ext_getElem (by simp) fun j h₁ h₂ => ?_
  rw [length_read] at h₁
  simp only [read, List.getElem_map, List.getElem_range]
  exact write_at b h₁

/-- Two arrays that agree up to a position read alike up to it. -/
theorem read_congr {b b' : Buf} {i n : Nat} (h : ∀ j, i ≤ j → j < i + n → b j = b' j) :
    b.read i n = b'.read i n := by
  refine List.map_congr_left fun j hj => ?_
  exact h (i + j) (by omega) (by have := List.mem_range.mp hj; omega)

theorem write_congr {b b' : Buf} {n : Nat} (h : ∀ j < n, b j = b' j) (bs : List UInt8) :
    ∀ j < n + bs.length, b.write n bs j = b'.write n bs j := by
  intro j hj
  by_cases hlt : j < n
  · rw [write_before b bs hlt, write_before b' bs hlt, h j hlt]
  · obtain ⟨k, rfl⟩ : ∃ k, j = n + k := ⟨j - n, by omega⟩
    rw [write_at b (by omega), write_at b' (by omega)]

theorem write_write (b : Buf) (i : Nat) (bs cs : List UInt8) :
    (b.write i bs).write (i + bs.length) cs = b.write i (bs ++ cs) := by
  funext j
  by_cases h₁ : j < i
  · rw [write_before _ _ (by omega), write_before _ _ h₁, write_before _ _ h₁]
  · obtain ⟨k, rfl⟩ : ∃ k, j = i + k := ⟨j - i, by omega⟩
    by_cases h₂ : k < bs.length
    · rw [write_before _ _ (by omega), write_at b h₂,
        write_at b (by rw [List.length_append]; omega), List.getElem_append_left h₂]
    · by_cases h₃ : k < bs.length + cs.length
      · have hk : i + k = i + bs.length + (k - bs.length) := by omega
        rw [write_at b (show k < (bs ++ cs).length by simpa using h₃), List.getElem_append_right (by omega)]
        conv_lhs => rw [hk]
        exact write_at _ (by omega)
      · rw [write_after _ _ (by omega), write_after _ _ (by omega),
          write_after _ _ (by rw [List.length_append]; omega)]

theorem read_append (b : Buf) (i m n : Nat) : b.read i (m + n) = b.read i m ++ b.read (i + m) n := by
  simp only [read, List.range_add, List.map_append, List.map_map]
  congr 1
  exact List.map_congr_left fun j _ => by rw [Function.comp_apply, Nat.add_assoc]

/-- A part of what was written reads as that part. -/
theorem read_write_middle (b : Buf) (i : Nat) (xs ys zs : List UInt8) :
    (b.write i (xs ++ (ys ++ zs))).read (i + xs.length) ys.length = ys := by
  rw [← write_write, ← write_write]
  have hbefore : ∀ j, i + xs.length ≤ j → j < i + xs.length + ys.length →
      (((b.write i xs).write (i + xs.length) ys).write (i + xs.length + ys.length) zs) j =
        ((b.write i xs).write (i + xs.length) ys) j := fun j _ hj => write_before _ zs hj
  rw [read_congr hbefore, read_write]

/-- Writing behind the first bytes leaves them. -/
theorem read_write_before (b : Buf) (n : Nat) (bs : List UInt8) : (b.write n bs).read 0 n = b.read 0 n :=
  read_congr fun _ _ hj => write_before b bs (by omega)

/-- What is written behind the first bytes comes behind them. -/
theorem read_write_append (b : Buf) (n : Nat) (bs : List UInt8) :
    (b.write n bs).read 0 (n + bs.length) = b.read 0 n ++ bs := by
  rw [read_append, read_write_before, Nat.zero_add, read_write]

theorem span_congr {stop : UInt8 → Bool} : ∀ {fuel : Nat} {b b' : Buf} {i n : Nat},
    span stop fuel b i = some n → (∀ j, i ≤ j → j ≤ i + n → b j = b' j) →
    span stop fuel b' i = some n := by
  intro fuel
  induction fuel with
  | zero => intro b b' i n h; simp [span] at h
  | succ fuel ih =>
      intro b b' i n h hb
      simp only [span] at h ⊢
      rw [← hb i le_rfl (by omega)]
      split_ifs at h ⊢ with hs
      · exact h
      · obtain ⟨m, hm, rfl⟩ := Option.map_eq_some_iff.mp h
        rw [ih hm fun j h₁ h₂ => hb j (by omega) (by omega)]
        rfl

/-- The search stops at the first byte that stops it. -/
theorem span_spec {stop : UInt8 → Bool} : ∀ {fuel : Nat} {b : Buf} {i n : Nat},
    span stop fuel b i = some n ↔ n < fuel ∧ stop (b (i + n)) = true ∧ ∀ j < n, stop (b (i + j)) = false := by
  intro fuel
  induction fuel with
  | zero => intro b i n; simp [span]
  | succ fuel ih =>
      intro b i n
      simp only [span]
      by_cases hs : stop (b i) = true
      · rw [if_pos hs, Option.some.injEq]
        constructor
        · rintro rfl
          exact ⟨Nat.succ_pos _, hs, fun j hj => absurd hj (Nat.not_lt_zero j)⟩
        · rintro ⟨-, -, h⟩
          by_contra hne
          have := h 0 (by omega)
          rw [Nat.add_zero, hs] at this
          exact absurd this (by simp)
      · rw [if_neg hs, Option.map_eq_some_iff]
        constructor
        · rintro ⟨m, hm, rfl⟩
          obtain ⟨h₁, h₂, h₃⟩ := ih.mp hm
          refine ⟨by omega, by rw [show i + (m + 1) = i + 1 + m by omega]; exact h₂, fun j hj => ?_⟩
          cases j with
          | zero => simpa using hs
          | succ j => rw [show i + (j + 1) = i + 1 + j by omega]; exact h₃ j (by omega)
        · rintro ⟨h₁, h₂, h₃⟩
          cases n with
          | zero => exact absurd h₂ hs
          | succ m =>
              refine ⟨m, ih.mpr ⟨by omega, by rw [show i + 1 + m = i + (m + 1) by omega]; exact h₂,
                fun j hj => ?_⟩, rfl⟩
              rw [show i + 1 + j = i + (j + 1) by omega]
              exact h₃ (j + 1) (by omega)

end Buf

end Bytes
