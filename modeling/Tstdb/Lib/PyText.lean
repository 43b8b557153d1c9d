/-
# `Tstdb.Lib.PyText` — byte strings as Python 2 takes them apart

`find`, `split` with and without a separator, `int` and slices up to and from an
index, on lists of bytes, and what they make of texts that were put together from
words or from lines.
-/
import Mathlib
import Tstdb.Lib.CText

namespace PyText

open CText

/-- `s.find(sub)`, for a `sub` that is not empty; `none` for `-1`. -/
def find (sub : List UInt8) : List UInt8 → Option Nat
  | [] => none
  | b :: s => if sub.isPrefixOf (b :: s) then some 0 else (find sub s).map (· + 1)

/-- `s.split()` -/
def words (s : List UInt8) : List (List UInt8) := (s.splitOnP isSpace).filter (· ≠ [])

def crlf : List UInt8 := [13, 10]

/-- `s.split('\r\n')` -/
def splitLines : List UInt8 → List (List UInt8)
  | [] => [[]]
  | b :: s =>
      match b, s with
      | 13, 10 :: s => [] :: splitLines s
      | b, s =>
          match splitLines s with
          | [] => [[b]]
          | line :: lines => (b :: line) :: lines

/-- `' '.join(ws)` -/
def join : List (List UInt8) → List UInt8
  | [] => []
  | [w] => w
  | w :: ws => w ++ 32 :: join ws

/-- `int(s)`, `none` where it raises. -/
def int (s : List UInt8) : Option Int :=
  match scanNumber s with
  | some (neg, digits, []) => some (signed neg digits)
  | _ => none

/-- `long(s)`, which also takes a suffix `L`. -/
def long (s : List UInt8) : Option Int :=
  if s.getLast? = some 76 ∨ s.getLast? = some 108 then int s.dropLast else int s

/-- `s.strip()` -/
def strip (s : List UInt8) : List UInt8 := ((s.dropWhile isSpace).reverse.dropWhile isSpace).reverse

/-- `s[:n]` -/
def sliceTo (s : List UInt8) (n : Int) : List UInt8 := if n < 0 then s.take (s.length - n.natAbs) else s.take n.toNat

/-- `s[n:]` -/
def sliceFrom (s : List UInt8) (n : Int) : List UInt8 := if n < 0 then s.drop (s.length - n.natAbs) else s.drop n.toNat

/-! ## Lines -/

section Lines

variable {line rest s : List UInt8}

/-- A line feed closes the line whatever has been read behind it. -/
theorem find_line (h : 13 ∉ line) : find crlf (line ++ crlf ++ rest) = some line.length := by
  induction line with
  | nil => rfl
  | cons b line ih =>
      obtain ⟨hb, hline⟩ := not_or.mp (mt List.mem_cons.mpr h)
      rw [List.cons_append, List.cons_append, find, ih hline]
      have hne : crlf.isPrefixOf (b :: (line ++ crlf ++ rest)) = false := by
        simp [crlf, List.isPrefixOf, hb]
      rw [hne]
      rfl

/-- Until its line feed has been read the line is not found. -/
theorem find_none (h : 13 ∉ line) (hs : s <+: line ++ [13]) : find crlf s = none := by
  induction line generalizing s with
  | nil =>
      cases s with
      | nil => rfl
      | cons b s =>
          obtain ⟨rfl, hs'⟩ := List.cons_prefix_cons.mp hs
          obtain rfl := List.prefix_nil.mp hs'
          rfl
  | cons c line ih =>
      obtain ⟨hc, hline⟩ := not_or.mp (mt List.mem_cons.mpr h)
      cases s with
      | nil => rfl
      | cons b s =>
          obtain ⟨rfl, hs'⟩ := List.cons_prefix_cons.mp hs
          have hne : crlf.isPrefixOf (b :: s) = false := by simp [crlf, List.isPrefixOf, hc]
          rw [find, hne, ih hline hs']
          rfl

theorem splitLines_cons {b : UInt8} (h : b ≠ 13) : splitLines (b :: s) =
    match splitLines s with
    | [] => [[b]]
    | line :: lines => (b :: line) :: lines := by
  rw [splitLines]
  exact fun _ e _ => h e

theorem splitLines_append (h : 13 ∉ line) : splitLines (line ++ crlf ++ s) = line :: splitLines s := by
  induction line with
  | nil => rfl
  | cons b line ih =>
      obtain ⟨hb, hline⟩ := not_or.mp (mt List.mem_cons.mpr h)
      rw [List.cons_append, List.cons_append, splitLines_cons (Ne.symm hb), ih hline]

/-- Lines that end in a line feed are separated by `split`, with nothing behind the last. -/
theorem splitLines_flatMap {lines : List (List UInt8)} (h : ∀ line ∈ lines, 13 ∉ line) :
    splitLines (lines.flatMap (· ++ crlf)) = lines ++ [[]] := by
  induction lines with
  | nil => rfl
  | cons line lines ih =>
      obtain ⟨hline, hlines⟩ := List.forall_mem_cons.mp h
      rw [List.flatMap_cons, splitLines_append hline, ih hlines, List.cons_append]

end Lines

/-! ## Words -/

section Words

variable {w s : List UInt8}

theorem words_single (hne : w ≠ []) (h : ∀ b ∈ w, isSpace b = false) : words w = [w] := by
  rw [words, List.splitOnP_eq_singleton fun b hb => by simp [h b hb]]
  simp [hne]

theorem words_append (hne : w ≠ []) (h : ∀ b ∈ w, isSpace b = false) : words (w ++ 32 :: s) = w :: words s := by
  rw [words, words, List.splitOnP_append_cons_of_forall_mem (fun b hb => by simp [h b hb]) 32 (by decide)]
  simp [hne]

theorem join_cons {ws : List (List UInt8)} (h : ws ≠ []) : join (w :: ws) = w ++ 32 :: join ws := by
  cases ws with
  | nil => exact absurd rfl h
  | cons w' ws => rfl

theorem int_decimal (n : Int) : int (decimal n) = some n := by
  have hscan : scanNumber (decimal n ++ []) = _ := scanNumber_decimal n (by simp)
  rw [List.append_nil] at hscan
  have hvalue := Numeral.value_decimal n
  rw [Numeral.value, Numeral.neg_decimal] at hvalue
  rw [int, hscan]
  exact congrArg some hvalue

theorem long_decimal (n : Int) : long (decimal n) = some n := by
  have hdigit : ∀ b, (decimal n).getLast? = some b → b ≤ 57 := fun b hb =>
    (le_of_mem_decimal (List.mem_of_getLast? hb)).2
  rw [long, if_neg, int_decimal]
  rintro (h | h)
  · exact absurd (hdigit _ h) (by decide)
  · exact absurd (hdigit _ h) (by decide)

theorem decimal_ne_nil (n : Int) : decimal n ≠ [] := by
  have h := int_decimal n
  rintro e
  rw [e] at h
  cases h

/-- A number is one word. -/
theorem isSpace_decimal {n : Int} : ∀ b ∈ decimal n, isSpace b = false := by
  intro b hb
  obtain ⟨hle, hge⟩ := le_of_mem_decimal hb
  simp only [isSpace, Bool.or_eq_false_iff, Bool.and_eq_false_iff, decide_eq_false_iff_not,
    UInt8.le_iff_toNat_le] at hle hge ⊢
  refine ⟨fun e => ?_, Or.inr ?_⟩
  · rw [e] at hle
    exact absurd hle (by decide)
  · have h45 : (45 : UInt8).toNat = 45 := rfl
    have h13 : (13 : UInt8).toNat = 13 := rfl
    omega

end Words

/-! ## Slices -/

section Slices

variable {s t : List UInt8}

theorem strip_word (h : ∀ b ∈ w, isSpace b = false) : strip w = w := by
  have hdrop : ∀ {l : List UInt8}, (∀ b ∈ l, isSpace b = false) → l.dropWhile isSpace = l := by
    intro l hl
    cases l with
    | nil => rfl
    | cons b l => rw [List.dropWhile_cons_of_neg (by simp [hl b List.mem_cons_self])]
  rw [strip, hdrop h, hdrop fun b hb => h b (List.mem_reverse.mp hb), List.reverse_reverse]

theorem sliceTo_append : sliceTo (s ++ t) s.length = s := by
  rw [sliceTo, if_neg (by omega), Int.toNat_natCast, List.take_left]

theorem sliceFrom_append : sliceFrom (s ++ t) s.length = t := by
  rw [sliceFrom, if_neg (by omega), Int.toNat_natCast, List.drop_left]

end Slices

end PyText
