/-
# `Tstdb.Lib.CText` — C strings and what `scanf` reads from them

The bytes of a C string are a list without the terminator.  `sscanf` is embedded
for the directives a simple line protocol uses: literal bytes, white space, `%s`,
`%d` and `%llu`.  A format is written as in C and compiled to its directives by
`format`; the answer is the list of assigned values, so the number `sscanf`
returns is its length.  (Where the text ends before the first conversion C
returns `EOF`; no caller tells that from fewer conversions than it asked for.)

Conversions follow glibc: `%d` reads a `long`, saturating, and keeps its low 32
bits; `%llu` saturates at the top and negates what follows a minus sign.
-/
import Mathlib

namespace CText

/-- The bytes of a text literal. -/
def ascii (s : String) : List UInt8 := s.toList.map fun c => UInt8.ofNat c.toNat

/-- The C string that starts a byte sequence: all bytes before the first `0`. -/
def cstr (bs : List UInt8) : List UInt8 := bs.takeWhile (· ≠ 0)

/-- A string ends at its terminator. -/
theorem cstr_append_zero (bs cs : List UInt8) : cstr (bs ++ 0 :: cs) = cstr bs := by
  induction bs with
  | nil => rfl
  | cons b bs ih => simp only [cstr, List.cons_append, List.takeWhile_cons] at ih ⊢; rw [ih]

theorem cstr_of_nul_free {bs : List UInt8} (h : 0 ∉ bs) : cstr bs = bs :=
  List.takeWhile_eq_self_iff.mpr fun b hb => by simpa using fun e : b = 0 => h (e ▸ hb)

theorem notMem_cstr (bs : List UInt8) : 0 ∉ cstr bs := fun h => by
  simpa using List.mem_takeWhile_imp h

def isSpace (b : UInt8) : Bool := b = 32 || (9 ≤ b && b ≤ 13)

def isDigit (b : UInt8) : Bool := 48 ≤ b && b ≤ 57

/-! ## Integer arithmetic -/

/-- Keep the low 32 bits as an `int`. -/
def wrap32 (n : Int) : Int := (n + 2147483648) % 4294967296 - 2147483648

theorem wrap32_of_range {n : Int} (h : -2147483648 ≤ n) (h' : n < 2147483648) : wrap32 n = n := by
  unfold wrap32; omega

theorem wrap32_range (n : Int) : -2147483648 ≤ wrap32 n ∧ wrap32 n < 2147483648 := by
  unfold wrap32; omega

/-- A `long` conversion stops at the ends of its range. -/
def saturate64 (n : Int) : Int :=
  if n < -9223372036854775808 then -9223372036854775808
  else if 9223372036854775807 < n then 9223372036854775807
  else n

/-! ## Reading numbers -/

/-- The value of a sequence of decimal digits. -/
def digitsValue (ds : List UInt8) : Nat := ds.foldl (fun v d => 10 * v + (d.toNat - 48)) 0

/-- White space, an optional sign and at least one digit: the sign, the digits and
the rest of the text. -/
def scanNumber (t : List UInt8) : Option (Bool × List UInt8 × List UInt8) :=
  let t := t.dropWhile isSpace
  let (neg, t) := match t with
    | 45 :: t => (true, t)
    | 43 :: t => (false, t)
    | t => (false, t)
  let ds := t.takeWhile isDigit
  if ds = [] then none else some (neg, ds, t.dropWhile isDigit)

def signed (neg : Bool) (ds : List UInt8) : Int :=
  if neg then -(digitsValue ds : Int) else (digitsValue ds : Int)

/-- The value `%d` and `atoi` make of a number. -/
def toInt32 (neg : Bool) (ds : List UInt8) : Int := wrap32 (saturate64 (signed neg ds))

/-- The value `%llu` makes of a number. -/
def toUInt64 (neg : Bool) (ds : List UInt8) : Nat :=
  let v := digitsValue ds
  if 18446744073709551615 < v then 18446744073709551615
  else if neg then (18446744073709551616 - v) % 18446744073709551616
  else v

def atoi (t : List UInt8) : Int :=
  match scanNumber t with
  | some (neg, ds, _) => toInt32 neg ds
  | none => 0

/-! ## `sscanf` -/

inductive Dir where
  | lit (b : UInt8)
  | space
  | str
  | int
  | ull
deriving DecidableEq, Repr

/-- The directives of a format. -/
def format : List Char → List Dir
  | [] => []
  | '%' :: 's' :: cs => .str :: format cs
  | '%' :: 'd' :: cs => .int :: format cs
  | '%' :: 'l' :: 'l' :: 'u' :: cs => .ull :: format cs
  | ' ' :: cs => .space :: format cs
  | c :: cs => .lit (UInt8.ofNat c.toNat) :: format cs

/-- An assigned value. -/
inductive Arg where
  | str (s : List UInt8)
  | int (n : Int)
  | ull (n : Nat)
deriving DecidableEq, Repr

/-- The token `%s` takes, and the rest of the text. -/
def scanToken (t : List UInt8) : Option (List UInt8 × List UInt8) :=
  let t := t.dropWhile isSpace
  let tok := t.takeWhile fun b => !isSpace b
  if tok = [] then none else some (tok, t.dropWhile fun b => !isSpace b)

def scan : List Dir → List UInt8 → List Arg
  | [], _ => []
  | .lit b :: ds, t => if t.head? = some b then scan ds t.tail else []
  | .space :: ds, t => scan ds (t.dropWhile isSpace)
  | .str :: ds, t =>
      match scanToken t with
      | some (tok, t) => .str tok :: scan ds t
      | none => []
  | .int :: ds, t =>
      match scanNumber t with
      | some (neg, n, t) => .int (toInt32 neg n) :: scan ds t
      | none => []
  | .ull :: ds, t =>
      match scanNumber t with
      | some (neg, n, t) => .ull (toUInt64 neg n) :: scan ds t
      | none => []

/-- `sscanf(t, fmt, ..)`. -/
def sscanf (t : List UInt8) (fmt : String) : List Arg := scan (format fmt.toList) t

/-- The first word of a text, empty where there is none, and what is behind it. -/
def nextWord (t : List UInt8) : List UInt8 × List UInt8 :=
  ((t.dropWhile isSpace).takeWhile fun b => !isSpace b, (t.dropWhile isSpace).dropWhile fun b => !isSpace b)

theorem scan_str_cons (ds : List Dir) (t : List UInt8) : scan (.str :: ds) t =
    if (nextWord t).1 = [] then [] else .str (nextWord t).1 :: scan ds (nextWord t).2 := by
  rw [scan, scanToken]
  unfold nextWord
  split_ifs <;> rfl

theorem nextWord_dropWhile (t : List UInt8) : nextWord (t.dropWhile isSpace) = nextWord t := by
  simp only [nextWord, List.dropWhile_idempotent _]

/-- Behind no word there is nothing. -/
theorem nextWord_nil {t : List UInt8} (h : (nextWord t).1 = []) : (nextWord t).2 = [] := by
  unfold nextWord at h ⊢
  cases hd : t.dropWhile isSpace with
  | nil => rfl
  | cons b bs =>
      have hb : isSpace b = false := by
        have hhead := List.head_dropWhile_not (p := isSpace) (l := t) (by rw [hd]; exact List.cons_ne_nil b bs)
        simpa [hd] using hhead
      rw [hd, List.takeWhile_cons_of_pos (by simp [hb])] at h
      cases h

/-- Literal bytes that are there are passed over. -/
theorem scan_lits (ds : List Dir) (t : List UInt8) : ∀ bs : List UInt8, scan (bs.map .lit ++ ds) (bs ++ t) = scan ds t := by
  intro bs
  induction bs with
  | nil => rfl
  | cons b bs ih =>
      rw [List.map_cons, List.cons_append, List.cons_append, scan, List.head?_cons, if_pos rfl]
      exact ih

/-- Where a literal byte is missing nothing is read. -/
theorem scan_lits_nil (ds : List Dir) : ∀ {bs t : List UInt8}, ¬bs <+: t → scan (bs.map .lit ++ ds) t = [] := by
  intro bs
  induction bs with
  | nil => exact fun h => absurd List.nil_prefix h
  | cons b bs ih =>
      intro t h
      rw [List.map_cons, List.cons_append, scan]
      split_ifs with hb
      · cases t with
        | nil => cases hb
        | cons b' t =>
            obtain rfl := Option.some.inj hb
            exact ih fun hp => h (List.cons_prefix_cons.mpr ⟨rfl, hp⟩)
      · rfl

/-- A word at the start of a text, with white space behind it. -/
theorem nextWord_append {word rest : List UInt8} (hne : word ≠ []) (hw : ∀ b ∈ word, isSpace b = false)
    (h : ∀ b ∈ rest.head?, isSpace b = true) : nextWord (word ++ rest) = (word, rest) := by
  have hskip : (word ++ rest).dropWhile isSpace = word ++ rest := by
    obtain ⟨b, word, rfl⟩ := List.exists_cons_of_ne_nil hne
    rw [List.cons_append, List.dropWhile_cons_of_neg (by simp [hw b List.mem_cons_self])]
  have hall : ∀ b ∈ word, (!isSpace b) = true := fun b hb => by simp [hw b hb]
  rw [nextWord, hskip, List.takeWhile_append_of_pos hall, List.dropWhile_append_of_pos hall]
  cases rest with
  | nil => rw [List.takeWhile_nil, List.append_nil, List.dropWhile_nil]
  | cons b rest =>
      have hb : isSpace b = true := h b rfl
      rw [List.takeWhile_cons_of_neg (by simp [hb]), List.dropWhile_cons_of_neg (by simp [hb]), List.append_nil]

theorem scanToken_append {word rest : List UInt8} (hne : word ≠ []) (hw : ∀ b ∈ word, isSpace b = false)
    (h : ∀ b ∈ rest.head?, isSpace b = true) : scanToken (word ++ rest) = some (word, rest) := by
  obtain ⟨h1, h2⟩ := Prod.mk.inj (nextWord_append hne hw h)
  rw [scanToken, h1, h2, if_neg hne]

/-- `%s` takes a word behind one blank, up to the next white space. -/
theorem scan_word (ds : List Dir) {word rest : List UInt8} (hne : word ≠ []) (hw : ∀ b ∈ word, isSpace b = false)
    (h : ∀ b ∈ rest.head?, isSpace b = true) :
    scan (.space :: .str :: ds) (32 :: (word ++ rest)) = .str word :: scan ds rest := by
  rw [scan, List.dropWhile_cons_of_pos (by decide), scan_str_cons, nextWord_dropWhile, nextWord_append hne hw h,
    if_neg hne]

/-- A string `%s` has read is a word of the text. -/
theorem scan_str : ∀ {ds : List Dir} {t s : List UInt8}, .str s ∈ scan ds t →
    s ≠ [] ∧ ∀ b ∈ s, b ∈ t ∧ isSpace b = false := by
  intro ds
  have hdrop : ∀ {t : List UInt8} {b : UInt8} (p : UInt8 → Bool), b ∈ t.dropWhile p → b ∈ t := fun p h =>
    (List.dropWhile_suffix p).subset h
  have hmono : ∀ {t t' s : List UInt8}, (∀ b ∈ t', b ∈ t) → (s ≠ [] ∧ ∀ b ∈ s, b ∈ t' ∧ isSpace b = false) →
      s ≠ [] ∧ ∀ b ∈ s, b ∈ t ∧ isSpace b = false := fun ht h =>
    ⟨h.1, fun b hb => ⟨ht b (h.2 b hb).1, (h.2 b hb).2⟩⟩
  have hnumber : ∀ {t t' ds' : List UInt8} {neg : Bool}, scanNumber t = some (neg, ds', t') → ∀ b ∈ t', b ∈ t := by
    intro t t' ds' neg h b hb
    unfold scanNumber at h
    simp only at h
    split at h <;> split_ifs at h <;> obtain ⟨-, -, rfl⟩ := by simpa using h
    · rename_i he _
      exact hdrop _ (he ▸ List.mem_cons_of_mem _ (hdrop _ hb))
    · rename_i he _
      exact hdrop _ (he ▸ List.mem_cons_of_mem _ (hdrop _ hb))
    · exact hdrop _ (hdrop _ hb)
  induction ds with
  | nil => intro t s h; cases h
  | cons d ds ih =>
      intro t s h
      cases d with
      | lit b =>
          simp only [scan] at h
          split_ifs at h
          · exact hmono (fun b hb => List.mem_of_mem_tail hb) (ih h)
          · cases h
      | space => exact hmono (fun b hb => hdrop _ hb) (ih h)
      | str =>
          simp only [scan, scanToken] at h
          split_ifs at h with hnil
          · cases h
          · rcases List.mem_cons.mp h with he | h
            · obtain rfl := Arg.str.inj he
              refine ⟨hnil, fun b hb => ⟨hdrop _ ((List.takeWhile_prefix _).subset hb), ?_⟩⟩
              simpa using List.mem_takeWhile_imp hb
            · exact hmono (fun b hb => hdrop _ (hdrop _ hb)) (ih h)
      | int =>
          simp only [scan] at h
          cases hn : scanNumber t with
          | none => rw [hn] at h; cases h
          | some r =>
              rw [hn] at h
              rcases List.mem_cons.mp h with he | h
              · cases he
              · exact hmono (hnumber hn) (ih h)
      | ull =>
          simp only [scan] at h
          cases hn : scanNumber t with
          | none => rw [hn] at h; cases h
          | some r =>
              rw [hn] at h
              rcases List.mem_cons.mp h with he | h
              · cases he
              · exact hmono (hnumber hn) (ih h)

theorem wrap32_wrap32 (n : Int) : wrap32 (wrap32 n) = wrap32 n :=
  wrap32_of_range (wrap32_range n).1 (wrap32_range n).2

/-- An `int` that `%d` has read is one. -/
theorem scan_int : ∀ {ds : List Dir} {t : List UInt8} {n : Int}, .int n ∈ scan ds t → wrap32 n = n := by
  intro ds
  induction ds with
  | nil => intro t n h; cases h
  | cons d ds ih =>
      intro t n h
      cases d with
      | lit b =>
          simp only [scan] at h
          split_ifs at h
          · exact ih h
          · cases h
      | space => exact ih h
      | str =>
          simp only [scan] at h
          cases ht : scanToken t with
          | none => rw [ht] at h; cases h
          | some r =>
              rw [ht] at h
              rcases List.mem_cons.mp h with he | h
              · cases he
              · exact ih h
      | int =>
          simp only [scan] at h
          cases hn : scanNumber t with
          | none => rw [hn] at h; cases h
          | some r =>
              rw [hn] at h
              rcases List.mem_cons.mp h with he | h
              · obtain rfl := Arg.int.inj he
                exact wrap32_wrap32 _
              · exact ih h
      | ull =>
          simp only [scan] at h
          cases hn : scanNumber t with
          | none => rw [hn] at h; cases h
          | some r =>
              rw [hn] at h
              rcases List.mem_cons.mp h with he | h
              · cases he
              · exact ih h

theorem scanNumber_dropWhile (t : List UInt8) : scanNumber (t.dropWhile isSpace) = scanNumber t := by
  simp only [scanNumber, List.dropWhile_idempotent _]

/-- A conversion skips white space by itself. -/
theorem scan_space_int (ds : List Dir) (t : List UInt8) :
    scan (.space :: .int :: ds) t = scan (.int :: ds) t := by
  simp only [scan, scanNumber_dropWhile]

/-! ## Writing numbers -/

/-- `%d` and `%llu` of a natural number. -/
def decimalNat (n : Nat) : List UInt8 := (Nat.toDigits 10 n).map fun c => UInt8.ofNat c.toNat

/-- `%d`. -/
def decimal (n : Int) : List UInt8 :=
  if n < 0 then 45 :: decimalNat n.natAbs else decimalNat n.natAbs

theorem toNat_of_isDigit {c : Char} (h : c.isDigit = true) :
    (UInt8.ofNat c.toNat).toNat = c.toNat ∧ 48 ≤ c.toNat ∧ c.toNat ≤ 57 := by
  simp only [Char.isDigit, Bool.and_eq_true, decide_eq_true_eq] at h
  have h1 : 48 ≤ c.toNat := h.1
  have h2 : c.toNat ≤ 57 := h.2
  exact ⟨by rw [UInt8.toNat_ofNat']; omega, h1, h2⟩

theorem isDigit_of_mem_decimalNat {n : Nat} {b : UInt8} (h : b ∈ decimalNat n) : isDigit b = true := by
  obtain ⟨c, hc, rfl⟩ := List.mem_map.mp h
  obtain ⟨he, h1, h2⟩ := toNat_of_isDigit (Nat.isDigit_of_mem_toDigits (by decide) (by decide) hc)
  simp only [isDigit, Bool.and_eq_true, decide_eq_true_eq, UInt8.le_iff_toNat_le, he]
  exact ⟨h1, h2⟩

theorem decimalNat_ne_nil (n : Nat) : decimalNat n ≠ [] := fun h => Nat.toDigits_ne_nil (List.map_eq_nil_iff.mp h)

/-- Reading back what was written. -/
theorem digitsValue_decimalNat (n : Nat) : digitsValue (decimalNat n) = n := by
  rw [digitsValue, decimalNat, List.foldl_map]
  conv_rhs => rw [← Nat.ofDigitChars_ten_toDigits (n := n)]
  rw [Nat.ofDigitChars_eq_foldl]
  refine List.foldl_ext _ _ _ fun v c hc => ?_
  rw [(toNat_of_isDigit (Nat.isDigit_of_mem_toDigits (by decide) (by decide) hc)).1]
  rfl

theorem decimalNat_injective : Function.Injective decimalNat :=
  Function.LeftInverse.injective digitsValue_decimalNat

/-- The digits of a number and at most a sign: no byte below `-`. -/
theorem le_of_mem_decimal {n : Int} {b : UInt8} (h : b ∈ decimal n) : 45 ≤ b ∧ b ≤ 57 := by
  have hdigit : ∀ {m : Nat}, b ∈ decimalNat m → 45 ≤ b ∧ b ≤ 57 := fun hm => by
    have hd := isDigit_of_mem_decimalNat hm
    simp only [isDigit, Bool.and_eq_true, decide_eq_true_eq, UInt8.le_iff_toNat_le] at hd ⊢
    exact ⟨le_trans (by decide) hd.1, hd.2⟩
  unfold decimal at h
  split_ifs at h
  · rcases List.mem_cons.mp h with rfl | hm
    · exact ⟨by decide, by decide⟩
    · exact hdigit hm
  · exact hdigit h

/-- A number as it may be written: perhaps a sign, and digits. -/
structure Numeral where
  /-- `some true` for `-`, `some false` for `+`. -/
  sign : Option Bool
  digits : List UInt8
  ne_nil : digits ≠ []
  isDigit : ∀ d ∈ digits, isDigit d = true

def Numeral.neg (n : Numeral) : Bool := n.sign = some true

def Numeral.text (n : Numeral) : List UInt8 :=
  (match n.sign with
    | none => []
    | some true => [45]
    | some false => [43]) ++ n.digits

def Numeral.value (n : Numeral) : Int := signed n.neg n.digits

/-- A digit is no white space and no sign. -/
theorem isDigit_spec {d : UInt8} (h : isDigit d = true) : 48 ≤ d.toNat ∧ isSpace d = false ∧ d ≠ 45 ∧ d ≠ 43 := by
  have hle : 48 ≤ d.toNat := by
    simp only [isDigit, Bool.and_eq_true, decide_eq_true_eq, UInt8.le_iff_toNat_le] at h
    exact h.1
  refine ⟨hle, ?_, ?_, ?_⟩
  · simp only [isSpace, Bool.or_eq_false_iff, Bool.and_eq_false_iff, decide_eq_false_iff_not,
      UInt8.le_iff_toNat_le]
    refine ⟨?_, Or.inr ?_⟩
    · rintro rfl
      exact absurd hle (by decide)
    · show ¬d.toNat ≤ 13
      omega
  · rintro rfl
    exact absurd hle (by decide)
  · rintro rfl
    exact absurd hle (by decide)

/-- A number is read up to what follows it. -/
theorem scanNumber_numeral (n : Numeral) {rest : List UInt8} (h : ∀ b ∈ rest.head?, isDigit b = false) :
    scanNumber (n.text ++ rest) = some (n.neg, n.digits, rest) := by
  obtain ⟨sign, ds, hne, hall⟩ := n
  have htake : (ds ++ rest).takeWhile isDigit = ds ∧ (ds ++ rest).dropWhile isDigit = rest := by
    rw [List.takeWhile_append_of_pos hall, List.dropWhile_append_of_pos hall]
    cases rest with
    | nil => exact ⟨List.append_nil _, rfl⟩
    | cons b rest =>
        have hb : isDigit b = false := h b rfl
        rw [List.takeWhile_cons_of_neg (by simp [hb]), List.dropWhile_cons_of_neg (by simp [hb])]
        exact ⟨List.append_nil _, rfl⟩
  unfold scanNumber
  cases sign with
  | some neg =>
      cases neg with
      | true =>
          have hs : ¬isSpace 45 = true := by decide
          simp only [Numeral.text, Numeral.neg, List.cons_append, List.nil_append, List.dropWhile_cons_of_neg hs, htake.1,
            htake.2, if_neg hne, decide_true]
      | false =>
          have hs : ¬isSpace 43 = true := by decide
          simp only [Numeral.text, Numeral.neg, List.cons_append, List.nil_append, List.dropWhile_cons_of_neg hs, htake.1,
            htake.2, if_neg hne]
          rfl
  | none =>
      obtain ⟨d, ds', rfl⟩ := List.exists_cons_of_ne_nil hne
      obtain ⟨-, hspace, h45, h43⟩ := isDigit_spec (hall d List.mem_cons_self)
      have hmatch : ∀ t : List UInt8, (match d :: t with
          | 45 :: t => (true, t)
          | 43 :: t => (false, t)
          | t => (false, t)) = (false, d :: t) := fun t => by
        split
        · rename_i he
          exact absurd (List.cons.inj he).1 h45
        · rename_i he
          exact absurd (List.cons.inj he).1 h43
        · rfl
      have hdrop : ¬isSpace d = true := by simp [hspace]
      simp only [List.cons_append] at htake
      simp only [Numeral.text, Numeral.neg, List.nil_append, List.cons_append, List.dropWhile_cons_of_neg hdrop, hmatch,
        htake.1, htake.2, if_neg hne]
      rfl

/-- An `int` is read as it is. -/
theorem Numeral.toInt32 (n : Numeral) (h : wrap32 n.value = n.value) : toInt32 n.neg n.digits = n.value := by
  obtain ⟨h1, h2⟩ := wrap32_range n.value
  rw [h] at h1 h2
  rw [CText.toInt32, show signed n.neg n.digits = n.value from rfl, saturate64, if_neg (by omega), if_neg (by omega), h]

/-- A numeral has no byte below `+`. -/
theorem Numeral.mem_text {n : Numeral} {b : UInt8} (h : b ∈ n.text) : 43 ≤ b.toNat := by
  rcases List.mem_append.mp h with hs | hd
  · obtain ⟨sign, ds, hne, hall⟩ := n
    cases sign with
    | none => cases hs
    | some neg =>
        cases neg with
        | true => rw [List.mem_singleton.mp hs]; decide
        | false => rw [List.mem_singleton.mp hs]; decide
  · have := (isDigit_spec (n.isDigit b hd)).1
    omega

/-- `%d` takes a numeral behind one blank. -/
theorem scan_numeral (ds : List Dir) (n : Numeral) (hn : wrap32 n.value = n.value) {rest : List UInt8}
    (h : ∀ b ∈ rest.head?, CText.isDigit b = false) :
    scan (.space :: .int :: ds) (32 :: (n.text ++ rest)) = .int n.value :: scan ds rest := by
  rw [scan_space_int, scan, ← scanNumber_dropWhile, List.dropWhile_cons_of_pos (by decide), scanNumber_dropWhile,
    scanNumber_numeral n h]
  simp only [n.toInt32 hn]

/-- `%llu` does too. -/
theorem scan_numeral_ull (ds : List Dir) (n : Numeral) {rest : List UInt8} (h : ∀ b ∈ rest.head?, CText.isDigit b = false) :
    scan (.space :: .ull :: ds) (32 :: (n.text ++ rest)) = .ull (toUInt64 n.neg n.digits) :: scan ds rest := by
  rw [scan, scan, scanNumber_dropWhile, ← scanNumber_dropWhile, List.dropWhile_cons_of_pos (by decide),
    scanNumber_dropWhile, scanNumber_numeral n h]

/-- The numeral `%d` writes. -/
def Numeral.decimal (n : Int) : Numeral :=
  ⟨if n < 0 then some true else none, decimalNat n.natAbs, decimalNat_ne_nil _, fun _ h => isDigit_of_mem_decimalNat h⟩

theorem Numeral.text_decimal (n : Int) : (Numeral.decimal n).text = CText.decimal n := by
  unfold Numeral.text Numeral.decimal CText.decimal
  split_ifs <;> rfl

theorem Numeral.neg_decimal (n : Int) : (Numeral.decimal n).neg = decide (n < 0) := by
  unfold Numeral.neg Numeral.decimal
  split_ifs with h
  · exact (decide_eq_true h).symm
  · exact (decide_eq_false h).symm

theorem Numeral.value_decimal (n : Int) : (Numeral.decimal n).value = n := by
  rw [Numeral.value, Numeral.neg_decimal, signed, show (Numeral.decimal n).digits = decimalNat n.natAbs from rfl,
    digitsValue_decimalNat]
  split_ifs with hneg
  · have := of_decide_eq_true hneg
    omega
  · have : ¬n < 0 := fun hlt => hneg (decide_eq_true hlt)
    omega

/-- A number is read back from its decimal text, up to what follows it. -/
theorem scanNumber_decimal (n : Int) {rest : List UInt8} (h : ∀ b ∈ rest.head?, isDigit b = false) :
    scanNumber (decimal n ++ rest) = some (decide (n < 0), decimalNat n.natAbs, rest) := by
  rw [← Numeral.text_decimal, scanNumber_numeral _ h, Numeral.neg_decimal]
  rfl

theorem toInt32_decimal {n : Int} (h : wrap32 n = n) : toInt32 (decide (n < 0)) (decimalNat n.natAbs) = n := by
  have hv := (Numeral.decimal n).toInt32 (by rwa [Numeral.value_decimal])
  rwa [Numeral.value_decimal, Numeral.neg_decimal] at hv

/-- An `int` survives being written and read. -/
theorem atoi_decimal {n : Int} (h : wrap32 n = n) : atoi (decimal n) = n := by
  have hscan : scanNumber (decimal n ++ []) = _ := scanNumber_decimal n (by simp)
  rw [List.append_nil] at hscan
  rw [atoi, hscan]
  exact toInt32_decimal h

theorem decimal_natCast (n : Nat) : decimal (n : Int) = decimalNat n := by
  rw [decimal, if_neg (by omega), Int.natAbs_natCast]

/-! ## Lines of words -/

/-- Words, each behind a space. -/
def spaced (ws : List (List UInt8)) : List UInt8 := ws.flatMap fun w => 32 :: w

section Spaced

variable {w : List UInt8} {ws : List (List UInt8)}

theorem spaced_cons (w : List UInt8) (ws : List (List UInt8)) : spaced (w :: ws) = 32 :: (w ++ spaced ws) := rfl

theorem mem_spaced {b : UInt8} : b ∈ spaced ws ↔ ∃ w ∈ ws, b = 32 ∨ b ∈ w := by
  simp only [spaced, List.mem_flatMap, List.mem_cons]

theorem head?_spaced (ws : List (List UInt8)) : ∀ b ∈ (spaced ws).head?, b = 32 := by
  intro b hb
  cases ws with
  | nil => cases hb
  | cons w ws => exact (Option.some.inj hb).symm

theorem scan_first_word (ds : List Dir) (hne : w ≠ []) (hw : ∀ b ∈ w, isSpace b = false) (ws : List (List UInt8)) :
    scan (.str :: ds) (w ++ spaced ws) = .str w :: scan ds (spaced ws) := by
  have hstop : ∀ b ∈ (spaced ws).head?, isSpace b = true := fun b hb => by rw [head?_spaced ws b hb]; rfl
  rw [scan_str_cons, nextWord_append hne hw hstop, if_neg hne]

theorem scan_next_word (ds : List Dir) (hne : w ≠ []) (hw : ∀ b ∈ w, isSpace b = false) (ws : List (List UInt8)) :
    scan (.space :: .str :: ds) (spaced (w :: ws)) = .str w :: scan ds (spaced ws) :=
  scan_word ds hne hw fun b hb => by rw [head?_spaced ws b hb]; rfl

theorem scan_next_int (ds : List Dir) {n : Int} (hn : wrap32 n = n) (ws : List (List UInt8)) :
    scan (.space :: .int :: ds) (spaced (decimal n :: ws)) = .int n :: scan ds (spaced ws) := by
  have hstop : ∀ b ∈ (spaced ws).head?, isDigit b = false := fun b hb => by rw [head?_spaced ws b hb]; rfl
  have h := scan_numeral ds (.decimal n) (by rwa [Numeral.value_decimal]) hstop
  rwa [Numeral.text_decimal, Numeral.value_decimal] at h

theorem scan_next_ull (ds : List Dir) {n : Nat} (hn : n < 18446744073709551616) (ws : List (List UInt8)) :
    scan (.space :: .ull :: ds) (spaced (decimal n :: ws)) = .ull n :: scan ds (spaced ws) := by
  have hstop : ∀ b ∈ (spaced ws).head?, isDigit b = false := fun b hb => by rw [head?_spaced ws b hb]; rfl
  have h := scan_numeral_ull ds (.decimal n) hstop
  have hvalue : toUInt64 (Numeral.decimal n).neg (Numeral.decimal n).digits = n := by
    have hv : digitsValue (Numeral.decimal n).digits = n := digitsValue_decimalNat n
    have hneg : ¬((n : Int) < 0) := by omega
    simp only [toUInt64, hv, Numeral.neg_decimal, hneg, decide_false, Bool.false_eq_true, if_false,
      if_neg (show ¬18446744073709551615 < n by omega)]
  rwa [Numeral.text_decimal, hvalue] at h

end Spaced

/-! ## Comparing -/

/-- `memcmp(s1, s2, strlen(s2)) == 0` for a string `s1`: where `s1` is shorter its
terminator decides. -/
def startsWith (s1 s2 : List UInt8) : Bool := s2.isPrefixOf s1

/-- The text ends with the other one. -/
def endsWith (s1 s2 : List UInt8) : Bool := s2.isSuffixOf s1

end CText
