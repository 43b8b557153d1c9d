/-
# `Tstdb.Server.Replies` — one reply for each request

A client that sends one request after the other reads the replies from one stream of
bytes.  It can tell them apart: no reply is the start of another (`OneReply.unique`),
so a stream has at most one reading (`replies_unique`).

Whether a request gets a reply is another matter.  Five commands return without a
word where `sscanf` finds less than they ask for (`Parsed`), and what follows on the
connection answers earlier requests.  Beyond that only the sizes of the arrays and of
the files stand in the way (`InBounds`).
-/
import Mathlib
import Tstdb.Lib.CText
import Tstdb.Lib.Bytes
import Tstdb.Lib.Outcome
import Tstdb.Tst.Arena
import Tstdb.Tst.Runs
import Tstdb.Tst.Scan
import Tstdb.Server.Index
import Tstdb.Server.Store
import Tstdb.Server.Sections
import Tstdb.Server.View
import Tstdb.Server.Pool
import Tstdb.Server.Commands
import Tstdb.Server.Values

namespace Tstdb

open CText Bytes Outcome

/-! ## Replies -/

/-- The replies of one line without a number. -/
def statusLines : List (List UInt8) := ["STORED", "EXISTS", "DELETED", "NOT_FOUND", "ERROR"].map ascii

/-- A value of a reply. -/
structure Entry where
  key : List UInt8
  flag : Int
  body : List UInt8
  sign : Option Nat
  noSpace : 32 ∉ key

def Entry.text (e : Entry) : List UInt8 := valueLine e.key e.flag e.body.length e.sign ++ e.body ++ ascii "\r\n"

/-- The text of a reply with values. -/
def valuesText (es : List Entry) : List UInt8 := es.flatMap Entry.text ++ ascii "END\r\n"

/-- The text of a reply with keys. -/
def keysText (n : Int) (text : List UInt8) : List UInt8 :=
  ascii "KEYS " ++ decimal n ++ ascii " " ++ decimal text.length ++ ascii "\r\n" ++ text ++ ascii "END\r\n"

/-- A complete reply: a status or a number on a line, or values or keys up to `END`. -/
inductive OneReply : List UInt8 → Prop
  | status {line : List UInt8} (h : line ∈ statusLines) : OneReply (line ++ ascii "\r\n")
  | number (n : Int) : OneReply (decimal n ++ ascii "\r\n")
  | values (es : List Entry) : OneReply (valuesText es)
  | keys (n : Int) (text : List UInt8) : OneReply (keysText n text)

section Unique

variable {r r' x x' : List UInt8}

/-- What stands before the first byte that is no part of it is determined. -/
theorem token_unique {p : UInt8 → Bool} {c c' : UInt8} {a a' : List UInt8} (h : ∀ b ∈ a, p b = true)
    (h' : ∀ b ∈ a', p b = true) (hc : p c = false) (hc' : p c' = false) (e : a ++ c :: x = a' ++ c' :: x') :
    a = a' ∧ c = c' ∧ x = x' := by
  have htake : ∀ {a : List UInt8} {c : UInt8} (x : List UInt8), (∀ b ∈ a, p b = true) → p c = false →
      (a ++ c :: x).takeWhile p = a := fun x h hc => by
    rw [List.takeWhile_append_of_pos h, List.takeWhile_cons_of_neg (by simp [hc]), List.append_nil]
  have ha : a = a' := by rw [← htake x h hc, e, htake x' h' hc']
  subst ha
  obtain ⟨hcc, hx⟩ := List.cons.inj (List.append_cancel_left e)
  exact ⟨rfl, hcc, hx⟩

/-- The bytes of a number. -/
def isNumeric (b : UInt8) : Bool := 45 ≤ b && b ≤ 57

theorem isNumeric_decimal {n : Int} : ∀ b ∈ decimal n, isNumeric b = true := fun b hb => by
  simpa [isNumeric] using le_of_mem_decimal hb

theorem isNumeric_decimalNat {n : Nat} : ∀ b ∈ decimalNat n, isNumeric b = true := fun b hb =>
  isNumeric_decimal (n := n) b (by rwa [decimal_natCast])

/-- A length in decimal says how far the text goes. -/
theorem counted_unique {a a' : List UInt8} (h : decimal a.length = decimal a'.length)
    (e : a ++ x = a' ++ x') : a = a' ∧ x = x' := by
  rw [decimal_natCast, decimal_natCast] at h
  exact List.append_inj e (decimalNat_injective h)

/-- What stands behind the length on the line of a value. -/
def signText (sign : Option Nat) : List UInt8 :=
  match sign with
  | none => []
  | some offset => ascii " " ++ decimalNat offset

theorem signText_unique {n n' : Int} {sign sign' : Option Nat}
    (h : decimal n ++ (signText sign ++ 13 :: x) = decimal n' ++ (signText sign' ++ 13 :: x')) :
    decimal n = decimal n' ∧ signText sign = signText sign' ∧ x = x' := by
  have h32 : isNumeric 32 = false := by decide
  have h13 : isNumeric 13 = false := by decide
  cases sign with
  | none =>
      cases sign' with
      | none =>
          obtain ⟨hd, -, hx⟩ := token_unique isNumeric_decimal isNumeric_decimal h13 h13 h
          exact ⟨hd, rfl, hx⟩
      | some off' =>
          obtain ⟨-, hc, -⟩ := token_unique isNumeric_decimal isNumeric_decimal h13 h32 h
          exact absurd hc (by decide)
  | some off =>
      cases sign' with
      | none =>
          obtain ⟨-, hc, -⟩ := token_unique isNumeric_decimal isNumeric_decimal h32 h13 h
          exact absurd hc (by decide)
      | some off' =>
          obtain ⟨hd, -, hrest⟩ := token_unique isNumeric_decimal isNumeric_decimal h32 h32 h
          obtain ⟨ho, -, hx⟩ := token_unique isNumeric_decimalNat isNumeric_decimalNat h13 h13 hrest
          exact ⟨hd, by rw [signText, signText, ho], hx⟩

theorem Entry.text_eq (e : Entry) : e.text ++ x = ascii "VALUE " ++ (e.key ++ 32 :: (decimal e.flag ++ 32 ::
    (decimal e.body.length ++ (signText e.sign ++ 13 :: (10 :: (e.body ++ (13 :: 10 :: x))))))) := by
  have h32 : ascii " " = [32] := by decide
  have hcrlf : ascii "\r\n" = [13, 10] := by decide
  simp only [Entry.text, valueLine, h32, hcrlf, List.append_assoc, List.cons_append, List.nil_append]
  rfl

theorem Entry.text_unique {e e' : Entry} (h : e.text ++ x = e'.text ++ x') : e.text = e'.text ∧ x = x' := by
  have hspace : ∀ e : Entry, ∀ b ∈ e.key, (b != 32) = true := fun e b hb => by
    simpa using fun hc : b = 32 => e.noSpace (hc ▸ hb)
  have hno : ((32 : UInt8) != 32) = false := by decide
  rw [e.text_eq, e'.text_eq] at h
  obtain ⟨hkey, -, h⟩ := token_unique (hspace e) (hspace e') hno hno (List.append_cancel_left h)
  obtain ⟨hflag, -, h⟩ := token_unique isNumeric_decimal isNumeric_decimal (by decide) (by decide) h
  obtain ⟨hlen, hsign, h⟩ := signText_unique h
  obtain ⟨hbody, h⟩ := counted_unique hlen (List.cons.inj h).2
  obtain rfl : x = x' := by simpa using h
  refine ⟨List.append_cancel_right (show e.text ++ x = e'.text ++ x from ?_), rfl⟩
  rw [e.text_eq, e'.text_eq, hkey, hflag, hlen, hsign, hbody]

theorem Entry.head_text (e : Entry) : (e.text ++ x).head? = some 86 := by
  rw [e.text_eq]
  rfl

theorem valuesText_unique : ∀ {es es' : List Entry}, valuesText es ++ x = valuesText es' ++ x' →
    valuesText es = valuesText es' := by
  intro es
  induction es with
  | nil =>
      intro es' h
      cases es' with
      | nil => rfl
      | cons e' es' =>
          have hhead := congrArg List.head? h
          simp only [valuesText, List.flatMap_cons, List.append_assoc, Entry.head_text] at hhead
          exact absurd hhead (by simp [ascii])
  | cons e es ih =>
      intro es' h
      cases es' with
      | nil =>
          have hhead := congrArg List.head? h
          simp only [valuesText, List.flatMap_cons, List.append_assoc, Entry.head_text] at hhead
          exact absurd hhead (by simp [ascii])
      | cons e' es' =>
          simp only [valuesText, List.flatMap_cons, List.append_assoc] at h ih ⊢
          obtain ⟨he, h⟩ := Entry.text_unique h
          rw [he, ih h]

theorem keysText_eq (n : Int) (text : List UInt8) : keysText n text ++ x = ascii "KEYS " ++ (decimal n ++ 32 ::
    (decimal text.length ++ 13 :: (10 :: (text ++ (ascii "END\r\n" ++ x))))) := by
  have h32 : ascii " " = [32] := by decide
  have hcrlf : ascii "\r\n" = [13, 10] := by decide
  simp only [keysText, h32, hcrlf, List.append_assoc, List.cons_append, List.nil_append]

/-- The number and the text of a reply with keys. -/
theorem keysText_parts {n n' : Int} {text text' : List UInt8} (h : keysText n text ++ x = keysText n' text' ++ x') :
    decimal n = decimal n' ∧ text = text' := by
  rw [keysText_eq, keysText_eq] at h
  obtain ⟨hn, -, h⟩ := token_unique isNumeric_decimal isNumeric_decimal (by decide) (by decide)
    (List.append_cancel_left h)
  obtain ⟨hlen, -, h⟩ := token_unique isNumeric_decimal isNumeric_decimal (by decide) (by decide) h
  exact ⟨hn, (counted_unique hlen (List.cons.inj h).2).1⟩

theorem keysText_unique {n n' : Int} {text text' : List UInt8} (h : keysText n text ++ x = keysText n' text' ++ x') :
    keysText n text = keysText n' text' := by
  obtain ⟨hn, rfl⟩ := keysText_parts h
  rw [keysText, keysText, hn]

/-- The line of a reply of one line. -/
structure Plain (line : List UInt8) : Prop where
  noReturn : ∀ b ∈ line, (b != 13) = true
  head : line.head? ≠ some 86 ∧ line.head? ≠ some 75 ∧ line ≠ []
  notEnd : line ≠ ascii "END"

theorem plain_status {line : List UInt8} (h : line ∈ statusLines) : Plain line := by
  have hall : ∀ line ∈ statusLines, (∀ b ∈ line, (b != 13) = true) ∧
      (line.head? ≠ some 86 ∧ line.head? ≠ some 75 ∧ line ≠ []) ∧ line ≠ ascii "END" := by decide +kernel
  obtain ⟨h1, h2, h3⟩ := hall line h
  exact ⟨h1, h2, h3⟩

theorem decimal_ne_nil (n : Int) : decimal n ≠ [] := by
  unfold decimal
  split_ifs
  · exact List.cons_ne_nil _ _
  · exact decimalNat_ne_nil _

theorem plain_number (n : Int) : Plain (decimal n) := by
  have hle : ∀ b ∈ decimal n, b.toNat ≤ 57 := fun b hb => UInt8.le_iff_toNat_le.mp (le_of_mem_decimal hb).2
  have hhead : ∀ {c : UInt8}, 57 < c.toNat → (decimal n).head? ≠ some c := fun hc he => by
    have := hle _ (List.mem_of_head? he)
    omega
  refine ⟨fun b hb => ?_, ⟨hhead (by decide), hhead (by decide), decimal_ne_nil n⟩, fun he => ?_⟩
  · have : 45 ≤ b.toNat := UInt8.le_iff_toNat_le.mp (le_of_mem_decimal hb).1
    simp only [bne_iff_ne, ne_eq]
    rintro rfl
    exact absurd this (by decide)
  · have := hle 69 (he ▸ by decide)
    exact absurd this (by decide)

theorem Plain.unique {line line' : List UInt8} (h : Plain line) (h' : Plain line')
    (e : line ++ 13 :: x = line' ++ 13 :: x') : line = line' :=
  (token_unique h.noReturn h'.noReturn (by decide) (by decide) e).1

theorem Plain.head_append {line : List UInt8} (h : Plain line) :
    (line ++ x).head? ≠ some 86 ∧ (line ++ x).head? ≠ some 75 := by
  rw [List.head?_append_of_ne_nil _ h.head.2.2]
  exact ⟨h.head.1, h.head.2.1⟩

theorem Plain.ne_values {line : List UInt8} {es : List Entry} (h : Plain line) :
    line ++ 13 :: x ≠ valuesText es ++ x' := by
  intro e
  cases es with
  | nil =>
      have hend : ∀ b ∈ ascii "END", (b != 13) = true := by decide +kernel
      exact h.notEnd (token_unique h.noReturn hend (by decide) (by decide)
        (show line ++ 13 :: x = ascii "END" ++ 13 :: (10 :: x') from e)).1
  | cons v es =>
      have hhead := congrArg List.head? e
      simp only [valuesText, List.flatMap_cons, List.append_assoc, Entry.head_text] at hhead
      exact h.head_append.1 hhead

theorem Plain.ne_keys {line : List UInt8} {n : Int} {text : List UInt8} (h : Plain line) :
    line ++ 13 :: x ≠ keysText n text ++ x' := by
  intro e
  rw [keysText_eq] at e
  exact h.head_append.2 (congrArg List.head? e)

theorem valuesText_ne_keys {es : List Entry} {n : Int} {text : List UInt8} :
    valuesText es ++ x ≠ keysText n text ++ x' := by
  intro e
  rw [keysText_eq] at e
  have hhead := congrArg List.head? e
  cases es with
  | nil => exact absurd hhead (by simp [valuesText, ascii])
  | cons v es =>
      simp only [valuesText, List.flatMap_cons, List.append_assoc, Entry.head_text] at hhead
      exact absurd hhead (by simp [ascii])

/-- The three kinds of replies. -/
theorem OneReply.kinds (h : OneReply r) : (∃ line, Plain line ∧ r = line ++ ascii "\r\n") ∨
    (∃ es, r = valuesText es) ∨ ∃ n text, r = keysText n text := by
  cases h with
  | status h => exact Or.inl ⟨_, plain_status h, rfl⟩
  | number n => exact Or.inl ⟨_, plain_number n, rfl⟩
  | values es => exact Or.inr (Or.inl ⟨es, rfl⟩)
  | keys n text => exact Or.inr (Or.inr ⟨n, text, rfl⟩)

/-- No reply is the start of another. -/
theorem OneReply.unique (h : OneReply r) (h' : OneReply r') (e : r ++ x = r' ++ x') : r = r' := by
  have hline : ∀ line x : List UInt8, line ++ ascii "\r\n" ++ x = line ++ 13 :: (10 :: x) := fun line x => by
    rw [List.append_assoc]
    rfl
  rcases h.kinds with ⟨line, hp, rfl⟩ | ⟨es, rfl⟩ | ⟨n, text, rfl⟩ <;>
    rcases h'.kinds with ⟨line', hp', rfl⟩ | ⟨es', rfl⟩ | ⟨n', text', rfl⟩
  · rw [hline, hline] at e
    rw [hp.unique hp' e]
  · exact absurd (hline _ _ ▸ e) hp.ne_values
  · exact absurd (hline _ _ ▸ e) hp.ne_keys
  · exact absurd (hline _ _ ▸ e.symm) hp'.ne_values
  · exact valuesText_unique e
  · exact absurd e valuesText_ne_keys
  · exact absurd (hline _ _ ▸ e.symm) hp'.ne_keys
  · exact absurd e.symm valuesText_ne_keys
  · exact keysText_unique e

theorem OneReply.ne_nil (h : OneReply r) : r ≠ [] := by
  rcases h.kinds with ⟨line, hp, rfl⟩ | ⟨es, rfl⟩ | ⟨n, text, rfl⟩
  · exact List.append_ne_nil_of_left_ne_nil hp.head.2.2 _
  · exact List.append_ne_nil_of_right_ne_nil _ (by decide)
  · exact List.append_ne_nil_of_right_ne_nil _ (by decide)

/-- A stream of replies has one reading. -/
theorem replies_unique : ∀ {rs rs' : List (List UInt8)}, (∀ r ∈ rs, OneReply r) → (∀ r ∈ rs', OneReply r) →
    rs.flatten = rs'.flatten → rs = rs' := by
  intro rs
  induction rs with
  | nil =>
      intro rs' _ h' e
      cases rs' with
      | nil => rfl
      | cons r' rs' =>
          exact absurd (List.append_eq_nil_iff.mp e.symm).1 (h' r' (List.mem_cons_self ..)).ne_nil
  | cons r rs ih =>
      intro rs' h h' e
      cases rs' with
      | nil => exact absurd (List.append_eq_nil_iff.mp e).1 (h r (List.mem_cons_self ..)).ne_nil
      | cons r' rs' =>
          obtain ⟨hr, hrs⟩ := List.forall_mem_cons.mp h
          obtain ⟨hr', hrs'⟩ := List.forall_mem_cons.mp h'
          obtain rfl := hr.unique hr' e
          rw [ih hrs hrs' (List.append_cancel_left e)]

end Unique

/-! ## What the commands ask for -/

/-- `sscanf` finds all that the command asks for. -/
def Parsed (line : List UInt8) : Prop :=
  match methodOf line with
  | .set => ∃ key flag expire bodyLen, setArgs line = some (key, flag, expire, bodyLen) ∧ 0 ≤ bodyLen
  | .cas => ∃ key flag expire bodyLen sign, casArgs line = some (key, flag, expire, bodyLen, sign) ∧ 0 ≤ bodyLen
  | .delete => (deleteArgs line).isSome
  | .incr | .decr => (incrOrDecrArgs line).isSome
  | _ => True

section Bounds

variable {ι : Type} (ix : ScanIndex ι) (now : Int) (m : Key → Nat) (st : Store ι)

/-- The keys a range command lists fit `g_prefix_buf`. -/
def ListFits (args : Option ListCall) : Prop :=
  ∀ call r, args = some call → ix.list st.index call = some r → (resultText r.1).length < PREFIX_BUF_SIZE

/-- Whatever the command writes stays inside its arrays. -/
def InBounds (line : List UInt8) (header : Buf) : Prop :=
  match methodOf line with
  | .set => overruns (sscanf line "%s %s %d %d %d") [methodArray, keyArray] = [] ∧
      ∀ key flag expire bodyLen, setArgs line = some (key, flag, expire, bodyLen) → bodyLen ≤ MAX_BODY_SIZE
  | .cas => overruns (sscanf line "%s %s %d %d %d %llu") [methodArray, keyArray] = [] ∧
      ∀ key flag expire bodyLen sign, casArgs line = some (key, flag, expire, bodyLen, sign) →
        offsetOf m key = sign → bodyLen ≤ MAX_BODY_SIZE
  | .delete => overruns (sscanf line "%s %s") [methodArray, keyArray] = []
  | .incr | .decr => overruns (sscanf line "%s %s %d") [methodArray, keyArray] = [] ∧
      ∀ key delta off r, incrOrDecrArgs line = some (key, delta) → recordOf m st.dataFile key = some (off, r) →
        r.body.length < HEADER_BUF_SIZE
  | .below => overruns (sscanf line "prefix %s %d %s") [keyArray, (.sortingOrder, 10)] = [] ∧
      ListFits ix st (prefixArgs line)
  | .less => overruns (sscanf line "less %s %d") [keyArray] = [] ∧ ListFits ix st (lessArgs line)
  | .greater => overruns (sscanf line "greater %s %d") [keyArray] = [] ∧ ListFits ix st (greaterArgs line)
  | .get => ∃ ws, getWords header = some ws ∧ Fitting m st.dataFile now false 0 ws
  | .gets => ∃ ws, getWords header = some ws ∧ Fitting m st.dataFile now true 0 ws
  | .quit | .unknown => True

/-- The files have room for one more request. -/
structure Store.Roomy (st : Store ι) : Prop where
  data : st.dataFile.length + 12 + MAX_BODY_SIZE < FILE_LIMIT
  log : st.binlog.length + MAX_BODY_SIZE * (12 + MAX_KEY_SIZE) < FILE_LIMIT

end Bounds

/-! ## The commands one by one -/

section Commands

variable {ι : Type} {ix : ScanIndex ι} {V : View ix.toIndex} {m : Key → Nat} {now : Int} {st : Store ι}
  {line : List UInt8} {β : Type}

/-- The computation sends one reply exactly when the line was parsed, and ends without
a fault exactly when it fits. -/
def AnswersOne (parsed fits : Prop) (x : Except Fault (List (List UInt8) × β)) : Prop :=
  Ends (fun _ => ¬fits) (fun r => fits ∧ (OneReply r.1.flatten ↔ parsed)) x

theorem scanned_ends {α : Type} (fmt : String) (arrays : List (CArray × Nat)) (args : Option α) :
    Ends (fun _ => overruns (sscanf line fmt) arrays ≠ [])
      (fun a => overruns (sscanf line fmt) arrays = [] ∧ a = args) (scanned line fmt arrays args) := by
  unfold scanned
  cases h : overruns (sscanf line fmt) arrays with
  | nil => exact ⟨rfl, rfl⟩
  | cons a as => exact List.cons_ne_nil a as

theorem not_oneReply_nil : ¬OneReply ([] : List (List UInt8)).flatten := fun h => h.ne_nil rfl

theorem Reply.text_oneReply {reply : Reply} (h : reply ≠ .silent) (h' : ∀ sign, reply ≠ .value sign) :
    OneReply [reply.text].flatten := by
  have hstatus : ∀ {line : List UInt8}, line ∈ statusLines → OneReply [line ++ ascii "\r\n"].flatten := fun h => by
    rw [List.flatten_singleton]
    exact OneReply.status h
  cases reply with
  | stored => exact hstatus (show ascii "STORED" ∈ statusLines by decide)
  | «exists» => exact hstatus (show ascii "EXISTS" ∈ statusLines by decide)
  | deleted => exact hstatus (show ascii "DELETED" ∈ statusLines by decide)
  | notFound => exact hstatus (show ascii "NOT_FOUND" ∈ statusLines by decide)
  | number n =>
      rw [List.flatten_singleton]
      exact OneReply.number n
  | value sign => exact absurd rfl (h' sign)
  | silent => exact absurd rfl h

theorem setArgs_eq {key : List UInt8} {flag expire bodyLen : Int}
    (h : setArgs line = some (key, flag, expire, bodyLen)) :
    ∃ method, sscanf line "%s %s %d %d %d" = [.str method, .str key, .int flag, .int expire, .int bodyLen] := by
  unfold setArgs at h
  split at h
  · rename_i method _ _ _ _ he
    obtain ⟨rfl, rfl, rfl, rfl⟩ := by simpa using h
    exact ⟨method, he⟩
  · cases h

theorem casArgs_eq {key : List UInt8} {flag expire bodyLen : Int} {sign : Nat}
    (h : casArgs line = some (key, flag, expire, bodyLen, sign)) :
    ∃ method, sscanf line "%s %s %d %d %d %llu" =
      [.str method, .str key, .int flag, .int expire, .int bodyLen, .ull sign] := by
  unfold casArgs at h
  split at h
  · rename_i method _ _ _ _ _ he
    obtain ⟨rfl, rfl, rfl, rfl, rfl⟩ := by simpa using h
    exact ⟨method, he⟩
  · cases h

theorem deleteArgs_eq {key : List UInt8} (h : deleteArgs line = some key) :
    ∃ method, sscanf line "%s %s" = [.str method, .str key] := by
  unfold deleteArgs at h
  split at h
  · rename_i method _ he
    obtain rfl := Option.some.inj h
    exact ⟨method, he⟩
  · cases h

theorem incrOrDecrArgs_eq {key : List UInt8} {delta : Int} (h : incrOrDecrArgs line = some (key, delta)) :
    ∃ method, sscanf line "%s %s %d" = [.str method, .str key, .int delta] := by
  unfold incrOrDecrArgs at h
  split at h
  · rename_i method _ _ he
    obtain ⟨rfl, rfl⟩ := by simpa using h
    exact ⟨method, he⟩
  · cases h

/-- The second word of a line is a key that fits its array. -/
theorem exists_wireKey {fmt : String} {method key : List UInt8} {rest : List Arg} (h0 : 0 ∉ line)
    (hscan : sscanf line fmt = .str method :: .str key :: rest)
    (hfits : overruns (sscanf line fmt) [methodArray, keyArray] = []) : ∃ k : WireKey, k.bytes = key := by
  have hmem : Arg.str key ∈ scan (format fmt.toList) line := by
    show Arg.str key ∈ sscanf line fmt
    rw [hscan]
    exact List.mem_cons_of_mem _ (List.mem_cons_self ..)
  obtain ⟨hne, hb⟩ := scan_str hmem
  have hshort : key.length < MAX_KEY_SIZE := by
    rw [hscan] at hfits
    by_contra hlong
    simp only [overruns, List.filterMap_cons, Arg.text?, List.zip_cons_cons, keyArray,
      if_pos (Nat.not_lt.mp hlong)] at hfits
    split at hfits <;> cases hfits
  exact ⟨⟨⟨key, hne, fun h => h0 (hb 0 h).1⟩, hshort⟩, rfl⟩

theorem Store.Roomy.key (h : st.Roomy) (k : WireKey) : st.binlog.length + 12 + k.bytes.length < FILE_LIMIT := by
  have hlog := h.log
  have hk := k.short
  have hle : 12 + MAX_KEY_SIZE ≤ MAX_BODY_SIZE * (12 + MAX_KEY_SIZE) := Nat.le_mul_of_pos_left _ (by decide)
  omega

theorem perform_ok {acts : List Act} {st' : Store ι} (reply : Reply)
    (h : Act.execAll ix.toIndex st acts = .ok st') : perform ix st (.ok (reply, acts)) = .ok (reply, st') := by
  simp only [perform, bind, Except.bind, h]
  rfl

/-- With room a store is carried out. -/
theorem perform_storeActs (hw : ix.Works V) (hr : V.Rep st.index m) (hroom : st.Roomy) (k : WireKey) (reply : Reply)
    (bodyLen flag expire : Int) (body : List UInt8) (hb : body.length ≤ MAX_BODY_SIZE) :
    ∃ st', perform ix st (.ok (reply, storeActs st.dataFile.length k.bytes bodyLen flag expire body))
      = .ok (reply, st') := by
  obtain ⟨i', hi'⟩ := hw.put k.toKey st.dataFile.length hr
  have hdata := hroom.data
  exact ⟨_, perform_ok reply (execAll_storeActs_eq (by omega) (hroom.key k) hi')⟩

theorem perform_deleteActs (hw : ix.Works V) (hr : V.Rep st.index m) (hroom : st.Roomy) (k : WireKey)
    (reply : Reply) : ∃ st', perform ix st (.ok (reply, deleteActs k.bytes)) = .ok (reply, st') := by
  obtain ⟨-, i', hi'⟩ := hw.delete k.toKey hr
  exact ⟨_, perform_ok reply (execAll_deleteActs_eq (hroom.key k) hi')⟩

theorem perform_nil (reply : Reply) : perform ix st (.ok (reply, [])) = .ok (reply, st) := rfl

theorem cmdDoSet_answers (hw : ix.Works V) (hr : V.Rep st.index m) (hroom : st.Roomy) (h0 : 0 ∉ line)
    (hn : endsWith line (ascii " noreply") = false) (body : Buf) :
    AnswersOne (∃ key flag expire bodyLen, setArgs line = some (key, flag, expire, bodyLen) ∧ 0 ≤ bodyLen)
      (overruns (sscanf line "%s %s %d %d %d") [methodArray, keyArray] = [] ∧
        ∀ key flag expire bodyLen, setArgs line = some (key, flag, expire, bodyLen) → bodyLen ≤ MAX_BODY_SIZE)
      (cmdDoSet ix now line body st) := by
  refine Ends.bind (Ends.excuse (scanned_ends _ _ _) fun e he => fun hf => he hf.1) ?_
  rintro _ ⟨hfits, rfl⟩
  cases ha : setArgs line with
  | none =>
      refine ⟨⟨hfits, fun key flag expire bodyLen h => absurd h (by simp)⟩, iff_of_false not_oneReply_nil ?_⟩
      rintro ⟨key, flag, expire, bodyLen, h, -⟩
      cases h
  | some args =>
      obtain ⟨key, flag, expire, bodyLen⟩ := args
      obtain ⟨method, hscan⟩ := setArgs_eq ha
      obtain ⟨k, rfl⟩ := exists_wireKey h0 hscan hfits
      simp only
      rcases lt_or_ge bodyLen 0 with hneg | hpos
      · rw [if_pos hneg, ends_pure]
        refine ⟨⟨hfits, fun key flag expire bodyLen' h => ?_⟩, iff_of_false not_oneReply_nil ?_⟩
        · obtain ⟨-, -, -, rfl⟩ := by simpa using h
          exact le_trans (le_of_lt hneg) (by decide)
        · rintro ⟨key, flag, expire, bodyLen', h, hge⟩
          obtain ⟨-, -, -, rfl⟩ := by simpa using h
          omega
      · rw [if_neg (by omega), bodyOf]
        rcases lt_or_ge (MAX_BODY_SIZE : Int) bodyLen with hbig | hle
        · rw [if_pos hbig]
          exact fun hf => absurd (hf.2 _ _ _ _ rfl) (by omega)
        · rw [if_neg (by omega)]
          obtain ⟨st', hst'⟩ := perform_storeActs hw hr hroom k .stored bodyLen flag
            (if 0 < expire then wrap32 (expire + now) else expire) (body.read 0 bodyLen.toNat)
            (by rw [Buf.length_read]; omega)
          simp only [bind, Except.bind, setPlan, hst', sendUnlessNoreply, hn, pure, Except.pure]
          refine ⟨⟨hfits, fun key flag expire bodyLen' h => ?_⟩, iff_of_true ?_ ⟨_, _, _, _, rfl, hpos⟩⟩
          · obtain ⟨-, -, -, rfl⟩ := by simpa using h
            exact hle
          · exact Reply.text_oneReply (by simp) (by simp)

/-- What a `cas` does once it knows the offset. -/
theorem casActs_eq {key : List UInt8} {bodyLen flag expire : Int} {body : Buf} {sign v : Nat}
    (hv : ix.get st.index key = some v) : casActs ix st key bodyLen flag expire body sign =
      if v = sign then (if (MAX_BODY_SIZE : Int) < bodyLen then .error (.overrun .sBodyBuf)
        else .ok (.stored, storeActs st.dataFile.length key bodyLen flag expire (body.read 0 bodyLen.toNat)))
      else .ok (.exists, []) := by
  unfold casActs casPlan
  rw [hv]
  simp only [returns, Option.elim_some, bind, Except.bind, pure, Except.pure]
  rcases Classical.em (v = sign) with he | he
  · simp only [he, ne_eq, not_true_eq_false, if_false, if_true, true_and]
    rfl
  · simp only [he, ne_eq, not_false_eq_true, if_true, if_false, reduceCtorEq, false_and]

theorem cmdDoCas_answers (hw : ix.Works V) (hr : V.Rep st.index m) (hroom : st.Roomy) (h0 : 0 ∉ line)
    (hn : endsWith line (ascii " noreply") = false) (body : Buf) :
    AnswersOne
      (∃ key flag expire bodyLen sign, casArgs line = some (key, flag, expire, bodyLen, sign) ∧ 0 ≤ bodyLen)
      (overruns (sscanf line "%s %s %d %d %d %llu") [methodArray, keyArray] = [] ∧
        ∀ key flag expire bodyLen sign, casArgs line = some (key, flag, expire, bodyLen, sign) →
          offsetOf m key = sign → bodyLen ≤ MAX_BODY_SIZE)
      (cmdDoCas ix line body st) := by
  refine Ends.bind (Ends.excuse (scanned_ends _ _ _) fun e he => fun hf => he hf.1) ?_
  rintro _ ⟨hfits, rfl⟩
  cases ha : casArgs line with
  | none =>
      refine ⟨⟨hfits, fun key flag expire bodyLen sign h => absurd h (by simp)⟩, iff_of_false not_oneReply_nil ?_⟩
      rintro ⟨key, flag, expire, bodyLen, sign, h, -⟩
      cases h
  | some args =>
      obtain ⟨key, flag, expire, bodyLen, sign⟩ := args
      obtain ⟨method, hscan⟩ := casArgs_eq ha
      obtain ⟨k, rfl⟩ := exists_wireKey h0 hscan hfits
      have hv : ix.get st.index k.bytes = some (offsetOf m k.bytes) := hw.get_word hr k.nul
      simp only
      rcases lt_or_ge bodyLen 0 with hneg | hpos
      · rw [if_pos hneg, ends_pure]
        refine ⟨⟨hfits, fun key flag expire bodyLen' sign h _ => ?_⟩, iff_of_false not_oneReply_nil ?_⟩
        · obtain ⟨-, -, -, rfl, -⟩ := by simpa using h
          exact le_trans (le_of_lt hneg) (by decide)
        · rintro ⟨key, flag, expire, bodyLen', sign, h, hge⟩
          obtain ⟨-, -, -, rfl, -⟩ := by simpa using h
          omega
      · rw [if_neg (by omega), casActs_eq hv]
        have hparsed : ∃ key' flag' expire' bodyLen' sign', some (k.bytes, flag, expire, bodyLen, sign) =
            some (key', flag', expire', bodyLen', sign') ∧ 0 ≤ bodyLen' := ⟨_, _, _, _, _, rfl, hpos⟩
        rcases Classical.em (offsetOf m k.bytes = sign) with he | he
        · rw [if_pos he]
          rcases lt_or_ge (MAX_BODY_SIZE : Int) bodyLen with hbig | hle
          · rw [if_pos hbig]
            exact fun hf => absurd (hf.2 _ _ _ _ _ rfl he) (by omega)
          · rw [if_neg (by omega)]
            obtain ⟨st', hst'⟩ := perform_storeActs hw hr hroom k .stored bodyLen flag expire
              (body.read 0 bodyLen.toNat) (by rw [Buf.length_read]; omega)
            simp only [bind, Except.bind, hst', sendUnlessNoreply, hn, pure, Except.pure]
            refine ⟨⟨hfits, fun key flag expire bodyLen' sign h _ => ?_⟩, iff_of_true ?_ hparsed⟩
            · obtain ⟨-, -, -, rfl, -⟩ := by simpa using h
              exact hle
            · exact Reply.text_oneReply (by simp) (by simp)
        · rw [if_neg he]
          simp only [bind, Except.bind, perform_nil, sendUnlessNoreply, hn, pure, Except.pure]
          refine ⟨⟨hfits, fun key flag expire bodyLen' sign' h he' => ?_⟩, iff_of_true ?_ hparsed⟩
          · obtain ⟨rfl, -, -, -, rfl⟩ := by simpa using h
            exact absurd he' he
          · exact Reply.text_oneReply (by simp) (by simp)

theorem cmdDoDelete_answers (hw : ix.Works V) (hr : V.Rep st.index m) (hroom : st.Roomy) (h0 : 0 ∉ line) :
    AnswersOne (deleteArgs line).isSome (overruns (sscanf line "%s %s") [methodArray, keyArray] = [])
      (cmdDoDelete ix line st) := by
  refine Ends.bind (Ends.excuse (scanned_ends _ _ _) fun e he => fun hf => he hf) ?_
  rintro _ ⟨hfits, rfl⟩
  cases ha : deleteArgs line with
  | none => exact ⟨hfits, iff_of_false not_oneReply_nil (by simp)⟩
  | some key =>
      obtain ⟨method, hscan⟩ := deleteArgs_eq ha
      obtain ⟨k, rfl⟩ := exists_wireKey h0 hscan hfits
      have hv : ix.get st.index k.bytes = some (offsetOf m k.bytes) := hw.get_word hr k.nul
      simp only [deletePlan, hv, returns, Option.elim_some, bind, Except.bind]
      rcases Classical.em (offsetOf m k.bytes = 0) with he | he
      · simp only [he, if_true, pure, Except.pure, perform_nil]
        exact ⟨hfits, iff_of_true (Reply.text_oneReply (by simp) (by simp)) rfl⟩
      · obtain ⟨st', hst'⟩ := perform_deleteActs hw hr hroom k .deleted
        simp only [he, if_false, pure, Except.pure, hst']
        exact ⟨hfits, iff_of_true (Reply.text_oneReply (by simp) (by simp)) rfl⟩

theorem incrOrDecr_answers (hw : ix.Works V) (hr : V.Rep st.index m) (hc : Complete m st.dataFile)
    (hroom : st.Roomy) (h0 : 0 ∉ line) (isDecr : Bool) :
    AnswersOne (incrOrDecrArgs line).isSome
      (overruns (sscanf line "%s %s %d") [methodArray, keyArray] = [] ∧
        ∀ key delta off r, incrOrDecrArgs line = some (key, delta) → recordOf m st.dataFile key = some (off, r) →
          r.body.length < HEADER_BUF_SIZE)
      (incrOrDecr ix line isDecr st) := by
  refine Ends.bind (Ends.excuse (scanned_ends _ _ _) fun e he => fun hf => he hf.1) ?_
  rintro _ ⟨hfits, rfl⟩
  cases ha : incrOrDecrArgs line with
  | none => exact ⟨⟨hfits, fun key delta off r h => absurd h (by simp)⟩, iff_of_false not_oneReply_nil (by simp)⟩
  | some args =>
      obtain ⟨key, delta⟩ := args
      obtain ⟨method, hscan⟩ := incrOrDecrArgs_eq ha
      obtain ⟨k, rfl⟩ := exists_wireKey h0 hscan hfits
      have hv : ix.get st.index k.bytes = some (offsetOf m k.bytes) := hw.get_word hr k.nul
      simp only [incrOrDecrPlan, hv, returns, Option.elim_some, bind, Except.bind]
      rcases Classical.em (offsetOf m k.bytes = 0) with he | he
      · simp only [he, if_true, pure, Except.pure, perform_nil]
        refine ⟨⟨hfits, fun key delta off r h hrec => ?_⟩, iff_of_true (Reply.text_oneReply (by simp) (by simp)) rfl⟩
        obtain ⟨rfl, -⟩ := by simpa using h
        rw [recordOf_zero he] at hrec
        cases hrec
      · obtain ⟨r, hrec, hof⟩ := recordOf_of_offset he (hc.word _)
        obtain ⟨htmp, hbody, -⟩ := readTmp_of_recordAt hrec
        simp only [he, if_false, htmp, Int.toNat_natCast, hbody]
        rcases Nat.lt_or_ge r.body.length HEADER_BUF_SIZE with hlt | hge
        · rw [if_neg (by omega)]
          obtain ⟨st', hst'⟩ := perform_storeActs hw hr hroom k
            (.number (steppedNumber r.body delta isDecr)) (decimal (steppedNumber r.body delta isDecr)).length r.flag
            r.expire (decimal (steppedNumber r.body delta isDecr))
            (le_trans (length_decimal_wrap32 _) (by decide))
          simp only [pure, Except.pure]
          simp only [steppedNumber] at hst'
          rw [hst']
          refine ⟨⟨hfits, fun key delta off r' h hrec' => ?_⟩,
            iff_of_true (Reply.text_oneReply (by simp) (by simp)) rfl⟩
          obtain ⟨rfl, -⟩ := by simpa using h
          obtain ⟨-, rfl⟩ := by simpa using hof.symm.trans hrec'
          exact hlt
        · rw [if_pos (Or.inr (by omega))]
          exact fun hf => absurd (hf.2 _ _ _ _ rfl hof) (by omega)

/-- The value of a word as an entry of the reply. -/
theorem exists_entry {data w : List UInt8} {rSign : Bool} (h32 : 32 ∉ w) :
    ∃ es : List Entry, valueBlock m data now rSign w = es.flatMap Entry.text := by
  unfold valueBlock
  cases recordOf m data w with
  | none => exact ⟨[], rfl⟩
  | some p =>
      obtain ⟨off, r⟩ := p
      simp only
      split_ifs
      · exact ⟨[], rfl⟩
      · exact ⟨[⟨w, r.flag, r.body, if rSign then some off else none, h32⟩], (List.append_nil _).symm⟩

theorem getReply_oneReply {data : List UInt8} {rSign : Bool} : ∀ {ws : List (List UInt8)}, (∀ w ∈ ws, 32 ∉ w) →
    OneReply (getReply m data now rSign ws) := by
  have hall : ∀ {ws : List (List UInt8)}, (∀ w ∈ ws, 32 ∉ w) →
      ∃ es : List Entry, ws.flatMap (valueBlock m data now rSign) = es.flatMap Entry.text := by
    intro ws
    induction ws with
    | nil => exact fun _ => ⟨[], rfl⟩
    | cons w ws ih =>
        intro h
        obtain ⟨hw, hws⟩ := List.forall_mem_cons.mp h
        obtain ⟨es, hes⟩ := @exists_entry m now data w rSign hw
        obtain ⟨es', hes'⟩ := ih hws
        exact ⟨es ++ es', by rw [List.flatMap_cons, List.flatMap_append, hes, hes']⟩
  intro ws h
  obtain ⟨es, hes⟩ := hall h
  have hv := OneReply.values es
  rwa [valuesText, ← hes] at hv

theorem cmdDoGet_answers (hw : ix.Works V) (hr : V.Rep st.index m) (hc : Complete m st.dataFile)
    (hroom : st.Roomy) (rSign : Bool) (header valueBuf : Buf) :
    AnswersOne True (∃ ws, getWords header = some ws ∧ Fitting m st.dataFile now rSign 0 ws)
      (cmdDoGet ix now rSign header st valueBuf) := by
  refine Ends.imp (Ends.excuse (cmdDoGet_ends hw hr hc valueBuf) fun e he hf => he ⟨hroom.log, hf⟩) ?_
  rintro r ⟨ws, hws, hfit, hchunks, -, -⟩
  refine ⟨⟨ws, hws, hfit⟩, iff_of_true ?_ trivial⟩
  rw [hchunks, List.flatten_singleton]
  exact getReply_oneReply fun w hw => (notMem_getWords hws w hw).2

theorem sendKeys_ends (hw : ix.Works V) (hr : V.Rep st.index m) (args : Option ListCall) :
    Ends (fun _ => ¬ListFits ix st args) (fun chunks => ListFits ix st args ∧ OneReply chunks.flatten)
      (sendKeys ix st args) := by
  cases args with
  | none =>
      refine ⟨fun call r h => absurd h (by simp), ?_⟩
      rw [List.flatten_singleton]
      exact OneReply.status (show ascii "ERROR" ∈ statusLines by decide)
  | some call =>
      obtain ⟨⟨ks, n⟩, hlist⟩ := hw.list call hr
      simp only [sendKeys, hlist, returns, Option.elim_some, bind, Except.bind]
      rcases Nat.lt_or_ge (resultText ks).length PREFIX_BUF_SIZE with hlt | hge
      · rw [if_neg (by omega)]
        refine ⟨fun call' r h hr' => ?_, ?_⟩
        · obtain rfl := Option.some.inj h
          obtain rfl := Option.some.inj (hlist.symm.trans hr')
          exact hlt
        · have hk := OneReply.keys n (cstr (resultText ks))
          simpa [keysText] using hk
      · rw [if_pos hge]
        exact fun hf => absurd (hf call _ rfl hlist) (by simpa using hge)

/-- A range command: the line is scanned into the call. -/
theorem rangeCmd_ends (hw : ix.Works V) {sh : Shared ι} (hr : V.Rep sh.store.index m) (fmt : String)
    (arrays : List (CArray × Nat)) (args : Option ListCall) :
    Ends (fun _ => ¬(overruns (sscanf line fmt) arrays = [] ∧ ListFits ix sh.store args))
      (fun r => (overruns (sscanf line fmt) arrays = [] ∧ ListFits ix sh.store args) ∧
        ∃ chunks, r.1 = .sent chunks ∧ (OneReply chunks.flatten ↔ True))
      (answerKeys sh (scanned line fmt arrays args >>= sendKeys ix sh.store)) := by
  refine Ends.map (Q := fun chunks => (overruns (sscanf line fmt) arrays = [] ∧ ListFits ix sh.store args) ∧
    OneReply chunks.flatten) ?_ fun chunks h => ⟨h.1, chunks, rfl, iff_of_true h.2 trivial⟩
  refine Ends.bind (Ends.excuse (scanned_ends _ _ _) fun e he => fun hf => he hf.1) ?_
  rintro _ ⟨hfits, rfl⟩
  exact Ends.imp (Ends.excuse (sendKeys_ends hw hr _) fun e he => fun hf => he hf.2)
    fun chunks h => ⟨⟨hfits, h.1⟩, h.2⟩

/-- One request: no fault exactly when it fits, and then one reply exactly when its
line was parsed. -/
theorem runCmd_answers (hw : ix.Works V) {s : Scratch} {sh : Shared ι} (hr : V.Rep sh.store.index m)
    (hc : Complete m sh.store.dataFile) (hroom : sh.store.Roomy) (h0 : 0 ∉ line)
    (hq : methodOf line ≠ .quit) (hn : endsWith line (ascii " noreply") = false) :
    Ends (fun _ => ¬InBounds ix now m sh.store line s.headBuf)
      (fun r => InBounds ix now m sh.store line s.headBuf ∧
        ∃ chunks, r.1 = .sent chunks ∧ (OneReply chunks.flatten ↔ Parsed line))
      (runCmd ix now line s sh) := by
  have hsent : ∀ {β : Type} {parsed fits : Prop} {x : Except Fault (List (List UInt8) × β)} (f : β → Shared ι),
      AnswersOne parsed fits x → Ends (fun _ => ¬fits)
        (fun r : Answer × Shared ι => fits ∧ ∃ chunks, r.1 = .sent chunks ∧ (OneReply chunks.flatten ↔ parsed))
        (x.map fun p => (.sent p.1, f p.2)) := fun f h =>
    Ends.map h fun p hp => ⟨hp.1, p.1, rfl, hp.2⟩
  unfold runCmd InBounds Parsed
  cases hm : methodOf line with
  | set => exact hsent (fun st => { sh with store := st }) (cmdDoSet_answers hw hr hroom h0 hn s.bodyBuf)
  | gets => exact hsent (fun p => ⟨p.1, p.2⟩) (cmdDoGet_answers hw hr hc hroom true s.headBuf sh.valueBuf)
  | get => exact hsent (fun p => ⟨p.1, p.2⟩) (cmdDoGet_answers hw hr hc hroom false s.headBuf sh.valueBuf)
  | below => exact rangeCmd_ends hw hr _ _ _
  | less => exact rangeCmd_ends hw hr _ _ _
  | greater => exact rangeCmd_ends hw hr _ _ _
  | cas => exact hsent (fun st => { sh with store := st }) (cmdDoCas_answers hw hr hroom h0 hn s.bodyBuf)
  | delete => exact hsent (fun st => { sh with store := st }) (cmdDoDelete_answers hw hr hroom h0)
  | incr => exact hsent (fun st => { sh with store := st }) (incrOrDecr_answers hw hr hc hroom h0 false)
  | decr => exact hsent (fun st => { sh with store := st }) (incrOrDecr_answers hw hr hc hroom h0 true)
  | quit => exact absurd hm hq
  | unknown =>
      refine ⟨trivial, _, rfl, iff_of_true ?_ trivial⟩
      rw [List.flatten_singleton]
      exact OneReply.status (show ascii "ERROR" ∈ statusLines by decide)

end Commands

/-! ## `handle_cmd` -/

/-- The header line as a string. -/
def Scratch.line (s : Scratch) (headerLen : Nat) : List UInt8 := cstr (s.headBuf.read 0 headerLen)

theorem lineOf_write (s : Scratch) (headerLen : Nat) (body : Buf) :
    lineOf ⟨s.headBuf.write headerLen [0], body⟩ headerLen = s.line headerLen := by
  unfold lineOf Scratch.line
  rw [show headerLen + 1 = headerLen + [(0 : UInt8)].length from rfl, Buf.read_write_append, cstr_append_zero]

/-- Within the arrays `handle_cmd` is the command on the terminated line. -/
theorem handleCmd_eq {ι : Type} (ix : ScanIndex ι) (now : Int) (s : Scratch) {headerLen : Nat} {bodyLen : Int}
    (sh : Shared ι) (hlen : headerLen < MAX_BODY_SIZE) (hbody : 0 ≤ bodyLen ∧ bodyLen < MAX_BODY_SIZE) :
    handleCmd ix now s headerLen bodyLen sh =
      (runCmd ix now (s.line headerLen) ⟨s.headBuf.write headerLen [0], s.bodyBuf.write bodyLen.toNat [0]⟩ sh).map
        fun r => (r.1, ⟨s.headBuf.write headerLen [0], s.bodyBuf.write bodyLen.toNat [0]⟩, r.2) := by
  rw [handleCmd, terminate, if_neg (by omega), if_neg (by omega)]
  simp only [bind, Except.bind, lineOf_write]
  cases runCmd ix now (s.line headerLen) ⟨s.headBuf.write headerLen [0], s.bodyBuf.write bodyLen.toNat [0]⟩ sh <;> rfl

theorem terminate_ends (s : Scratch) (headerLen : Nat) (bodyLen : Int) :
    Ends (fun _ => ¬(headerLen < MAX_BODY_SIZE ∧ 0 ≤ bodyLen ∧ bodyLen < MAX_BODY_SIZE))
      (fun s' => (headerLen < MAX_BODY_SIZE ∧ 0 ≤ bodyLen ∧ bodyLen < MAX_BODY_SIZE) ∧
        s'.headBuf = s.headBuf.write headerLen [0] ∧ lineOf s' headerLen = s.line headerLen)
      (terminate s headerLen bodyLen) := by
  unfold terminate
  rcases Nat.lt_or_ge headerLen MAX_BODY_SIZE with hh | hh
  · rw [if_neg (by omega)]
    rcases Classical.em (bodyLen < 0 ∨ (MAX_BODY_SIZE : Int) ≤ bodyLen) with hb | hb
    · rw [if_pos hb]
      exact fun hf => by omega
    · rw [if_neg hb]
      exact ⟨⟨hh, by omega, by omega⟩, rfl, lineOf_write s headerLen _⟩
  · rw [if_pos hh]
    exact fun hf => absurd hf.1 (by omega)

/-- A request gets its one reply exactly if its line has all the command asks for and
no array is too small. -/
theorem handle_cmd_answers_once {ι : Type} {ix : ScanIndex ι} {V : View ix.toIndex} (hw : ix.Works V) (now : Int)
    (s : Scratch) (headerLen : Nat) (bodyLen : Int) (sh : Shared ι) {m : Key → Nat} (hr : V.Rep sh.store.index m)
    (hc : Complete m sh.store.dataFile) (hroom : sh.store.Roomy) (hq : methodOf (s.line headerLen) ≠ .quit)
    (hn : endsWith (s.line headerLen) (ascii " noreply") = false) :
    (∃ chunks s' sh', handleCmd ix now s headerLen bodyLen sh = .ok (.sent chunks, s', sh') ∧
        OneReply chunks.flatten) ↔
      Parsed (s.line headerLen) ∧ (headerLen < MAX_BODY_SIZE ∧ 0 ≤ bodyLen ∧ bodyLen < MAX_BODY_SIZE) ∧
        InBounds ix now m sh.store (s.line headerLen) (s.headBuf.write headerLen [0]) := by
  have hends : Ends
      (fun _ => ¬((headerLen < MAX_BODY_SIZE ∧ 0 ≤ bodyLen ∧ bodyLen < MAX_BODY_SIZE) ∧
        InBounds ix now m sh.store (s.line headerLen) (s.headBuf.write headerLen [0])))
      (fun r => ((headerLen < MAX_BODY_SIZE ∧ 0 ≤ bodyLen ∧ bodyLen < MAX_BODY_SIZE) ∧
        InBounds ix now m sh.store (s.line headerLen) (s.headBuf.write headerLen [0])) ∧
        ∃ chunks, r.1 = .sent chunks ∧ (OneReply chunks.flatten ↔ Parsed (s.line headerLen)))
      (handleCmd ix now s headerLen bodyLen sh) := by
    refine Ends.bind (Ends.excuse (terminate_ends s headerLen bodyLen) fun e he => fun hf => he hf.1) ?_
    rintro s' ⟨hlen, hbuf, hline⟩
    rw [hline]
    refine Ends.bind (Ends.excuse (runCmd_answers hw hr hc hroom (notMem_cstr _) hq hn)
      fun e he => fun hf => he (hbuf ▸ hf.2)) ?_
    rintro ⟨answer, sh'⟩ ⟨hin, chunks, hsent, hone⟩
    exact ⟨⟨hlen, hbuf ▸ hin⟩, chunks, hsent, hone⟩
  constructor
  · rintro ⟨chunks, s', sh', he, hone⟩
    obtain ⟨hin, chunks', hsent, hiff⟩ := hends.ok he
    obtain rfl := Answer.sent.inj hsent
    exact ⟨hiff.mp hone, hin⟩
  · rintro ⟨hp, hin⟩
    obtain ⟨⟨answer, s', sh'⟩, he, -, chunks, rfl, hiff⟩ := (Ends.excuse hends fun e he => he hin).returns
    exact ⟨chunks, s', sh', he, hiff.mpr hp⟩

/-- The arrays with a line in them. -/
def Scratch.ofLine (line : List UInt8) : Scratch := ⟨fun j => line.getD j 0, fun _ => 0⟩

/-- An empty store, its index the map. -/
def Shared.empty : Shared KeyMap := ⟨⟨KeyMap.empty, [], []⟩, fun _ => 0⟩

theorem Shared.rep_empty : View.map.Rep Shared.empty.store.index fun _ => 0 := fun key => by
  simp [Shared.empty, KeyMap.get, KeyMap.empty]

theorem Shared.roomy_empty : Shared.empty.store.Roomy := ⟨by decide +kernel, by decide +kernel⟩

theorem complete_zero (data : List UInt8) : Complete (fun _ => 0) data := fun _ h => absurd rfl h

theorem handle_cmd_answers_once_delete : ∃ chunks s' sh',
    handleCmd ScanIndex.map 0 (Scratch.ofLine (ascii "delete k")) 8 0 Shared.empty = .ok (.sent chunks, s', sh') ∧
      OneReply chunks.flatten := by
  have hline : (Scratch.ofLine (ascii "delete k")).line 8 = ascii "delete k" := by decide +kernel
  have hm : methodOf (ascii "delete k") = .delete := by decide +kernel
  refine (handle_cmd_answers_once ScanIndex.map_works 0 _ 8 0 Shared.empty Shared.rep_empty (complete_zero _)
    Shared.roomy_empty (by rw [hline, hm]; decide) (by rw [hline]; decide +kernel)).mpr
    ⟨?_, by decide +kernel, ?_⟩
  · rw [hline, Parsed, hm]
    decide +kernel
  · rw [hline, InBounds, hm]
    decide +kernel

/-- `delete` without a key is not answered. -/
theorem handle_cmd_keeps_silent : ¬ ∀ (now : Int) (s : Scratch) (headerLen : Nat) (bodyLen : Int)
    (sh : Shared KeyMap) (m : Key → Nat), View.map.Rep sh.store.index m → Complete m sh.store.dataFile →
      sh.store.Roomy → methodOf (s.line headerLen) ≠ .quit →
      endsWith (s.line headerLen) (ascii " noreply") = false →
      ∃ chunks s' sh', handleCmd ScanIndex.map now s headerLen bodyLen sh = .ok (.sent chunks, s', sh') ∧
        OneReply chunks.flatten := by
  intro H
  obtain ⟨chunks, s', sh', he, hone⟩ := H 0 (Scratch.ofLine (ascii "delete")) 6 0 Shared.empty _ Shared.rep_empty
    (complete_zero _) Shared.roomy_empty (by decide +kernel) (by decide +kernel)
  obtain ⟨s₁, sh₁, hsilent⟩ : ∃ s₁ sh₁, handleCmd ScanIndex.map 0 (Scratch.ofLine (ascii "delete")) 6 0 Shared.empty
      = .ok (.sent [], s₁, sh₁) := ⟨_, _, rfl⟩
  obtain rfl : ([] : List (List UInt8)) = chunks :=
    Answer.sent.inj (congrArg Prod.fst (Except.ok.inj (hsilent.symm.trans he)))
  exact not_oneReply_nil hone

end Tstdb
