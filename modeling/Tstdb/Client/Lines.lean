/-
# `Tstdb.Client.Lines` — the lines clients send

The text of a command: the method, its arguments behind single spaces, for `set` and
`cas` the body on a line of its own.  Keys have no white space, and the numbers are in
the range of the C types they are read into (`Command.Wired`).  Such a line is framed
with the body it announces (`Command.frames`), and what `handle_cmd` makes of it is the
command (`Command.askedBy`), whatever its arrays held before.
-/
import Mathlib
import Tstdb.Lib.CText
import Tstdb.Lib.Bytes
import Tstdb.Lib.PyText
import Tstdb.Lib.Runs
import Tstdb.Lib.Chains
import Tstdb.Lib.Outcome
import Tstdb.Tst.Arena
import Tstdb.Tst.Runs
import Tstdb.Server.Index
import Tstdb.Server.Store
import Tstdb.Server.Sections
import Tstdb.Server.Pool
import Tstdb.Server.Buffers
import Tstdb.Server.Framing
import Tstdb.Server.Stream
import Tstdb.Server.Commands
import Tstdb.Server.Values
import Tstdb.Server.Replies
import Tstdb.Server.Requests
import Tstdb.Server.History
import Tstdb.Server.Output
import Tstdb.Server.Dialogue
import Tstdb.Client.Values

namespace Tstdb

open CText Bytes Chains Outcome Runs

def Command.method : Command → List UInt8
  | .set .. => ascii "set"
  | .cas .. => ascii "cas"
  | .incrOrDecr _ _ isDecr => if isDecr then ascii "decr" else ascii "incr"
  | .delete _ => ascii "delete"
  | .get _ => ascii "get"

def noreplyWord (noreply : Bool) : List (List UInt8) := if noreply then [ascii "noreply"] else []

/-- What follows the key. -/
def Command.args : Command → List (List UInt8)
  | .set _ flag body noreply => [decimal flag, decimal 0, decimal body.bytes.length] ++ noreplyWord noreply
  | .cas _ flag body sign noreply =>
      [decimal flag, decimal 0, decimal body.bytes.length, decimal sign] ++ noreplyWord noreply
  | .incrOrDecr _ delta _ => [decimal delta]
  | .delete _ | .get _ => []

def Command.header (c : Command) : List UInt8 := c.method ++ spaced (c.key.bytes :: c.args)

/-- The body of a command that stores one. -/
def Command.body? : Command → Option Body
  | .set _ _ body _ | .cas _ _ body _ _ => some body
  | _ => none

def Command.request (c : Command) : Request := ⟨c.header, (c.body?.map Body.bytes).getD []⟩

/-- The bytes of a command. -/
def Command.wire (c : Command) : List UInt8 :=
  c.header ++ crlf ++ match c.body? with
    | none => []
    | some body => body.bytes ++ crlf

/-- The numbers are in range. -/
def Command.InRange : Command → Prop
  | .set _ flag _ _ => wrap32 flag = flag
  | .cas _ flag _ sign _ => wrap32 flag = flag ∧ sign < 18446744073709551616
  | .incrOrDecr _ delta _ => wrap32 delta = delta
  | _ => True

/-- The command can be written as a line. -/
structure Command.Wired (c : Command) : Prop where
  key : ∀ b ∈ c.key.bytes, isSpace b = false
  inRange : c.InRange

/-! ## The bytes of a line -/

section Line

variable {c : Command}

/-- An argument is a word. -/
theorem Command.args_word {w : List UInt8} (h : w ∈ c.args) : w ≠ [] ∧ ∀ b ∈ w, 45 ≤ b := by
  have hdecimal : ∀ n : Int, decimal n ≠ [] ∧ ∀ b ∈ decimal n, (45 : UInt8) ≤ b := fun n =>
    ⟨PyText.decimal_ne_nil n, fun b hb => (le_of_mem_decimal hb).1⟩
  have hnoreply : ∀ noreply, w ∈ noreplyWord noreply → w ≠ [] ∧ ∀ b ∈ w, (45 : UInt8) ≤ b := by
    intro noreply hw
    cases noreply with
    | false => cases hw
    | true =>
        obtain rfl := List.mem_singleton.mp hw
        decide +kernel
  cases c with
  | set key flag body noreply =>
      simp only [Command.args, List.mem_append, List.mem_cons, List.not_mem_nil, or_false] at h
      rcases h with (rfl | rfl | rfl) | h
      · exact hdecimal _
      · exact hdecimal _
      · exact hdecimal _
      · exact hnoreply _ h
  | cas key flag body sign noreply =>
      simp only [Command.args, List.mem_append, List.mem_cons, List.not_mem_nil, or_false] at h
      rcases h with (rfl | rfl | rfl | rfl) | h
      · exact hdecimal _
      · exact hdecimal _
      · exact hdecimal _
      · exact hdecimal _
      · exact hnoreply _ h
  | incrOrDecr key delta isDecr =>
      obtain rfl := List.mem_singleton.mp h
      exact hdecimal _
  | delete key => cases h
  | get key => cases h

theorem Command.method_byte {b : UInt8} (h : b ∈ c.method) : 45 ≤ b := by
  have hall : ∀ m ∈ [ascii "set", ascii "cas", ascii "decr", ascii "incr", ascii "delete", ascii "get"],
      ∀ b ∈ m, (45 : UInt8) ≤ b := by decide +kernel
  refine hall c.method ?_ b h
  cases c with
  | incrOrDecr key delta isDecr => cases isDecr <;> simp [Command.method]
  | _ => simp [Command.method]

theorem Command.Wired.header_byte (h : c.Wired) {b : UInt8} (hb : b ∈ c.header) : b ≠ 0 ∧ b ≠ 10 := by
  have hle : ∀ {b : UInt8}, 45 ≤ b → b ≠ 0 ∧ b ≠ 10 := fun hb =>
    ⟨fun e => absurd (e ▸ hb) (by decide), fun e => absurd (e ▸ hb) (by decide)⟩
  rcases List.mem_append.mp hb with hb | hb
  · exact hle (Command.method_byte hb)
  · obtain ⟨w, hw, rfl | hb⟩ := mem_spaced.mp hb
    · decide
    · rcases List.mem_cons.mp hw with rfl | hw
      · exact ⟨fun e => c.key.nul (e ▸ hb), fun e => absurd (h.key b hb) (by rw [e]; decide)⟩
      · exact hle ((Command.args_word hw).2 b hb)

theorem Command.Wired.cstr (h : c.Wired) : CText.cstr c.header = c.header :=
  cstr_of_nul_free fun hm => (h.header_byte hm).1 rfl

/-- An argument is short. -/
theorem Command.Wired.args_length (h : c.Wired) {w : List UInt8} (hw : w ∈ c.args) : w.length ≤ 20 := by
  have hint : ∀ n : Int, wrap32 n = n → (decimal n).length ≤ 20 := by
    intro n hn
    have hle := length_decimal_wrap32 n
    rw [hn] at hle
    exact le_trans hle (by decide)
  have hnat : ∀ n : Nat, n < 10 ^ 20 → (decimal n).length ≤ 20 := fun n hn => by
    rw [decimal_natCast, decimalNat, List.length_map]
    exact Nat.toDigits_length 10 n 20 (by norm_num) hn
  have hbody : ∀ body : Body, (decimal body.bytes.length).length ≤ 20 := fun body =>
    hnat _ (lt_of_le_of_lt body.framed (by norm_num [VALUE_LIMIT]))
  have hzero : wrap32 0 = 0 := by decide
  have hnoreply : ∀ noreply, w ∈ noreplyWord noreply → w.length ≤ 20 := by
    intro noreply hw
    cases noreply with
    | false => cases hw
    | true =>
        obtain rfl := List.mem_singleton.mp hw
        decide
  have hr := h.inRange
  cases c with
  | set key flag body noreply =>
      simp only [Command.args, List.mem_append, List.mem_cons, List.not_mem_nil, or_false] at hw
      rcases hw with (rfl | rfl | rfl) | hw
      · exact hint _ hr
      · exact hint _ hzero
      · exact hbody body
      · exact hnoreply _ hw
  | cas key flag body sign noreply =>
      simp only [Command.args, List.mem_append, List.mem_cons, List.not_mem_nil, or_false] at hw
      rcases hw with (rfl | rfl | rfl | rfl) | hw
      · exact hint _ hr.1
      · exact hint _ hzero
      · exact hbody body
      · exact hnat _ (lt_trans hr.2 (by norm_num))
      · exact hnoreply _ hw
  | incrOrDecr key delta isDecr =>
      obtain rfl := List.mem_singleton.mp hw
      exact hint _ hr
  | delete key => cases hw
  | get key => cases hw

theorem length_spaced_le {k : Nat} : ∀ {ws : List (List UInt8)}, (∀ w ∈ ws, w.length ≤ k) →
    (spaced ws).length ≤ ws.length * (k + 1) := by
  intro ws
  induction ws with
  | nil => intro _; exact Nat.zero_le _
  | cons w ws ih =>
      intro h
      obtain ⟨hw, hws⟩ := List.forall_mem_cons.mp h
      have := ih hws
      rw [spaced_cons, List.length_cons, List.length_append, List.length_cons, Nat.succ_mul]
      omega

theorem Command.Wired.header_length (h : c.Wired) : c.header.length < MAX_BODY_SIZE := by
  have hmethod : c.method.length ≤ 6 := by
    have hall : ∀ m ∈ [ascii "set", ascii "cas", ascii "decr", ascii "incr", ascii "delete", ascii "get"],
        m.length ≤ 6 := by decide
    refine hall c.method ?_
    cases c with
    | incrOrDecr key delta isDecr => cases isDecr <;> simp [Command.method]
    | _ => simp [Command.method]
  have hcount : c.args.length ≤ 5 := by
    cases c with
    | set key flag body noreply => cases noreply <;> simp [Command.args, noreplyWord]
    | cas key flag body sign noreply => cases noreply <;> simp [Command.args, noreplyWord]
    | _ => simp [Command.args]
  have hargs : (spaced c.args).length ≤ c.args.length * (20 + 1) := length_spaced_le fun w hw => h.args_length hw
  have hkey := c.key.short
  have hkeySize : MAX_KEY_SIZE = 256 := rfl
  have hsize : MAX_BODY_SIZE = 2000000 := rfl
  have hmul : c.args.length * (20 + 1) ≤ 5 * (20 + 1) := Nat.mul_le_mul_right _ hcount
  rw [Command.header, List.length_append, spaced_cons, List.length_cons, List.length_append]
  omega

/-! ## What is read from a line -/

theorem Command.Wired.key_word (h : c.Wired) : c.key.bytes ≠ [] ∧ ∀ b ∈ c.key.bytes, isSpace b = false :=
  ⟨c.key.ne, h.key⟩

theorem Body.length_int (body : Body) : wrap32 (body.bytes.length : Int) = body.bytes.length := by
  have := body.framed
  have hlimit : VALUE_LIMIT = 1000000 := rfl
  exact wrap32_of_range (by omega) (by omega)

theorem format_store : format "%s %s %d %d %d".toList =
    [.str, .space, .str, .space, .int, .space, .int, .space, .int] := by decide

theorem format_store_sign : format "%s %s %d %d %d %llu".toList =
    [.str, .space, .str, .space, .int, .space, .int, .space, .int, .space, .ull] := by decide

/-- `get_body_len` finds the length of the body that follows. -/
theorem Command.Wired.declaredLen (h : c.Wired) :
    Tstdb.declaredLen c.header = c.body?.map fun body => (body.bytes.length : Int) := by
  obtain ⟨hne, hword⟩ := h.key_word
  have hzero : wrap32 0 = 0 := by decide
  have hr := h.inRange
  have hnone : ¬ascii "set" <+: c.header → ¬ascii "cas" <+: c.header → Tstdb.declaredLen c.header = none := by
    intro hset hcas
    cases hd : Tstdb.declaredLen c.header with
    | none => rfl
    | some valueLen => exact ((declaredLen_method hd).elim hset hcas).elim
  cases c with
  | set key flag body noreply =>
      rw [Tstdb.declaredLen, sscanf, format_set]
      simp only [Command.header, Command.method, Command.args, List.cons_append, List.nil_append, Command.key] at hne hword ⊢
      rw [scan_lits, scan_next_word _ hne hword, scan_next_int _ hr, scan_next_int _ hzero,
        scan_next_int _ body.length_int]
      rfl
  | cas key flag body sign noreply =>
      rw [Tstdb.declaredLen, sscanf, sscanf, format_set, format_cas]
      simp only [Command.header, Command.method, Command.args, List.cons_append, List.nil_append, Command.key] at hne hword ⊢
      rw [scan_lits_nil _ (by rintro ⟨t, ht⟩; cases ht), scan_lits, scan_next_word _ hne hword, scan_next_int _ hr.1,
        scan_next_int _ hzero, scan_next_int _ body.length_int, scan_next_ull _ hr.2]
      rfl
  | incrOrDecr key delta isDecr =>
      cases isDecr <;> exact hnone (by rintro ⟨t, ht⟩; cases ht) (by rintro ⟨t, ht⟩; cases ht)
  | delete key => exact hnone (by rintro ⟨t, ht⟩; cases ht) (by rintro ⟨t, ht⟩; cases ht)
  | get key => exact hnone (by rintro ⟨t, ht⟩; cases ht) (by rintro ⟨t, ht⟩; cases ht)

/-- The first words of a line are the method and the key. -/
theorem Command.Wired.scan_words (h : c.Wired) (ds : List Dir) :
    scan (.str :: .space :: .str :: ds) c.header = .str c.method :: .str c.key.bytes :: scan ds (spaced c.args) := by
  have hmethod : c.method ≠ [] ∧ ∀ b ∈ c.method, isSpace b = false := by
    have hall : ∀ m ∈ [ascii "set", ascii "cas", ascii "decr", ascii "incr", ascii "delete", ascii "get"],
        m ≠ [] ∧ ∀ b ∈ m, isSpace b = false := by decide +kernel
    refine hall c.method ?_
    cases c with
    | incrOrDecr key delta isDecr => cases isDecr <;> simp [Command.method]
    | _ => simp [Command.method]
  rw [Command.header, scan_first_word _ hmethod.1 hmethod.2, scan_next_word _ h.key_word.1 h.key_word.2]

/-- A line that ends with a number is to be answered. -/
theorem not_noreply (t : List UInt8) (n : Int) : endsWith (t ++ decimal n) (ascii " noreply") = false := by
  rw [endsWith, Bool.eq_false_iff, Ne, List.isSuffixOf_iff_suffix]
  rintro ⟨u, hu⟩
  have hlast := congrArg List.getLast? hu
  rw [List.getLast?_append_of_ne_nil _ (PyText.decimal_ne_nil n),
    List.getLast?_append_of_ne_nil _ (by decide : ascii " noreply" ≠ []),
    show (ascii " noreply").getLast? = some 121 by decide +kernel] at hlast
  have hle := (le_of_mem_decimal (List.mem_of_getLast? hlast.symm)).2
  exact absurd hle (by decide)

theorem spaced_append (ws ws' : List (List UInt8)) : spaced (ws ++ ws') = spaced ws ++ spaced ws' := List.flatMap_append

theorem spaced_last (w : List UInt8) : spaced [w] = [32] ++ w := by rw [spaced_cons, spaced, List.flatMap_nil, List.append_nil]; rfl

theorem noreply_suffix (t : List UInt8) : endsWith (t ++ spaced (noreplyWord true)) (ascii " noreply") = true := by
  rw [endsWith, List.isSuffixOf_iff_suffix]
  exact ⟨t, rfl⟩

/-- `cmd_do_get` finds the key behind the method. -/
theorem getWords_line {header : Buf} {method key : List UInt8} (hmethod : ∀ b ∈ method, b ≠ 32 ∧ b ≠ 0)
    (hkey : ∀ b ∈ key, b ≠ 32 ∧ b ≠ 0) (hlen : method.length + 1 + key.length < MAX_BODY_SIZE)
    (h : header.read 0 (method.length + 1 + (key.length + 1)) = method ++ 32 :: (key ++ [0])) :
    getWords header = some [key] := by
  have hsplit : method.length + 1 + (key.length + 1) = method.length + 1 + (key ++ [0]).length := by
    rw [List.length_append, List.length_singleton]
  rw [hsplit] at h
  obtain ⟨hspan, -, -, hrest⟩ := span_word h hmethod (Or.inl rfl)
    (show method.length < MAX_BODY_SIZE by omega)
  rw [Nat.zero_add, List.length_append, List.length_singleton] at hrest
  rw [getWords, hspan, Option.bind_some]
  exact wordsFrom_join (List.cons_ne_nil _ _) (fun w hw => by rwa [List.mem_singleton.mp hw])
    (show 1 ≤ MAX_BODY_SIZE by decide) (by rw [PyText.join]; exact hlen) hrest

/-- What `handle_cmd` makes of the line is the command. -/
theorem Command.Wired.askedBy (h : c.Wired) {s : Scratch} (hs : c.request.LiesIn s) :
    c.AskedBy s c.header.length c.request.body.length := by
  have hline : s.line c.header.length = c.header := by
    rw [Scratch.line, show s.headBuf.read 0 c.header.length = c.header from hs.header, h.cstr]
  have hzero : wrap32 0 = 0 := by decide
  have hr := h.inRange
  refine ⟨h.header_length, ?_⟩
  cases c with
  | set key flag body noreply =>
      refine ⟨by rw [hline]; rfl, ?_, ?_, rfl, hs.body⟩
      · rw [hline, sscanf, format_store, h.scan_words]
        simp only [Command.args, List.cons_append, List.nil_append]
        rw [scan_next_int _ hr, scan_next_int _ hzero, scan_next_int _ body.length_int]
        rfl
      · rw [hline]
        cases noreply with
        | true =>
            have hend := noreply_suffix
              (ascii "set" ++ spaced [key.bytes, decimal flag, decimal 0, decimal body.bytes.length])
            rwa [List.append_assoc, ← spaced_append] at hend
        | false =>
            have hend := not_noreply (ascii "set" ++ spaced [key.bytes, decimal flag, decimal 0] ++ [32])
              body.bytes.length
            rwa [List.append_assoc, List.append_assoc, ← spaced_last, ← spaced_append] at hend
  | cas key flag body sign noreply =>
      refine ⟨by rw [hline]; rfl, ?_, ?_, rfl, hs.body⟩
      · rw [hline, sscanf, format_store_sign, h.scan_words]
        simp only [Command.args, List.cons_append, List.nil_append]
        rw [scan_next_int _ hr.1, scan_next_int _ hzero, scan_next_int _ body.length_int, scan_next_ull _ hr.2]
        rfl
      · rw [hline]
        cases noreply with
        | true =>
            have hend := noreply_suffix
              (ascii "cas" ++ spaced [key.bytes, decimal flag, decimal 0, decimal body.bytes.length, decimal sign])
            rwa [List.append_assoc, ← spaced_append] at hend
        | false =>
            have hend := not_noreply
              (ascii "cas" ++ spaced [key.bytes, decimal flag, decimal 0, decimal body.bytes.length] ++ [32]) sign
            rwa [List.append_assoc, List.append_assoc, ← spaced_last, ← spaced_append] at hend
  | incrOrDecr key delta isDecr =>
      refine ⟨by rw [hline]; cases isDecr <;> rfl, ?_, rfl⟩
      rw [hline, sscanf, show format "%s %s %d".toList = [.str, .space, .str, .space, .int] by decide, h.scan_words]
      simp only [Command.args]
      rw [scan_next_int _ hr]
      rfl
  | delete key =>
      refine ⟨by rw [hline]; rfl, ?_, rfl⟩
      rw [hline, sscanf, show format "%s %s".toList = [.str, .space, .str] by decide, h.scan_words]
      rfl
  | get key =>
      have hheader : (Command.get key).header = ascii "get" ++ 32 :: key.bytes := by
        rw [Command.header, spaced_cons, show spaced (Command.get key).args = [] from rfl, List.append_nil]
        rfl
      have hlen : (Command.get key).header.length = key.bytes.length + 4 := by
        rw [hheader, List.length_append, List.length_cons, show (ascii "get").length = 3 from rfl]
        omega
      have hread := Buf.read_write_append s.headBuf (Command.get key).header.length [0]
      rw [show s.headBuf.read 0 (Command.get key).header.length = (Command.get key).header from hs.header] at hread
      have hfits : (ascii "get").length + 1 + key.bytes.length < MAX_BODY_SIZE := by
        have := h.header_length
        rw [hlen] at this
        rw [show (ascii "get").length = 3 from rfl]
        omega
      have hend : (ascii "get").length + 1 + (key.bytes.length + 1) =
          (Command.get key).header.length + ([0] : List UInt8).length := by
        rw [hlen, show (ascii "get").length = 3 from rfl, List.length_singleton]
        omega
      refine ⟨by rw [hline]; rfl,
        getWords_line (by decide +kernel) (fun b hb => ⟨fun e => ?_, fun e => key.nul (e ▸ hb)⟩) hfits ?_, rfl⟩
      · exact absurd (h.key b hb) (by rw [e]; decide)
      · rw [hend, hread, hheader]
        simp only [List.append_assoc, List.cons_append]

end Line

/-! ## Streams of commands -/

theorem Command.Wired.frames {c : Command} (h : c.Wired) {t : List UInt8} {requests : List Request}
    (ht : Frames BUF_UNIT_SIZE AtEnd t requests) : Frames BUF_UNIT_SIZE AtEnd (c.wire ++ t) (c.request :: requests) := by
  have hl : Visible BUF_UNIT_SIZE (c.header ++ [13]) := visible_crlf fun b hb => h.header_byte hb
  have hdrop : (c.header ++ [13]).dropLast = c.header := List.dropLast_concat
  have hd : Tstdb.declaredLen (CText.cstr (c.header ++ [13]).dropLast) = c.body?.map fun body => (body.bytes.length : Int) := by
    rw [hdrop, h.cstr, h.declaredLen]
  rw [Command.wire, Command.request]
  cases hb : c.body? with
  | none =>
      rw [hb] at hd
      have hframes := Frames.line hl hd ht
      rw [hdrop] at hframes
      simpa [crlf] using hframes
  | some body =>
      rw [hb] at hd
      have hle := body.framed
      have hlimit : VALUE_LIMIT = 1000000 := rfl
      have hclamp : (clampLen (body.bytes.length : Int)).toNat = body.bytes.length := by
        rw [clampLen, if_neg (by omega), if_neg (by omega), Int.toNat_natCast]
      have htail : (body.bytes ++ crlf ++ t).drop (body.bytes.length + 2) = t := by
        rw [show body.bytes.length + 2 = (body.bytes ++ crlf).length by simp [crlf], List.drop_left]
      have hframes := Frames.body (t := body.bytes ++ crlf ++ t) hl hd (by rw [hclamp]; simp [crlf])
        (by rw [hclamp, htail]; exact ht)
      rw [hdrop, hclamp, List.append_assoc body.bytes, List.take_left] at hframes
      simpa [crlf] using hframes

/-- The commands of a client are read from what it sends. -/
theorem frames_commands : ∀ {commands : List Command}, (∀ c ∈ commands, c.Wired) →
    Frames BUF_UNIT_SIZE AtEnd (commands.flatMap Command.wire) (commands.map Command.request) := by
  intro commands
  induction commands with
  | nil => exact fun _ => .rest ⟨rfl, rfl⟩
  | cons c commands ih =>
      intro h
      obtain ⟨hc, hcs⟩ := List.forall_mem_cons.mp h
      exact hc.frames (ih hcs)

/-- Any bytes can be cut into chunks. -/
theorem exists_bytewise (s : List UInt8) : ∃ chunks : List (List UInt8), chunks.flatten = s ∧ Chunks BUF_UNIT_SIZE chunks := by
  refine ⟨s.map fun b => [b], ?_, fun c hc => ?_⟩
  · rw [← List.flatMap_def, List.flatMap_singleton']
  · obtain ⟨b, -, rfl⟩ := List.mem_map.mp hc
    exact ⟨List.cons_ne_nil _ _, show 1 ≤ BUF_UNIT_SIZE by decide⟩

/-- The first bytes of a stream give its first requests. -/
theorem serve_initial {chunks : List (List UInt8)} (hc : Chunks BUF_UNIT_SIZE chunks) {stream : List UInt8}
    {requests : List Request} (h : Frames BUF_UNIT_SIZE AtEnd stream requests) (hpre : chunks.flatten <+: stream) :
    (serve [] chunks).1 <+: requests := by
  obtain ⟨rest, rfl⟩ := hpre
  obtain ⟨more, rfl, hmore⟩ := exists_bytewise rest
  have hall : serve [] (chunks ++ more) = (requests, []) := by
    refine serve_exact (fun c hm => ?_) (by rwa [List.flatten_append])
    exact (List.mem_append.mp hm).elim (hc c) (hmore c)
  rw [serve_append] at hall
  exact ⟨_, congrArg Prod.fst hall⟩

end Tstdb
