/-
# `Tstdb.Server.Requests` — well-formed requests arrive as they were sent

A client that keeps to the protocol sends lines without NUL and LF and, behind the lines
that store something, bodies of the length the line declares, each ending in CR LF.
Whatever chunks these bytes come in, `handle_cmd` gets exactly those requests, in order,
and nothing stays behind (`framing_exact`).
-/
import Mathlib
import Tstdb.Lib.Runs
import Tstdb.Lib.CText
import Tstdb.Lib.Bytes
import Tstdb.Lib.Chains
import Tstdb.Lib.Outcome
import Tstdb.Tst.Arena
import Tstdb.Tst.Runs
import Tstdb.Server.Index
import Tstdb.Server.Store
import Tstdb.Server.Pool
import Tstdb.Server.Buffers
import Tstdb.Server.Framing
import Tstdb.Server.Stream
import Tstdb.Server.Commands
import Tstdb.Server.Replies

namespace Tstdb

open CText Bytes Chains Outcome Runs

/-- A line that stores nothing and does not end the connection. -/
structure PlainLine where
  text : List UInt8
  nul : 0 ∉ text
  lf : 10 ∉ text
  not_set : startsWith text (ascii "set") = false
  not_cas : startsWith text (ascii "cas") = false
  not_quit : startsWith text (ascii "quit") = false

/-- A `set`, or with a sign a `cas`, and its body. -/
structure Storage where
  sign : Option Numeral
  key : List UInt8
  flags : Numeral
  exptime : Numeral
  length : Numeral
  body : List UInt8
  key_pos : 0 < key.length
  key_le : key.length ≤ 255
  key_space : ∀ b ∈ key, isSpace b = false ∧ b ≠ 0
  flags_int : wrap32 flags.value = flags.value
  exptime_int : wrap32 exptime.value = exptime.value
  length_eq : length.value = body.length
  length_le : body.length ≤ VALUE_LIMIT

def Storage.header (r : Storage) : List UInt8 :=
  ascii (if r.sign.isSome then "cas" else "set") ++ 32 :: (r.key ++ 32 :: (r.flags.text ++ 32 :: (r.exptime.text ++
    32 :: (r.length.text ++ (match r.sign with
      | none => []
      | some sign => 32 :: sign.text)))))

inductive ClientRequest where
  | line (r : PlainLine)
  | storage (r : Storage)

def crlf : List UInt8 := [13, 10]

/-- What a client sends. -/
def ClientRequest.wire : ClientRequest → List UInt8
  | .line r => r.text ++ crlf
  | .storage r => r.header ++ crlf ++ r.body ++ crlf

/-- What `handle_cmd` should get. -/
def ClientRequest.request : ClientRequest → Request
  | .line r => ⟨r.text, []⟩
  | .storage r => ⟨r.header, r.body⟩

/-! ## The lengths lines declare -/

theorem not_prefix_of_startsWith {s₁ s₂ : List UInt8} (h : startsWith s₁ s₂ = false) : ¬s₂ <+: s₁ := fun hp => by
  rw [startsWith, List.isPrefixOf_iff_prefix.mpr hp] at h
  cases h

theorem PlainLine.declaredLen (r : PlainLine) : declaredLen (cstr r.text) = none := by
  rw [cstr_of_nul_free r.nul]
  cases h : Tstdb.declaredLen r.text with
  | none => rfl
  | some valueLen =>
      rcases declaredLen_method h with hset | hcas
      · exact absurd hset (not_prefix_of_startsWith r.not_set)
      · exact absurd hcas (not_prefix_of_startsWith r.not_cas)

namespace Storage

variable {r : Storage}

theorem header_bytes {b : UInt8} (h : b ∈ r.header) : b ≠ 0 ∧ b ≠ 10 := by
  have hnum : ∀ {n : Numeral}, b ∈ n.text → b ≠ 0 ∧ b ≠ 10 := fun hb =>
    ⟨fun e => absurd (Numeral.mem_text hb) (by rw [e]; decide), fun e => absurd (Numeral.mem_text hb) (by rw [e]; decide)⟩
  have hkey : b ∈ r.key → b ≠ 0 ∧ b ≠ 10 := fun hb =>
    ⟨(r.key_space b hb).2, fun e => absurd (r.key_space b hb).1 (by rw [e]; decide)⟩
  have h32 : (32 : UInt8) ≠ 0 ∧ (32 : UInt8) ≠ 10 := by decide
  have hmethod : b ∈ ascii (if r.sign.isSome then "cas" else "set") → b ≠ 0 ∧ b ≠ 10 := by
    have hcas : ascii "cas" = [99, 97, 115] := by decide
    have hset : ascii "set" = [115, 101, 116] := by decide
    rw [apply_ite ascii, hcas, hset]
    have hall : ∀ b ∈ [99, 97, 115, 115, 101, 116], b ≠ (0 : UInt8) ∧ b ≠ 10 := by simp
    split_ifs
    · exact fun hb => hall b (List.mem_append_left [115, 101, 116] hb)
    · exact fun hb => hall b (List.mem_append_right [99, 97, 115] hb)
  unfold header at h
  simp only [List.mem_append, List.mem_cons] at h
  rcases h with h | rfl | h | rfl | h | rfl | h | rfl | h | h
  · exact hmethod h
  · exact h32
  · exact hkey h
  · exact h32
  · exact hnum h
  · exact h32
  · exact hnum h
  · exact h32
  · exact hnum h
  · cases hs : r.sign with
    | none => rw [hs] at h; cases h
    | some sign =>
        rw [hs] at h
        rcases List.mem_cons.mp h with rfl | h
        · exact h32
        · exact hnum h

theorem not_quit (r : Storage) : startsWith r.header (ascii "quit") = false := by
  have hcas : ascii "cas" = [99, 97, 115] := by decide
  have hset : ascii "set" = [115, 101, 116] := by decide
  have hquit : ascii "quit" = [113, 117, 105, 116] := by decide
  unfold header
  cases r.sign with
  | none => simp [startsWith, hset, hquit, List.isPrefixOf]
  | some sign => simp [startsWith, hcas, hquit, List.isPrefixOf]

theorem clampLen_length (r : Storage) : clampLen r.length.value = r.body.length ∧ wrap32 r.length.value = r.length.value := by
  have hle := r.length_le
  have heq := r.length_eq
  have hlimit : VALUE_LIMIT = 1000000 := rfl
  refine ⟨?_, wrap32_of_range (by omega) (by omega)⟩
  rw [clampLen, if_neg (by omega), if_neg (by omega), heq]

theorem declaredLen (r : Storage) : declaredLen (cstr r.header) = some r.length.value := by
  have hfree : 0 ∉ r.header := fun h => (header_bytes h).1 rfl
  have hkey : r.key ≠ [] := List.ne_nil_of_length_pos r.key_pos
  have hspace : ∀ b ∈ r.key, isSpace b = false := fun b hb => (r.key_space b hb).1
  have h32 : ∀ {p : UInt8 → Bool} {c : Bool} (t : List UInt8), p 32 = c → ∀ b ∈ (32 :: t).head?, p b = c := by
    intro p c t hp b hb
    obtain rfl := Option.some.inj hb
    exact hp
  rw [cstr_of_nul_free hfree, Tstdb.declaredLen, sscanf, sscanf, format_set, format_cas, header]
  cases hs : r.sign with
  | none =>
      simp only [Option.isSome_none, Bool.false_eq_true, if_false]
      rw [scan_lits, scan_word _ hkey hspace (h32 _ (by decide)), scan_numeral _ _ r.flags_int (h32 _ (by decide)),
        scan_numeral _ _ r.exptime_int (h32 _ (by decide)), scan_numeral _ _ r.clampLen_length.2 (by simp)]
      rfl
  | some sign =>
      simp only [Option.isSome_some, if_true]
      rw [scan_lits_nil _ (by rintro ⟨t, ht⟩; cases ht), scan_lits, scan_word _ hkey hspace (h32 _ (by decide)),
        scan_numeral _ _ r.flags_int (h32 _ (by decide)), scan_numeral _ _ r.exptime_int (h32 _ (by decide)),
        scan_numeral _ _ r.clampLen_length.2 (h32 _ (by decide)), ← List.append_nil sign.text,
        scan_numeral_ull _ _ (by simp)]
      rfl

end Storage

/-! ## The stream -/

theorem visible_crlf {text : List UInt8} (h : ∀ b ∈ text, b ≠ 0 ∧ b ≠ 10) : Visible BUF_UNIT_SIZE (text ++ [13]) := by
  have hall : ∀ b ∈ text ++ [13], b ≠ 0 ∧ b ≠ 10 := by
    intro b hb
    rcases List.mem_append.mp hb with hb | hb
    · exact h b hb
    · rw [List.mem_singleton.mp hb]
      decide
  exact ⟨by simp, fun hm => (hall 10 hm).2 rfl, fun hm => (hall 0 (List.mem_of_mem_drop hm)).1 rfl⟩

/-- The requests of a client are read from what it sends. -/
theorem frames_wire : ∀ requests : List ClientRequest,
    Frames BUF_UNIT_SIZE AtEnd (requests.flatMap ClientRequest.wire) (requests.map ClientRequest.request) := by
  intro requests
  induction requests with
  | nil => exact .rest ⟨rfl, rfl⟩
  | cons r requests ih =>
      rw [List.flatMap_cons, List.map_cons]
      cases r with
      | line r =>
          have hl : Visible BUF_UNIT_SIZE (r.text ++ [13]) :=
            visible_crlf fun b hb => ⟨fun e => r.nul (e ▸ hb), fun e => r.lf (e ▸ hb)⟩
          have hd := r.declaredLen
          have hdrop : (r.text ++ [13]).dropLast = r.text := List.dropLast_concat
          rw [← hdrop] at hd
          have hframes := Frames.line hl hd ih
          rwa [hdrop, show (r.text ++ [13]) ++ 10 :: requests.flatMap ClientRequest.wire
            = ClientRequest.wire (.line r) ++ requests.flatMap ClientRequest.wire by simp [ClientRequest.wire, crlf]] at hframes
      | storage r =>
          have hl : Visible BUF_UNIT_SIZE (r.header ++ [13]) := visible_crlf fun b hb => Storage.header_bytes hb
          have hd := r.declaredLen
          have hdrop : (r.header ++ [13]).dropLast = r.header := List.dropLast_concat
          rw [← hdrop] at hd
          have hlen : (clampLen r.length.value).toNat = r.body.length := by rw [r.clampLen_length.1, Int.toNat_natCast]
          have htail : (r.body ++ crlf ++ requests.flatMap ClientRequest.wire).drop (r.body.length + 2)
              = requests.flatMap ClientRequest.wire := by
            rw [show r.body.length + 2 = (r.body ++ crlf).length by simp [crlf], List.drop_left]
          have hframes := Frames.body (t := r.body ++ crlf ++ requests.flatMap ClientRequest.wire) hl hd
            (by rw [hlen]; simp [crlf]) (by rw [hlen, htail]; exact ih)
          rwa [hdrop, hlen, List.append_assoc r.body, List.take_left,
            show (r.header ++ [13]) ++ 10 :: (r.body ++ (crlf ++ requests.flatMap ClientRequest.wire))
              = ClientRequest.wire (.storage r) ++ requests.flatMap ClientRequest.wire by
                simp [ClientRequest.wire, crlf]] at hframes

theorem startsWith_of_quit {line : List UInt8} (h : methodOf line = .quit) : startsWith line (ascii "quit") = true := by
  by_contra hno
  rw [methodOf, if_neg hno] at h
  split_ifs at h

theorem runCmd_quits {ι : Type} {ix : ScanIndex ι} {now : Int} {line : List UInt8} {s : Scratch} {sh : Shared ι} :
    Ends (fun _ => True) (fun r => r.1 = .quit → methodOf line = .quit) (runCmd ix now line s sh) := by
  unfold runCmd
  cases hm : methodOf line with
  | set => exact Ends.map (ends_trivial _) fun _ _ e => by cases e
  | gets => exact Ends.map (ends_trivial _) fun _ _ e => by cases e
  | get => exact Ends.map (ends_trivial _) fun _ _ e => by cases e
  | below => exact Ends.map (ends_trivial _) fun _ _ e => by cases e
  | less => exact Ends.map (ends_trivial _) fun _ _ e => by cases e
  | greater => exact Ends.map (ends_trivial _) fun _ _ e => by cases e
  | cas => exact Ends.map (ends_trivial _) fun _ _ e => by cases e
  | delete => exact Ends.map (ends_trivial _) fun _ _ e => by cases e
  | incr => exact Ends.map (ends_trivial _) fun _ _ e => by cases e
  | decr => exact Ends.map (ends_trivial _) fun _ _ e => by cases e
  | quit => exact ends_ok.mpr fun _ => rfl
  | unknown => exact ends_ok.mpr fun e => by cases e

/-- `handle_cmd` destroys a connection over nothing but a line that starts with `quit`. -/
theorem quits_handleCmd {ι : Type} {ix : ScanIndex ι} {now : Int} {shared : Shared ι} {request : Request}
    (h : Quits (handleCmd ix now) shared request) : startsWith request.header (ascii "quit") = true := by
  obtain ⟨s, headerLen, bodyLen, s', shared', hheader, he⟩ := h
  have hquit : Ends (fun _ => True) (fun r => r.1 = .quit → methodOf (s.line headerLen) = .quit)
      (handleCmd ix now s headerLen bodyLen shared) := by
    refine Ends.bind (Ends.excuse (terminate_ends s headerLen bodyLen) fun _ _ => trivial) ?_
    rintro s₁ ⟨-, -, hline⟩
    rw [hline]
    exact Ends.bind runCmd_quits fun r hr => ends_pure.mpr hr
  have hline := startsWith_of_quit (hquit.ok he rfl)
  rw [Scratch.line, hheader] at hline
  rw [startsWith, List.isPrefixOf_iff_prefix] at hline ⊢
  exact hline.trans (List.takeWhile_prefix _)

/-- Well-formed requests are passed to `handle_cmd` as they were sent, whatever chunks
they come in, and nothing stays buffered.  (Unless a buffer is missing, or `handle_cmd`
itself stops.) -/
theorem framing_exact {σ : Type} (handleCmd : Handler σ)
    (hquit : ∀ {shared request}, Quits handleCmd shared request → startsWith request.header (ascii "quit") = true)
    {c : Conn σ} (hc : c.Fresh) (requests : List ClientRequest) (chunks : List Chunk)
    (hcut : (chunks.map Chunk.bytes).flatten = requests.flatMap ClientRequest.wire) :
    Ends (fun e => Stops handleCmd e ∨ e = .exhausted)
      (fun r => r.1 = requests.map ClientRequest.request ∧ r.2.live = true ∧ r.2.io.inBufHead = none ∧
        r.2.io.inBufLen = 0) (feed handleCmd c chunks) := by
  obtain ⟨N, io, fd, q, hgood, hin⟩ := hc.pool
  have hk : c.io.framing.Kept (q (.input fd)) := by
    rw [hc.framing]
    exact Framing.kept_fresh _ _
  have hserve : serve [] (chunks.map Chunk.bytes) = (requests.map ClientRequest.request, []) :=
    serve_exact (chunks_bytes chunks) (hcut ▸ frames_wire requests)
  refine (feed_ends chunks hgood hk hc.live).imp ?_
  rintro ⟨passed, c'⟩ ⟨cs, os, hlen, hq, hcase⟩
  rw [hin, hserve] at hcase
  rcases hcase with ⟨hlive, he⟩ | ⟨-, hpre, request, hmem, shared, hquits⟩
  · obtain ⟨rfl, rfl⟩ := Prod.mk.inj he
    exact ⟨rfl, hlive, hq.inBufHead_eq_none.mpr (withQueues_input _ _), hlen⟩
  · obtain ⟨r, -, rfl⟩ := List.mem_map.mp (hpre.subset hmem)
    have hstart := hquit hquits
    cases r with
    | line r => exact absurd (hstart.symm.trans r.not_quit) (by simp)
    | storage r =>
        have hstart' : startsWith r.header (ascii "quit") = true := hstart
        rw [r.not_quit] at hstart'
        cases hstart'

/-- `set k 0 0 2` with a body of CR and LF, then `get k`. -/
def storedAndRead : List ClientRequest :=
  [.storage ⟨none, ascii "k", .decimal 0, .decimal 0, .decimal 2, crlf, by decide, by decide,
      by simp [show ascii "k" = [107] by decide, isSpace], by rw [Numeral.value_decimal]; rfl,
      by rw [Numeral.value_decimal]; rfl, by rw [Numeral.value_decimal]; rfl, by decide⟩,
    .line ⟨ascii "get k", by decide, by decide, by decide, by decide, by decide⟩]

/-- The same bytes, cut behind the first CR of the body. -/
def storedAndReadChunks : List Chunk :=
  [⟨ascii "set k 0 0 2\r\n\r", by decide, by decide⟩, ⟨ascii "\n\r\nget k\r\n", by decide, by decide⟩]

theorem framing_exact_storedAndRead : (Conn.first 8 ⟨fun _ => 0, fun _ => 0⟩ Shared.empty).Fresh ∧
    (storedAndReadChunks.map Chunk.bytes).flatten = storedAndRead.flatMap ClientRequest.wire ∧
    Ends (fun e => Stops (handleCmd ScanIndex.map 0) e ∨ e = .exhausted)
      (fun r => r.1 = storedAndRead.map ClientRequest.request ∧ r.2.live = true ∧ r.2.io.inBufHead = none ∧
        r.2.io.inBufLen = 0)
      (feed (handleCmd ScanIndex.map 0) (Conn.first 8 ⟨fun _ => 0, fun _ => 0⟩ Shared.empty) storedAndReadChunks) := by
  have hfresh := fresh_first (σ := Shared KeyMap) (show 0 < 8 by decide) ⟨fun _ => 0, fun _ => 0⟩ Shared.empty
  have hcut : (storedAndReadChunks.map Chunk.bytes).flatten = storedAndRead.flatMap ClientRequest.wire := by decide +kernel
  exact ⟨hfresh, hcut, framing_exact _ quits_handleCmd hfresh storedAndRead storedAndReadChunks hcut⟩

end Tstdb
