/-
# `Tstdb.Client.Calls` — single calls of the client

`set`, `get`, `delete`, `incr` and `decr` of `Client`, for one server and without
retries.  Values of any type go through `_val_to_store_info` into flags and bytes, perhaps
pickled and perhaps compressed, and come back through `_recv_value`; `pickle` and `zlib`
are parameters of which their own round trips are assumed (`Codec.Lawful`).

What is here: the value that was stored is the value that is read (`value_roundtrip`);
each call sends the command it stands for, takes exactly the server's answer off the
stream and returns what the answer says (`ApiCall.Sends.run`); so does a sequence of
calls (`runCalls_spec`).
-/
import Mathlib
import Tstdb.Lib.CText
import Tstdb.Lib.PyText
import Tstdb.Lib.Bytes
import Tstdb.Lib.Outcome
import Tstdb.Lib.Runs
import Tstdb.Tst.Arena
import Tstdb.Tst.Runs
import Tstdb.Server.Index
import Tstdb.Server.Store
import Tstdb.Server.Sections
import Tstdb.Server.Pool
import Tstdb.Server.Commands
import Tstdb.Server.Values
import Tstdb.Server.Replies
import Tstdb.Server.History
import Tstdb.Client.Host
import Tstdb.Client.Keys
import Tstdb.Client.Values
import Tstdb.Client.Lines

namespace Tstdb

open CText Bytes Outcome Runs

attribute [local instance] lawful_bytes

/-! ## Values -/

def SERVER_MAX_VALUE_LENGTH : Nat := 1024 * 1024

def FLAG_PICKLE : Int := 1
def FLAG_INTEGER : Int := 2
def FLAG_LONG : Int := 4
def FLAG_COMPRESSED : Int := 8

/-- What the client uses of `pickle` and `zlib`. -/
structure Codec (Ω : Type) where
  dumps : Ω → List UInt8
  /-- `none` where it raises. -/
  loads : List UInt8 → Option Ω
  supportsCompress : Bool
  compress : List UInt8 → List UInt8
  /-- `none` where it raises. -/
  decompress : List UInt8 → Option (List UInt8)

/-- What is packed is unpacked. -/
structure Codec.Lawful {Ω : Type} (codec : Codec Ω) : Prop where
  pickle : ∀ o, codec.loads (codec.dumps o) = some o
  zlib : codec.supportsCompress = true → ∀ s, codec.decompress (codec.compress s) = some s

/-- A value; objects that are neither strings nor numbers are pickled. -/
inductive PyValue (Ω : Type) where
  | str (s : List UInt8)
  | int (n : Int)
  | long (n : Int)
  | object (o : Ω)

/-- What `_recv_value` makes of a body. -/
inductive Decoded (Ω : Type) where
  | value (v : PyValue Ω)
  /-- `None` -/
  | none
  /-- An exception: the bytes cannot be read, or no type has these flags. -/
  | raises

section Values

variable {Ω : Type} (codec : Codec Ω)

/-- The flags, the bytes and whether they may be compressed. -/
def PyValue.pack (minCompressLen : Int) : PyValue Ω → Int × List UInt8 × Int
  | .str s => (0, s, minCompressLen)
  | .int n => (FLAG_INTEGER, decimal n, 0)
  | .long n => (FLAG_LONG, decimal n, 0)
  | .object o => (FLAG_PICKLE, codec.dumps o, minCompressLen)

/-- `_val_to_store_info`; `none` for its `0`. -/
def valToStoreInfo (val : PyValue Ω) (minCompressLen : Int) : Option (Int × Nat × List UInt8) :=
  let (flags, text, minCompressLen) := val.pack codec minCompressLen
  let (flags, text) :=
    if minCompressLen ≠ 0 ∧ codec.supportsCompress = true ∧ minCompressLen < text.length then
      let compVal := codec.compress text
      if compVal.length < text.length then (Int.lor flags FLAG_COMPRESSED, compVal) else (flags, text)
    else (flags, text)
  if SERVER_MAX_VALUE_LENGTH ≠ 0 ∧ SERVER_MAX_VALUE_LENGTH < text.length then none else some (flags, text.length, text)

/-- The chain of `_recv_value` over the flags. -/
def unpackValue (flags : Int) (buf : List UInt8) : Decoded Ω :=
  if flags = 0 ∨ flags = FLAG_COMPRESSED then .value (.str buf)
  else if Int.land flags FLAG_INTEGER ≠ 0 then
    match PyText.int buf with
    | some n => .value (.int n)
    | none => .raises
  else if Int.land flags FLAG_LONG ≠ 0 then
    match PyText.long buf with
    | some n => .value (.long n)
    | none => .raises
  else if Int.land flags FLAG_PICKLE ≠ 0 then
    match codec.loads buf with
    | some o => .value (.object o)
    | none => .none
  else .raises

/-- The rest of `_recv_value`, from the body as it was received. -/
def decodeValue (flags : Int) (buf : List UInt8) : Decoded Ω :=
  match if Int.land flags FLAG_COMPRESSED ≠ 0 then codec.decompress buf else some buf with
  | none => .raises
  | some buf => unpackValue codec flags buf

end Values

section RoundTrip

variable {Ω : Type} {codec : Codec Ω} {val : PyValue Ω} {minCompressLen flags m : Int} {text : List UInt8}

/-- The flags tell the type, with the bit for compression and without. -/
theorem unpack_pack (hc : codec.Lawful) (h : val.pack codec minCompressLen = (flags, text, m)) :
    unpackValue codec flags text = .value val ∧ unpackValue codec (Int.lor flags FLAG_COMPRESSED) text = .value val ∧
      Int.land flags FLAG_COMPRESSED = 0 ∧ Int.land (Int.lor flags FLAG_COMPRESSED) FLAG_COMPRESSED ≠ 0 := by
  cases val with
  | str s =>
      obtain ⟨rfl, rfl, rfl⟩ : 0 = flags ∧ s = text ∧ minCompressLen = m := by simpa [PyValue.pack] using h
      exact ⟨rfl, rfl, rfl, by decide⟩
  | int n =>
      obtain ⟨rfl, rfl, rfl⟩ : FLAG_INTEGER = flags ∧ decimal n = text ∧ 0 = m := by simpa [PyValue.pack] using h
      refine ⟨?_, ?_, rfl, by decide⟩
      · rw [unpackValue, if_neg (by decide), if_pos (by decide), PyText.int_decimal]
      · rw [unpackValue, if_neg (by decide), if_pos (by decide), PyText.int_decimal]
  | long n =>
      obtain ⟨rfl, rfl, rfl⟩ : FLAG_LONG = flags ∧ decimal n = text ∧ 0 = m := by simpa [PyValue.pack] using h
      refine ⟨?_, ?_, rfl, by decide⟩
      · rw [unpackValue, if_neg (by decide), if_neg (by decide), if_pos (by decide), PyText.long_decimal]
      · rw [unpackValue, if_neg (by decide), if_neg (by decide), if_pos (by decide), PyText.long_decimal]
  | object o =>
      obtain ⟨rfl, rfl, rfl⟩ : FLAG_PICKLE = flags ∧ codec.dumps o = text ∧ minCompressLen = m := by
        simpa [PyValue.pack] using h
      refine ⟨?_, ?_, rfl, by decide⟩
      · rw [unpackValue, if_neg (by decide), if_neg (by decide), if_neg (by decide), if_pos (by decide), hc.pickle]
      · rw [unpackValue, if_neg (by decide), if_neg (by decide), if_neg (by decide), if_pos (by decide), hc.pickle]

/-- A value of any type is read back as it was stored, whether it was worth compressing
or not. -/
theorem value_roundtrip (hc : codec.Lawful) {len : Nat}
    (h : valToStoreInfo codec val minCompressLen = some (flags, len, text)) :
    decodeValue codec flags text = .value val ∧ len = text.length ∧ text.length ≤ SERVER_MAX_VALUE_LENGTH := by
  obtain ⟨flags₁, text₁, m, hpack⟩ : ∃ flags₁ text₁ m, val.pack codec minCompressLen = (flags₁, text₁, m) := ⟨_, _, _, rfl⟩
  obtain ⟨hplain, hcompressed, hland, hlor⟩ := unpack_pack hc hpack
  simp only [valToStoreInfo, hpack] at h
  have hdone : ∀ {flags₂ : Int} {text₂ : List UInt8},
      ¬(SERVER_MAX_VALUE_LENGTH ≠ 0 ∧ SERVER_MAX_VALUE_LENGTH < text₂.length) →
      some (flags₂, text₂.length, text₂) = some (flags, len, text) → decodeValue codec flags₂ text₂ = .value val →
      decodeValue codec flags text = .value val ∧ len = text.length ∧ text.length ≤ SERVER_MAX_VALUE_LENGTH := by
    intro flags₂ text₂ hlong he hvalue
    obtain ⟨rfl, rfl, rfl⟩ := he
    exact ⟨hvalue, rfl, Nat.not_lt.mp fun hlt => hlong ⟨by decide, hlt⟩⟩
  have hdirect : decodeValue codec flags₁ text₁ = .value val := by
    rw [decodeValue, if_neg (not_not.mpr hland)]
    exact hplain
  split_ifs at h with hcomp hshort hlong hlong hlong
  · refine hdone hlong h ?_
    rw [decodeValue, if_pos hlor, hc.zlib hcomp.2.1]
    exact hcompressed
  · exact hdone hlong h hdirect
  · exact hdone hlong h hdirect

end RoundTrip

/-- Without `zlib`, for `None` alone. -/
def Codec.noneOnly : Codec Unit where
  dumps _ := ascii "N."
  loads s := if s = ascii "N." then some () else none
  supportsCompress := false
  compress s := s
  decompress _ := none

theorem Codec.noneOnly_lawful : Codec.noneOnly.Lawful := ⟨fun _ => rfl, fun h => by cases h⟩

/-! ## Calls -/

section Calls

variable {Ω : Type} (codec : Codec Ω)

/-- `_set` with the command `set` -/
def setCall (server : Host) (key : List UInt8) (val : PyValue Ω) (time minCompressLen : Int) :
    Except ClientError (Bool × Host) := do
  checkKey key
  match valToStoreInfo codec val minCompressLen with
  | none => return (false, server)
  | some (flags, len, text) =>
      let server := server.sendCmd (ascii "set " ++ key ++ ascii " " ++ decimal flags ++ ascii " " ++ decimal time ++
        ascii " " ++ decimal len ++ ascii "\r\n" ++ text)
      let (line, server) ← server.expect (ascii "STORED")
      return (decide (line = ascii "STORED"), server)

/-- `_get` with the command `get` -/
def getCall (server : Host) (key : List UInt8) : Except ClientError (Decoded Ω × Host) := do
  checkKey key
  let server := server.sendCmd (ascii "get " ++ key)
  let (line, server) ← server.readline
  match ← expectvalue line with
  | none => return (.none, server)
  | some (_, flags, rlen) =>
      let (buf, server) ← recvValue server rlen
      let (_, server) ← server.expect (ascii "END")
      return (decodeValue codec flags buf, server)

/-- `delete` -/
def deleteCall (server : Host) (key : List UInt8) (time : Int) : Except ClientError (Bool × Host) := do
  checkKey key
  let server := server.sendCmd (ascii "delete " ++ key ++ if time ≠ 0 then ascii " " ++ decimal time else [])
  let (line, server) ← server.readline
  return (decide (line ≠ [] ∧ PyText.strip line ∈ [ascii "DELETED", ascii "NOT_FOUND"]), server)

/-- `_incrdecr` -/
def incrdecr (server : Host) (cmd key : List UInt8) (delta : Int) : Except ClientError (Option Int × Host) := do
  checkKey key
  let server := server.sendCmd (cmd ++ ascii " " ++ key ++ ascii " " ++ decimal delta)
  let (line, server) ← server.readline
  if PyText.strip line = ascii "NOT_FOUND" then return (none, server)
  else
    let n ← toInt line
    return (some n, server)

/-- A call of a method of `Client`. -/
inductive ApiCall (Ω : Type) where
  | set (key : List UInt8) (val : PyValue Ω) (minCompressLen : Int)
  | get (key : List UInt8)
  | delete (key : List UInt8)
  | incrdecr (key : List UInt8) (delta : Int) (isDecr : Bool)

/-- What it returns. -/
inductive ApiResult (Ω : Type) where
  | done (b : Bool)
  | got (d : Decoded Ω)
  | number (n : Option Int)

/-- The methods with their default times. -/
def ApiCall.run (server : Host) : ApiCall Ω → Except ClientError (ApiResult Ω × Host)
  | .set key val minCompressLen => do
      let (b, server) ← setCall codec server key val 0 minCompressLen
      return (.done b, server)
  | .get key => do
      let (d, server) ← getCall codec server key
      return (.got d, server)
  | .delete key => do
      let (b, server) ← deleteCall server key 0
      return (.done b, server)
  | .incrdecr key delta isDecr => do
      let (n, server) ← Tstdb.incrdecr server (if isDecr then ascii "decr" else ascii "incr") key delta
      return (.number n, server)

def runCalls : Host → List (ApiCall Ω) → Except ClientError (List (ApiResult Ω) × Host)
  | server, [] => .ok ([], server)
  | server, call :: calls => do
      let (result, server) ← call.run codec server
      let (results, server) ← runCalls server calls
      return (result :: results, server)

/-- The command a call stands for. -/
inductive ApiCall.Sends : ApiCall Ω → Command → Prop
  | set {key : WireKey} {val : PyValue Ω} {minCompressLen flags : Int} {body : Body} (hkey : checkKey key.bytes = .ok ())
      (h : valToStoreInfo codec val minCompressLen = some (flags, body.bytes.length, body.bytes)) :
      Sends (.set key.bytes val minCompressLen) (.set key flags body false)
  | get {key : WireKey} (hkey : checkKey key.bytes = .ok ()) : Sends (.get key.bytes) (.get key)
  | delete {key : WireKey} (hkey : checkKey key.bytes = .ok ()) : Sends (.delete key.bytes) (.delete key)
  | incrdecr {key : WireKey} {delta : Int} {isDecr : Bool} (hkey : checkKey key.bytes = .ok ()) (h : wrap32 delta = delta) :
      Sends (.incrdecr key.bytes delta isDecr) (.incrOrDecr key delta isDecr)

/-- What the client is to get for its command. -/
def Command.result (h : History) : Command → ApiResult Ω
  | .get key =>
      match h.last key.toKey with
      | none => .got .none
      | some w => .got (decodeValue codec w.record.flag w.record.body)
  | .incrOrDecr key delta isDecr =>
      .number ((h.last key.toKey).map fun w => steppedNumber w.record.body delta isDecr)
  | _ => .done true

end Calls

/-! ### The host keeps what it has sent -/

section Sent

variable {server server' : Host} {line data : List UInt8}

theorem readline_sent (h : server.readline = .ok (line, server')) : server'.sent = server.sent := by
  have hloop : ∀ {fuel : Nat} {buf : List UInt8} {socket : List (List UInt8)},
      server.readlineLoop fuel buf socket = .ok (line, server') → server'.sent = server.sent := by
    intro fuel
    induction fuel with
    | zero => intro buf socket h; cases h
    | succ fuel ih =>
        intro buf socket h
        rw [Host.readlineLoop] at h
        split at h
        · cases h
          rfl
        · simp only at h
          split_ifs at h
          exact ih h
  exact hloop h

theorem recv_sent {rlen : Int} (h : server.recv rlen = .ok (data, server')) : server'.sent = server.sent := by
  have hloop : ∀ {fuel : Nat} {buf : List UInt8} {socket : List (List UInt8)},
      server.recvLoop rlen fuel buf socket = .ok (data, server') → server'.sent = server.sent := by
    intro fuel
    induction fuel with
    | zero => intro buf socket h; cases h
    | succ fuel ih =>
        intro buf socket h
        rw [Host.recvLoop] at h
        split_ifs at h
        · simp only at h
          split_ifs at h
          exact ih h
        · cases h
          rfl
  exact hloop h

theorem recvValue_sent {rlen : Int} (h : recvValue server rlen = .ok (data, server')) : server'.sent = server.sent := by
  rw [recvValue] at h
  cases he : server.recv (rlen + 2) with
  | error e => simp only [he, bind, Except.bind] at h; cases h
  | ok r =>
      simp only [he, bind, Except.bind] at h
      split_ifs at h
      cases h
      exact recv_sent he

end Sent

/-! ### What a call does -/

section Spec

variable {Ω : Type} {codec : Codec Ω} {server : Host} {rest : List UInt8} {a : ApiCall Ω} {c : Command}

theorem Host.Holds.sendCmd {stream : List UInt8} (h : server.Holds stream) (cmd : List UInt8) :
    (server.sendCmd cmd).Holds stream := ⟨h.bytes, h.pieces⟩

theorem valToStoreInfo_flags {val : PyValue Ω} {minCompressLen flags : Int} {len : Nat} {text : List UInt8}
    (h : valToStoreInfo codec val minCompressLen = some (flags, len, text)) : wrap32 flags = flags := by
  have hpack : ∃ flags₁ text₁ m, val.pack codec minCompressLen = (flags₁, text₁, m) ∧
      wrap32 flags₁ = flags₁ ∧ wrap32 (Int.lor flags₁ FLAG_COMPRESSED) = Int.lor flags₁ FLAG_COMPRESSED := by
    cases val <;> exact ⟨_, _, _, rfl, by decide, by decide⟩
  obtain ⟨flags₁, text₁, m, hpack, h₁, h₂⟩ := hpack
  simp only [valToStoreInfo, hpack] at h
  split_ifs at h
  · cases h
    exact h₂
  · cases h
    exact h₁
  · cases h
    exact h₁

theorem key_visible {key : WireKey} (h : checkKey key.bytes = .ok ()) :
    (∀ b ∈ key.bytes, isSpace b = false) ∧ 13 ∉ key.bytes := by
  obtain ⟨-, -, hle⟩ := checkKey_ok h
  exact ⟨fun b hb => isSpace_of_le (hle b hb), fun hm => absurd (hle 13 hm) (by decide)⟩

theorem ApiCall.Sends.wired (hs : a.Sends codec c) : c.Wired := by
  cases hs with
  | set hkey h => exact ⟨(key_visible hkey).1, valToStoreInfo_flags h⟩
  | get hkey => exact ⟨(key_visible hkey).1, trivial⟩
  | delete hkey => exact ⟨(key_visible hkey).1, trivial⟩
  | incrdecr hkey h => exact ⟨(key_visible hkey).1, h⟩

/-- What a call leaves: its result, the stream behind its answer, and its command sent. -/
def Returns (codec : Codec Ω) (server : Host) (a : ApiCall Ω) (c : Command) (h : History) (rest : List UInt8) : Prop :=
  ∃ server', a.run codec server = .ok (c.result codec h, server') ∧ server'.Holds rest ∧
    server'.sent = server.sent ++ c.wire

/-- The bytes of the lines are those of the commands. -/
theorem wire_of_words (method : List UInt8) (ws : List (List UInt8)) (server : Host) :
    (server.sendCmd (method ++ spaced ws)).sent = server.sent ++ (method ++ spaced ws ++ crlf) := by
  rw [Host.sendCmd, List.append_assoc]
  rfl

theorem get_returns {key : WireKey} (hkey : checkKey key.bytes = .ok ()) {h : History}
    (hs : server.Holds (((Command.get key).answer h).flatten ++ rest)) :
    Returns codec server (.get key.bytes) (.get key) h rest := by
  obtain ⟨hspace, h13⟩ := key_visible hkey
  have hs₁ := hs.sendCmd (ascii "get " ++ key.bytes)
  have hwire : (server.sendCmd (ascii "get " ++ key.bytes)).sent = server.sent ++ (Command.get key).wire := by
    have hw := wire_of_words (ascii "get") [key.bytes] server
    rw [spaced_last] at hw
    rw [show ascii "get " ++ key.bytes = ascii "get" ++ ([32] ++ key.bytes) from rfl, hw]
    simp [Command.wire, Command.header, Command.method, Command.args, Command.key, Command.body?, spaced_last]
  unfold Returns
  simp only [Command.answer] at hs₁
  cases hl : h.last key.toKey with
  | none =>
      simp only [hl, List.flatten_singleton] at hs₁
      obtain ⟨server₂, hline, hs₂⟩ := expect_end hs₁
      have hline' : (server.sendCmd (ascii "get " ++ key.bytes)).readline = .ok (ascii "END", server₂) := hline
      refine ⟨server₂, ?_, hs₂, by rw [readline_sent hline', hwire]⟩
      simp only [ApiCall.run, getCall, hkey, hline', bind, Except.bind, Command.result, hl]
      rfl
  | some w =>
      obtain ⟨offset, flag, expire, body⟩ := w
      simp only [hl, List.flatten_singleton] at hs₁
      have hstream : valueLine key.bytes flag body.length none ++ body ++ ascii "\r\n" ++ ascii "END\r\n" ++ rest
          = (ascii "VALUE " ++ key.bytes ++ ascii " " ++ decimal flag ++ ascii " " ++ decimal body.length) ++ PyText.crlf ++
            (body ++ PyText.crlf ++ (ascii "END\r\n" ++ rest)) := by
        rw [show PyText.crlf = ascii "\r\n" from rfl]
        simp only [valueLine, List.append_nil, List.append_assoc]
      have hcr : 13 ∉ ascii "VALUE " ++ key.bytes ++ ascii " " ++ decimal flag ++ ascii " " ++ decimal body.length := by
        have hdec : ∀ n : Int, 13 ∉ decimal n := fun n hm => absurd (le_of_mem_decimal hm).1 (by decide)
        have hspace1 : 13 ∉ ascii " " := by decide
        simp only [List.mem_append, not_or]
        exact ⟨⟨⟨⟨⟨by decide +kernel, h13⟩, hspace1⟩, hdec _⟩, hspace1⟩, hdec _⟩
      rw [hstream] at hs₁
      obtain ⟨server₂, hline, hs₂⟩ := readline_spec hs₁ hcr
      obtain ⟨server₃, hbody, hs₃⟩ := recvValue_spec hs₂
      obtain ⟨server₄, hend, hs₄⟩ := expect_end hs₃
      refine ⟨server₄, ?_, hs₄, ?_⟩
      · simp only [ApiCall.run, getCall, hkey, hline, bind, Except.bind, expectvalue_spec key.ne hspace, hbody, hend,
          Command.result, hl]
        rfl
      · rw [readline_sent hend, recvValue_sent hbody, readline_sent hline, hwire]

theorem delete_returns {key : WireKey} (hkey : checkKey key.bytes = .ok ()) {h : History}
    (hs : server.Holds (((Command.delete key).answer h).flatten ++ rest)) :
    Returns codec server (.delete key.bytes) (.delete key) h rest := by
  have hs₁ := hs.sendCmd (ascii "delete " ++ key.bytes ++ [])
  have hwire : (server.sendCmd (ascii "delete " ++ key.bytes ++ [])).sent = server.sent ++ (Command.delete key).wire := by
    have hw := wire_of_words (ascii "delete") [key.bytes] server
    rw [spaced_last] at hw
    rw [List.append_nil, show ascii "delete " ++ key.bytes = ascii "delete" ++ ([32] ++ key.bytes) from rfl, hw]
    simp [Command.wire, Command.header, Command.method, Command.args, Command.key, Command.body?, spaced_last]
  have hanswer : ∃ line, line ∈ [ascii "DELETED", ascii "NOT_FOUND"] ∧ 13 ∉ line ∧ PyText.strip line = line ∧ line ≠ [] ∧
      ((Command.delete key).answer h).flatten = line ++ PyText.crlf := by
    rcases Classical.em ((h.last key.toKey).isSome = true) with hl | hl
    · refine ⟨ascii "DELETED", by simp, by decide +kernel, by decide +kernel, by decide, ?_⟩
      rw [Command.answer, if_pos hl]
      rfl
    · refine ⟨ascii "NOT_FOUND", by simp, by decide +kernel, by decide +kernel, by decide, ?_⟩
      rw [Command.answer, if_neg hl]
      rfl
  obtain ⟨line, hmem, hcr, hstrip, hne, hline⟩ := hanswer
  rw [hline] at hs₁
  obtain ⟨server₂, hread, hs₂⟩ := readline_spec hs₁ hcr
  refine ⟨server₂, ?_, hs₂, by rw [readline_sent hread, hwire]⟩
  have htrue : decide (line ≠ [] ∧ PyText.strip line ∈ [ascii "DELETED", ascii "NOT_FOUND"]) = true :=
    decide_eq_true ⟨hne, by rwa [hstrip]⟩
  simp only [ApiCall.run, deleteCall, hkey, bind, Except.bind, ne_eq, not_true_eq_false, if_false, hread]
  simp only [ne_eq] at htrue
  rw [htrue]
  rfl

theorem set_returns {key : WireKey} {val : PyValue Ω} {minCompressLen flags : Int} {body : Body}
    (hkey : checkKey key.bytes = .ok ())
    (hinfo : valToStoreInfo codec val minCompressLen = some (flags, body.bytes.length, body.bytes)) {h : History}
    (hs : server.Holds (((Command.set key flags body false).answer h).flatten ++ rest)) :
    Returns codec server (.set key.bytes val minCompressLen) (.set key flags body false) h rest := by
  obtain ⟨cmd, hcmd⟩ : ∃ cmd, cmd = ascii "set " ++ key.bytes ++ ascii " " ++ decimal flags ++ ascii " " ++ decimal 0 ++
    ascii " " ++ decimal body.bytes.length ++ ascii "\r\n" ++ body.bytes := ⟨_, rfl⟩
  have hs₁ := hs.sendCmd cmd
  have hwire : (server.sendCmd cmd).sent = server.sent ++ (Command.set key flags body false).wire := by
    rw [Host.sendCmd, hcmd, show ascii "set " = ascii "set" ++ [32] from rfl, show ascii " " = [32] from rfl,
      show ascii "\r\n" = crlf from rfl, show PyText.crlf = crlf from rfl]
    simp [Command.wire, Command.header, Command.method, Command.args, Command.key, Command.body?, spaced, noreplyWord]
  have hstored : ((Command.set key flags body false).answer h).flatten = ascii "STORED" ++ PyText.crlf := rfl
  rw [hstored] at hs₁
  obtain ⟨server₂, hread, hs₂⟩ := readline_spec hs₁ (by decide +kernel)
  have hexpect : (server.sendCmd cmd).expect (ascii "STORED") = .ok (ascii "STORED", server₂) := hread
  refine ⟨server₂, ?_, hs₂, by rw [readline_sent hread, hwire]⟩
  rw [hcmd] at hexpect
  simp only [ApiCall.run, setCall, hkey, hinfo, bind, Except.bind, hexpect]
  rfl

theorem incrdecr_returns {key : WireKey} {delta : Int} {isDecr : Bool} (hkey : checkKey key.bytes = .ok ()) {h : History}
    (hs : server.Holds (((Command.incrOrDecr key delta isDecr).answer h).flatten ++ rest)) :
    Returns codec server (.incrdecr key.bytes delta isDecr) (.incrOrDecr key delta isDecr) h rest := by
  obtain ⟨cmd, hcmd⟩ : ∃ cmd, cmd = (if isDecr then ascii "decr" else ascii "incr") ++ ascii " " ++ key.bytes ++
    ascii " " ++ decimal delta := ⟨_, rfl⟩
  have hs₁ := hs.sendCmd cmd
  have hwire : (server.sendCmd cmd).sent = server.sent ++ (Command.incrOrDecr key delta isDecr).wire := by
    rw [Host.sendCmd, hcmd, show ascii " " = [32] from rfl, show PyText.crlf = crlf from rfl]
    simp [Command.wire, Command.header, Command.method, Command.args, Command.key, Command.body?, spaced]
  cases hl : h.last key.toKey with
  | none =>
      have hanswer : ((Command.incrOrDecr key delta isDecr).answer h).flatten = ascii "NOT_FOUND" ++ PyText.crlf := by
        simp only [Command.answer, hl]
        rfl
      rw [hanswer] at hs₁
      obtain ⟨server₂, hread, hs₂⟩ := readline_spec hs₁ (by decide +kernel)
      refine ⟨server₂, ?_, hs₂, by rw [readline_sent hread, hwire]⟩
      rw [hcmd] at hread
      simp only [ApiCall.run, incrdecr, hkey, hread, bind, Except.bind,
        if_pos (show PyText.strip (ascii "NOT_FOUND") = ascii "NOT_FOUND" by decide +kernel), Command.result, hl]
      rfl
  | some w =>
      obtain ⟨n, hn⟩ : ∃ n, n = steppedNumber w.record.body delta isDecr := ⟨_, rfl⟩
      have hanswer : ((Command.incrOrDecr key delta isDecr).answer h).flatten = decimal n ++ PyText.crlf := by
        simp only [Command.answer, hl, ← hn, List.flatten_singleton]
        rfl
      have hcr : 13 ∉ decimal n := fun hm => absurd (le_of_mem_decimal hm).1 (by decide)
      have hnumber : ¬PyText.strip (decimal n) = ascii "NOT_FOUND" := by
        rw [PyText.strip_word PyText.isSpace_decimal]
        intro e
        have hm : 78 ∈ decimal n := by rw [e]; decide +kernel
        exact absurd (le_of_mem_decimal hm).2 (by decide)
      rw [hanswer] at hs₁
      obtain ⟨server₂, hread, hs₂⟩ := readline_spec hs₁ hcr
      refine ⟨server₂, ?_, hs₂, by rw [readline_sent hread, hwire]⟩
      rw [hcmd] at hread
      simp only [ApiCall.run, incrdecr, hkey, hread, bind, Except.bind, if_neg hnumber, toInt, PyText.int_decimal,
        Option.elim_some, Command.result, hl, Option.map_some, ← hn]
      rfl

/-- A call sends its command, takes the answer off the stream and returns what it says. -/
theorem ApiCall.Sends.run (hs : a.Sends codec c) {h : History} (hserver : server.Holds ((c.answer h).flatten ++ rest)) :
    Returns codec server a c h rest := by
  cases hs with
  | set hkey hinfo => exact set_returns hkey hinfo hserver
  | get hkey => exact get_returns hkey hserver
  | delete hkey => exact delete_returns hkey hserver
  | incrdecr hkey h => exact incrdecr_returns hkey hserver

/-- So do calls one after the other, each against the history of its moment. -/
theorem runCalls_spec {calls : List (ApiCall Ω)} {l : List (Command × History)}
    (hs : List.Forall₂ (fun a x => ApiCall.Sends codec a x.1) calls l) : ∀ {server : Host},
    server.Holds ((l.flatMap fun x => (x.1.answer x.2).flatten) ++ rest) →
    ∃ server', runCalls codec server calls = .ok (l.map fun x => x.1.result codec x.2, server') ∧ server'.Holds rest ∧
      server'.sent = server.sent ++ l.flatMap fun x => x.1.wire := by
  induction hs with
  | nil =>
      intro server h
      exact ⟨server, rfl, h, (List.append_nil _).symm⟩
  | cons hsends _ ih =>
      intro server h
      rw [List.flatMap_cons, List.append_assoc] at h
      obtain ⟨server₁, hrun, hs₁, hsent₁⟩ := hsends.run h
      obtain ⟨server₂, hruns, hs₂, hsent₂⟩ := ih hs₁
      refine ⟨server₂, ?_, hs₂, by rw [hsent₂, hsent₁, List.flatMap_cons, List.append_assoc]⟩
      simp only [runCalls, hrun, hruns, bind, Except.bind]
      rfl

end Spec

end Tstdb
