/-
# `Tstdb.V1.Server` — `tstserver.c` of the first version

One thread serves all connections.  A descriptor is waited for to become readable or to
become writable, never both: a request is answered before more is read.  `dataTable` keeps
for each descriptor how far a value has been read and how far a reply has been sent;
requests are looked for at the start of what one `recv` has brought, and what stands
behind a request in the same bytes is dropped.  `big_buffer` is shared by all.

* A `recv` brings at most the bytes it asks for.  An array that it fills up has no
  terminator; what `sscanf` would find behind the array is not modelled.
* What has been written to the blocks of a descriptor is a list, so its length stands
  for `read_cur` and for `need_write`.
* The data table is used with descriptors below `MAX_FD_OPEN`; others are closed.
* Messages on the terminal are left out.
-/
import Mathlib
import Tstdb.Lib.Fuel
import Tstdb.Lib.Runs
import Tstdb.Lib.CText
import Tstdb.Lib.Bytes
import Tstdb.Tst.Arena
import Tstdb.V1.Library
import Tstdb.V1.Map

namespace Tstdb.V1

open Fuel CText Bytes Runs

def IN_BUF_SIZE : Nat := 1024
def MAX_VALUE_SIZE : Nat := 1048576
def MAX_FD_OPEN : Nat := 32767

/-- The size of `key` and of `rsps_msg`. -/
def LINE_SIZE : Nat := 256

/-- `payload_t` -/
structure Payload where
  readBuf : List UInt8
  needRead : Nat
  putkey : List UInt8
  writeBuf : List UInt8
  writeCur : Nat
deriving DecidableEq, Repr

def Payload.zero : Payload := ⟨[], 0, [], [], 0⟩

/-- What a descriptor is in the `epoll` set with. -/
inductive Wait where
  | epollin
  | epollout
deriving DecidableEq, Repr

structure Server where
  db : TstDb
  bigBuffer : Buf
  dataTable : Nat → Payload
  epoll : Nat → Option Wait

inductive ServerFault where
  /-- A call on the database does not return. -/
  | diverge
  /-- The answer of `tst_get`, or the size of a block, is not determined. -/
  | indeterminate
  /-- `strstr` finds no line end. -/
  | noLineEnd
  /-- An access past the end of an array. -/
  | overrun
deriving DecidableEq, Repr

/-! ## Requests -/

/-- What a `recv` of a descriptor that is not reading a value is taken for. -/
inductive Asked where
  | get (key : List UInt8)
  | set (key : List UInt8) (flag expire total : Int)
  | delete (key : List UInt8)
  | other
deriving DecidableEq, Repr

/-- A word that does not fit `key`. -/
def overlong (args : List Arg) : Bool :=
  args.any fun
    | .str word => decide (LINE_SIZE ≤ word.length)
    | _ => false

/-- The three calls of `sscanf`. -/
def asked (buffer : List UInt8) : Except ServerFault Asked :=
  let text := cstr buffer
  let getArgs := sscanf text "get %s\r\n"
  let setArgs := sscanf text "set %s %d %d %d\r\n"
  let deleteArgs := sscanf text "delete %s"
  if overlong (getArgs ++ setArgs ++ deleteArgs) = true then .error .overrun
  else
    match getArgs, setArgs, deleteArgs with
    | [.str key], _, _ => .ok (.get key)
    | _, [.str key, .int flag, .int expire, .int total], _ => .ok (.set key flag expire total)
    | _, _, [.str key] => .ok (.delete key)
    | _, _, _ => .ok .other

/-- `strstr(buffer, "\r\n") - buffer` -/
def lineEnd : List UInt8 → Option Nat
  | 13 :: 10 :: _ => some 0
  | _ :: t => (lineEnd t).map (· + 1)
  | [] => none

/-! ## Handlers -/

/-- A reply is laid out and the descriptor waited for to become writable. -/
def Server.reply (s : Server) (fd : Nat) (text : List UInt8) : Server :=
  { s with
    dataTable := Function.update s.dataTable fd { s.dataTable fd with writeBuf := text, writeCur := 0 }
    epoll := Function.update s.epoll fd (some .epollout) }

/-- `tst_put(g_db, ..)` -/
def Server.put (n : Nat) (s : Server) (key value : List UInt8) : Except ServerFault Server :=
  match tstPut n s.db key value with
  | none => .error .diverge
  | some db => .ok { s with db := db }

/-- `tst_get(g_db, key, big_buffer, &len_of_value)` -/
def Server.get (n : Nat) (s : Server) (key : List UInt8) : Except ServerFault (Nat × Server) :=
  match tstGet n s.db key with
  | none => .error .diverge
  | some none => .error .indeterminate
  | some (some (reply, pos)) =>
      if MAX_VALUE_SIZE < reply.value.length then .error .overrun
      else .ok (reply.lenOfValue, { s with db := s.db.at pos, bigBuffer := s.bigBuffer.write 0 reply.value })

def valueHeader (key : List UInt8) (flag : Int) (lenOfValue : Nat) : List UInt8 :=
  ascii "VALUE " ++ key ++ ascii " " ++ decimal flag ++ ascii " " ++ decimal lenOfValue ++ ascii "\r\n"

def Server.doGet (n : Nat) (now : Int) (s : Server) (fd : Nat) (key : List UInt8) : Except ServerFault Server := do
  let (lenOfValue, s) ← s.get n key
  if lenOfValue = 0 then return s.reply fd (ascii "END\r\n")
  else
    let flag := int32Of (s.bigBuffer.read 0 4)
    let expire := int32Of (s.bigBuffer.read 4 4)
    if expire ≠ 0 ∧ expire ≤ now then
      let s ← s.put n key []
      return s.reply fd (ascii "END\r\n")
    -- the length is unsigned, so it does not become negative
    else if lenOfValue < 8 then throw .indeterminate
    else
      let lenOfValue := lenOfValue - 8
      let rspsMsg := valueHeader key flag lenOfValue
      if LINE_SIZE ≤ rspsMsg.length ∨ MAX_VALUE_SIZE < 8 + lenOfValue then throw .overrun
      else return s.reply fd (rspsMsg ++ s.bigBuffer.read 8 lenOfValue ++ ascii "\r\nEND\r\n")

def Server.doSet (n : Nat) (now : Int) (s : Server) (fd : Nat) (buffer key : List UInt8) (flag expire total : Int) :
    Except ServerFault Server :=
  if total < 0 ∨ (MAX_VALUE_SIZE : Int) < total then .ok (s.reply fd (ascii "ERROR\r\n"))
  else
    match lineEnd (cstr buffer) with
    | none => .error .noLineEnd
    | some pos => do
        let headerLen := pos + 2
        let expire := if expire ≠ 0 then wrap32 (expire + now) else expire
        let rest := buffer.drop headerLen
        let bigBuffer := ((s.bigBuffer.write 0 (int32LE flag)).write 4 (int32LE expire)).write 8 rest
        let s := { s with bigBuffer := bigBuffer }
        let total := total.toNat + 8
        if headerLen + total - 8 < buffer.length then
          let s ← s.put n key (bigBuffer.read 0 total)
          return s.reply fd (ascii "STORED\r\n")
        else
          return { s with
            dataTable := Function.update s.dataTable fd { s.dataTable fd with
              readBuf := bigBuffer.read 0 (rest.length + 8), putkey := key, needRead := total + 2 } }

def Server.doDelete (n : Nat) (s : Server) (fd : Nat) (key : List UInt8) : Except ServerFault Server := do
  let (lenOfValue, s) ← s.get n key
  if lenOfValue = 0 then return s.reply fd (ascii "NOT_FOUND\r\n")
  else
    let s ← s.put n key []
    return s.reply fd (ascii "DELETED\r\n")

/-- More of a value. -/
def Server.readOn (n : Nat) (s : Server) (fd : Nat) (buffer : List UInt8) : Except ServerFault Server := do
  let p := s.dataTable fd
  let readBuf := p.readBuf ++ buffer
  if readBuf.length = p.needRead then
    let s ← s.put n p.putkey (readBuf.take (readBuf.length - 2))
    let s := { s with
      dataTable := Function.update s.dataTable fd { s.dataTable fd with readBuf := [], putkey := [], needRead := 0 } }
    return s.reply fd (ascii "STORED\r\n")
  else return { s with dataTable := Function.update s.dataTable fd { p with readBuf := readBuf } }

/-- The bytes of a `recv`. -/
def Server.received (n : Nat) (now : Int) (s : Server) (fd : Nat) (buffer : List UInt8) : Except ServerFault Server := do
  if (s.dataTable fd).needRead ≠ 0 then s.readOn n fd buffer
  else
    match ← asked buffer with
    | .get key => s.doGet n now fd key
    | .set key flag expire total => s.doSet n now fd buffer key flag expire total
    | .delete key => s.doDelete n fd key
    | .other => return s

/-! ## Events -/

inductive ServerEvent where
  /-- A connection has been accepted. -/
  | accept (fd : Nat)
  /-- `recv` brings these bytes, at that time. -/
  | input (fd : Nat) (buffer : List UInt8) (now : Int)
  /-- `recv` brings nothing. -/
  | closed (fd : Nat)
  /-- `send` takes so many bytes. -/
  | output (fd : Nat) (ct : Nat)
  /-- `send` fails. -/
  | failed (fd : Nat)

def ServerEvent.fd : ServerEvent → Nat
  | .accept fd | .input fd _ _ | .closed fd | .output fd _ | .failed fd => fd

/-- The descriptor is taken out of the set and closed. -/
def Server.close (s : Server) (fd : Nat) : Server := { s with epoll := Function.update s.epoll fd none }

def Server.setPayload (s : Server) (fd : Nat) (p : Payload) : Server :=
  { s with dataTable := Function.update s.dataTable fd p }

/-- `handle_func` for one event, and `accept` in `main`. -/
def Server.exec (n : Nat) (s : Server) : ServerEvent → Except ServerFault Server
  | .accept fd => .ok { s with epoll := Function.update s.epoll fd (some .epollin) }
  | .input fd buffer now => if MAX_FD_OPEN ≤ fd then .ok (s.close fd) else s.received n now fd buffer
  | .closed fd => .ok (s.close fd)
  | .output fd ct =>
      if MAX_FD_OPEN ≤ fd then .ok (s.close fd)
      else
        let p := { s.dataTable fd with writeCur := (s.dataTable fd).writeCur + ct }
        if p.writeCur = p.writeBuf.length then
          .ok { s.setPayload fd { p with writeBuf := [], writeCur := 0 } with
            epoll := Function.update s.epoll fd (some .epollin) }
        else .ok (s.setPayload fd p)
  | .failed fd =>
      if MAX_FD_OPEN ≤ fd then .ok (s.close fd)
      else .ok ((s.setPayload fd { s.dataTable fd with writeBuf := [], writeCur := 0 }).close fd)

/-- How many bytes `recv` asks for. -/
def Server.readLimit (s : Server) (fd : Nat) : Nat :=
  if (s.dataTable fd).needRead = 0 then IN_BUF_SIZE
  else min IN_BUF_SIZE ((s.dataTable fd).needRead - (s.dataTable fd).readBuf.length)

/-- Only what is waited for is reported; `recv` and `send` take no more than they are to. -/
def Server.enabled (s : Server) : ServerEvent → Prop
  | .accept fd => s.epoll fd = none
  | .input fd buffer _ => s.epoll fd = some .epollin ∧ buffer ≠ [] ∧ buffer.length ≤ s.readLimit fd
  | .closed fd => s.epoll fd = some .epollin
  | .output fd ct => s.epoll fd = some .epollout ∧ (s.dataTable fd).writeCur + ct ≤ (s.dataTable fd).writeBuf.length
  | .failed fd => s.epoll fd = some .epollout

def ServerStep (s : Server) (e : ServerEvent) (s' : Server) : Prop :=
  s.enabled e ∧ Settles (fun n => (s.exec n e).toOption) s'

/-! ## What a request asks for -/

/-- A key as a request brings it. -/
structure GoodKey (key : List UInt8) : Prop where
  ne : key ≠ []
  le : key.length ≤ 255
  nul : 0 ∉ key
  word : ∀ b ∈ key, isSpace b = false

/-- The three calls fill `key` with words of the request that fit. -/
theorem asked_args {buffer : List UInt8} {r : Asked} (h : asked buffer = .ok r) {args : List Arg} {key : List UInt8}
    (hargs : ∀ x ∈ args, x ∈ sscanf (cstr buffer) "get %s\r\n" ++ sscanf (cstr buffer) "set %s %d %d %d\r\n" ++
      sscanf (cstr buffer) "delete %s") (hkey : .str key ∈ args) : GoodKey key := by
  have hmem := hargs _ hkey
  have hfits : key.length < LINE_SIZE := by
    unfold asked at h
    simp only at h
    split_ifs at h with hover
    have hall : ∀ x ∈ sscanf (cstr buffer) "get %s\r\n" ++ sscanf (cstr buffer) "set %s %d %d %d\r\n" ++
        sscanf (cstr buffer) "delete %s", x = .str key → key.length < LINE_SIZE := by
      intro x hx hk
      subst hk
      have hno := List.any_eq_false.mp (Bool.eq_false_iff.mpr hover) _ hx
      simpa using hno
    exact hall _ hmem rfl
  have hscan : ∃ fmt, .str key ∈ scan fmt (cstr buffer) := by
    rcases List.mem_append.mp hmem with hmem | hmem
    · rcases List.mem_append.mp hmem with hmem | hmem
      · exact ⟨_, hmem⟩
      · exact ⟨_, hmem⟩
    · exact ⟨_, hmem⟩
  obtain ⟨fmt, hword⟩ := hscan
  obtain ⟨hne, hin⟩ := scan_str hword
  exact ⟨hne, Nat.le_of_lt_succ hfits, fun h0 => notMem_cstr buffer (hin 0 h0).1, fun b hb => (hin b hb).2⟩

/-- The key of a request. -/
def Asked.key? : Asked → Option (List UInt8)
  | .get key | .set key _ _ _ | .delete key => some key
  | .other => none

/-- The numbers of a request are of type `int`. -/
def Asked.Ints : Asked → Prop
  | .set _ flag expire total => wrap32 flag = flag ∧ wrap32 expire = expire ∧ wrap32 total = total
  | _ => True

theorem asked_spec {buffer : List UInt8} {r : Asked} (h : asked buffer = .ok r) :
    (∀ key, r.key? = some key → GoodKey key) ∧ r.Ints := by
  have hgood := @asked_args _ _ h
  unfold asked at h
  simp only at h
  split_ifs at h
  split at h
  · rename_i key hget
    obtain rfl := Except.ok.inj h
    refine ⟨fun key' hk => ?_, trivial⟩
    obtain rfl := Option.some.inj hk
    exact hgood (fun x hx => List.mem_append_left _ (List.mem_append_left _ (hget ▸ hx))) List.mem_cons_self
  · rename_i key flag expire total hset _
    obtain rfl := Except.ok.inj h
    have hints : ∀ n, Arg.int n ∈ [Arg.str key, .int flag, .int expire, .int total] → wrap32 n = n :=
      fun n hn => @scan_int (format "set %s %d %d %d\r\n".toList) (cstr buffer) n
        (show _ ∈ sscanf (cstr buffer) "set %s %d %d %d\r\n" by rw [hset]; exact hn)
    refine ⟨fun key' hk => ?_, hints _ (by simp), hints _ (by simp), hints _ (by simp)⟩
    obtain rfl := Option.some.inj hk
    exact hgood (fun x hx => List.mem_append_left _ (List.mem_append_right _ (hset ▸ hx))) List.mem_cons_self
  · rename_i key hdelete _ _
    obtain rfl := Except.ok.inj h
    refine ⟨fun key' hk => ?_, trivial⟩
    obtain rfl := Option.some.inj hk
    exact hgood (fun x hx => List.mem_append_right _ (hdelete ▸ hx)) List.mem_cons_self
  · obtain rfl := Except.ok.inj h
    exact ⟨fun key' hk => absurd hk (Option.some_ne_none _).symm, trivial⟩

end Tstdb.V1
