/-
# `Tstdb.Server.Pool` — the buffers of a worker and the connections that hold them

Every worker has a pool of buffers of `BUF_UNIT_SIZE` bytes.  A connection queues
what it has received and what it still has to send in chains of such buffers; a
chain is linked through the buffers' `next` fields, and so is the free list.
Indices of buffers stand for pointers to them, and `none` for `-1` and for `NULL`.

`handle_cmd` is a parameter here (`Handler`): what it writes to the connection is a
list of `append_send_data` calls, or it destroys the connection.

A function halts without a result (`Halt`) when `alloc_buf` has run out, when an
assertion fails, when a null pointer is followed, when a loop does not end, or when
the handler does.  Loops over a chain run on as many steps as the pool has buffers.
The copies that overlap are moves.
-/
import Mathlib
import Tstdb.Lib.CText
import Tstdb.Lib.Bytes
import Tstdb.Tst.Arena
import Tstdb.Tst.Runs
import Tstdb.Server.Index
import Tstdb.Server.Store

namespace Tstdb

open CText Bytes

def BUF_UNIT_SIZE : Nat := 512

inductive Halt where
  /-- `alloc_buf` has no buffer left. -/
  | exhausted
  | assertion
  | null
  | endless
  | handler (f : Fault)
deriving DecidableEq, Repr

structure Buffer where
  /-- The first `size` bytes of `data`. -/
  data : List UInt8
  next : Option Nat

def Buffer.size (b : Buffer) : Nat := b.data.length

structure Pool where
  /-- The number of buffers. -/
  nItems : Nat
  base : Nat → Buffer
  head : Option Nat

def Pool.set (bp : Pool) (i : Nat) (b : Buffer) : Pool := { bp with base := Function.update bp.base i b }

def bpNew (nItems : Nat) : Pool where
  nItems := nItems
  base i := ⟨[], if i + 1 < nItems then some (i + 1) else none⟩
  head := some 0

/-- The last buffer is never handed out: the head that would be left is asserted. -/
def allocBuf (bp : Pool) : Except Halt (Nat × Pool) :=
  match bp.head with
  | none => .error .exhausted
  | some buf =>
      match (bp.base buf).next with
      | none => .error .exhausted
      | some nextHead => .ok (buf, { bp.set buf ⟨[], none⟩ with head := some nextHead })

def freeBuf (bp : Pool) (buf : Nat) : Except Halt Pool :=
  match bp.head with
  | none => .error .assertion
  | some curHead => .ok { bp.set buf ⟨[], some curHead⟩ with head := some buf }

structure IoData where
  headerLen : Nat
  bodyLen : Int
  isWriteCmd : Bool
  inBufHead : Option Nat
  inBufTail : Option Nat
  outBufHead : Option Nat
  outBufTail : Option Nat
  inBufLen : Int
deriving DecidableEq

/-- A slot of `g_io_table` before its first use. -/
def IoData.zero : IoData := ⟨0, 0, false, none, none, none, none, 0⟩

/-- `alloc_io_data`; the length of the input stays what it was. -/
def allocIoData (p : IoData) : IoData :=
  { p with
    inBufHead := none, inBufTail := none, outBufHead := none, outBufTail := none
    headerLen := 0, bodyLen := -1, isWriteCmd := false }

/-- `free_buf` for the buffers from `q` on. -/
def freeFrom : Nat → Pool → Option Nat → Except Halt Pool
  | _, bp, none => .ok bp
  | 0, _, some _ => .error .endless
  | fuel + 1, bp, some q => do
      let next := (bp.base q).next
      let bp ← freeBuf bp q
      freeFrom fuel bp next

def freeInBufList (bp : Pool) (p : IoData) : Except Halt (Pool × IoData) := do
  let bp ← freeFrom bp.nItems bp p.inBufHead
  return (bp, { p with inBufHead := none, inBufLen := 0 })

def freeOutBufList (bp : Pool) (p : IoData) : Except Halt (Pool × IoData) := do
  let bp ← freeFrom bp.nItems bp p.outBufHead
  return (bp, { p with outBufHead := none })

/-- `if (io_data_ptr->in_buf_head) free_in_buf_list(io_data_ptr);` -/
def destroyInBuf (bp : Pool) (p : IoData) : Except Halt (Pool × IoData) :=
  match p.inBufHead with
  | none => .ok (bp, p)
  | some _ => freeInBufList bp p

def destroyOutBuf (bp : Pool) (p : IoData) : Except Halt (Pool × IoData) :=
  match p.outBufHead with
  | none => .ok (bp, p)
  | some _ => freeOutBufList bp p

def destroyIoData (bp : Pool) (p : IoData) : Except Halt (Pool × IoData) := do
  let (bp, p) ← destroyInBuf bp p
  let (bp, p) ← destroyOutBuf bp p
  return (bp, { p with inBufHead := none, outBufHead := none, inBufTail := none, outBufTail := none })

/-! ## Receiving and sending -/

/-- What one `recv` can bring. -/
structure Chunk where
  bytes : List UInt8
  pos : bytes ≠ []
  fits : bytes.length ≤ BUF_UNIT_SIZE

inductive Recv where
  | bytes (c : Chunk)
  /-- Nothing, and `errno` is `EAGAIN` or `EWOULDBLOCK`. -/
  | again
  /-- Nothing, and `errno` is something else. -/
  | failed

/-- The buffer `append_recv_data` receives into, behind the others. -/
def linkInBuf (bp : Pool) (p : IoData) : Except Halt (Nat × Pool × IoData) := do
  let (a, bp) ← allocBuf bp
  match p.inBufTail with
  | none => return (a, bp, { p with inBufTail := some a, inBufHead := some a })
  | some t => return (a, bp.set t { bp.base t with next := some a }, { p with inBufTail := some a })

def appendRecvData (bp : Pool) (p : IoData) (recv : Recv) : Except Halt (Pool × IoData) := do
  let (a, bp, p) ← linkInBuf bp p
  match recv with
  | .bytes c => return (bp.set a { bp.base a with data := c.bytes }, { p with inBufLen := p.inBufLen + c.bytes.length })
  | _ => return (bp, p)

/-- The buffer `append_send_data` goes on with where it has none. -/
def linkOutBuf (bp : Pool) (p : IoData) : Except Halt (Nat × Pool × IoData) := do
  let (q, bp) ← allocBuf bp
  match p.outBufHead with
  | none => return (q, bp, { p with outBufHead := some q, outBufTail := some q })
  | some _ =>
      match p.outBufTail with
      | none => throw .null
      | some t => return (q, bp.set t { bp.base t with next := some q }, { p with outBufTail := some q })

/-- The buffer a round of `append_send_data` fills. -/
def outBuf (bp : Pool) (p : IoData) : Option Nat → Except Halt (Nat × Pool × IoData)
  | none => linkOutBuf bp p
  | some q => .ok (q, bp, p)

def appendLoop : Nat → Pool → IoData → Option Nat → List UInt8 → Except Halt (Pool × IoData)
  | 0, _, _, _, _ => .error .endless
  | fuel + 1, bp, p, q, data => do
      let (q, bp, p) ← outBuf bp p q
      let b := bp.base q
      let cap := BUF_UNIT_SIZE - b.size
      if data.length ≤ cap then return (bp.set q { b with data := b.data ++ data }, p)
      else appendLoop fuel (bp.set q { b with data := b.data ++ data.take cap }) p none (data.drop cap)

/-- Two buffers at most do not shorten what is left. -/
def appendSendData (bp : Pool) (p : IoData) (data : List UInt8) : Except Halt (Pool × IoData) :=
  appendLoop (data.length + 2) bp p p.outBufTail data

def appendAll (bp : Pool) (p : IoData) : List (List UInt8) → Except Halt (Pool × IoData)
  | [] => .ok (bp, p)
  | data :: rest => do
      let (bp, p) ← appendSendData bp p data
      appendAll bp p rest

/-- `handle_output`, for a `send` that takes `ct` bytes. -/
def handleOutput (bp : Pool) (p : IoData) (ct : Nat) : Except Halt (Pool × IoData) :=
  match p.outBufHead with
  | none => .ok (bp, p)
  | some q => do
      let bp := bp.set q { bp.base q with data := (bp.base q).data.drop ct }
      if (bp.base q).size = 0 then
        let p :=
          match (bp.base q).next with
          | some next => { p with outBufHead := some next }
          | none => { p with outBufHead := none, outBufTail := none }
        let bp ← freeBuf bp q
        return (bp, p)
      else return (bp, p)

/-! ## Framing -/

/-- The buffers from `q` on. -/
def buffersFrom : Nat → Pool → Option Nat → Except Halt (List (List UInt8))
  | _, _, none => .ok []
  | 0, _, some _ => .error .endless
  | fuel + 1, bp, some q => do
      let rest ← buffersFrom fuel bp (bp.base q).next
      return (bp.base q).data :: rest

/-- The position of the first line feed that `strstr` finds, buffer by buffer. -/
def findHeader : List (List UInt8) → Nat → Option Nat
  | [], _ => none
  | q :: qs, hdLen =>
      match (cstr q).findIdx? (· = 10) with
      | some pos => some (hdLen + pos)
      | none => findHeader qs (hdLen + q.length)

def hasHeader (bp : Pool) (p : IoData) : Except Halt (Bool × IoData) :=
  if p.inBufHead = none then return (false, p)
  else if 0 < p.headerLen then return (true, p)
  else do
    let bufs ← buffersFrom bp.nItems bp p.inBufHead
    match findHeader bufs 0 with
    | none => return (false, p)
    | some hdLen => return (true, if 0 < hdLen then { p with headerLen := hdLen - 1 } else p)

/-- What `get_body_len` copies: whole buffers, until the header is complete. -/
def copyHeader (headerLen : Nat) : List (List UInt8) → List UInt8 → List UInt8
  | [], msg => msg
  | q :: qs, msg => if headerLen ≤ (msg ++ q).length then msg ++ q else copyHeader headerLen qs (msg ++ q)

/-- The length of the body a `set` or `cas` line declares; what no other line does. -/
def declaredLen (header : List UInt8) : Option Int :=
  match sscanf header "set %s %d %d %d" with
  | [.str _, .int _, .int _, .int valueLen] => some valueLen
  | _ =>
      match sscanf header "cas %s %d %d %d %llu" with
      | [.str _, .int _, .int _, .int valueLen, .ull _] => some valueLen
      | _ => none

/-- `VALUE_LIMIT` bounds what is read, whatever the line declares. -/
def clampLen (valueLen : Int) : Int :=
  if valueLen < 0 then 0 else if (VALUE_LIMIT : Int) < valueLen then VALUE_LIMIT else valueLen

/-- The two arrays of `handle_core`. -/
structure Scratch where
  headBuf : Buf
  bodyBuf : Buf

def getBodyLen (bp : Pool) (p : IoData) (s : Scratch) : Except Halt (IoData × Scratch) :=
  if 0 ≤ p.bodyLen then return (p, s)
  else do
    let bufs ← buffersFrom bp.nItems bp p.inBufHead
    let msg := copyHeader p.headerLen bufs []
    let headBuf := s.headBuf.write 0 msg
    if p.headerLen ≤ msg.length then
      let headBuf := headBuf.write p.headerLen [0]
      let p :=
        match declaredLen (cstr (headBuf.read 0 (p.headerLen + 1))) with
        | some valueLen => { p with bodyLen := clampLen valueLen, isWriteCmd := true }
        | none => { p with bodyLen := 0, isWriteCmd := false }
      return (p, { s with headBuf := headBuf })
    else return (p, { s with headBuf := headBuf })

def hasBody (p : IoData) : Bool :=
  if p.bodyLen < 0 then false else p.headerLen + 4 + p.bodyLen ≤ p.inBufLen

/-- The loop of `read_header` and `read_body`: take `k` bytes off the chain. -/
def readBytes : Nat → Pool → IoData → Nat → List UInt8 → Except Halt (Pool × IoData × List UInt8)
  | 0, _, _, _, _ => .error .endless
  | fuel + 1, bp, p, k, out =>
      match p.inBufHead with
      | none => .error .null
      | some q => do
          let b := bp.base q
          if b.size ≤ k then
            match b.next with
            | some next => do
                let bp ← freeBuf bp q
                readBytes fuel bp { p with inBufHead := some next } (k - b.size) (out ++ b.data)
            | none => do
                let bp ← freeBuf bp q
                return (bp, { p with inBufHead := none, inBufTail := none }, out ++ b.data)
          else
            let bp := bp.set q { b with data := b.data.drop k }
            if (bp.base q).size = 0 then
              let p :=
                match b.next with
                | some next => { p with inBufHead := some next }
                | none => { p with inBufHead := none, inBufTail := none }
              let bp ← freeBuf bp q
              return (bp, p, out ++ b.data.take k)
            else return (bp, p, out ++ b.data.take k)

def readHeader (bp : Pool) (p : IoData) (s : Scratch) : Except Halt (Pool × IoData × Scratch) := do
  if p.inBufHead = none then throw .assertion
  let (bp, p, header) ← readBytes (bp.nItems + 1) bp p (p.headerLen + 2) []
  return (bp, p, { s with headBuf := (s.headBuf.write 0 header).write p.headerLen [0] })

def readBody (bp : Pool) (p : IoData) (s : Scratch) : Except Halt (Pool × IoData × Scratch) := do
  if p.bodyLen < 0 ∨ p.inBufHead = none then throw .assertion
  let (bp, p, body) ← readBytes (bp.nItems + 1) bp p (p.bodyLen.toNat + 2) []
  return (bp, p, { s with bodyBuf := (s.bodyBuf.write 0 body).write p.bodyLen.toNat [0] })

/-- `if (client_io_ptr->is_write_cmd == 1) read_body(client_io_ptr, body);` -/
def readBodyOf (bp : Pool) (p : IoData) (s : Scratch) : Except Halt (Pool × IoData × Scratch) :=
  if p.isWriteCmd = true then readBody bp p s else .ok (bp, p, s)

def fixBufLen (p : IoData) : IoData :=
  let inBufLen :=
    if p.isWriteCmd then p.inBufLen - (p.headerLen + p.bodyLen + 4)
    else p.inBufLen - (p.headerLen + p.bodyLen + 2)
  { p with inBufLen := if inBufLen < 0 then 0 else inBufLen, headerLen := 0, bodyLen := -1 }

/-! ## Workers -/

/-- What `handle_cmd` does to the connection: the data of its `append_send_data`
calls, or `destroy_fd`. -/
inductive Answer where
  | sent (chunks : List (List UInt8))
  | quit
deriving DecidableEq, Repr

/-- `handle_cmd`: from the two arrays and the lengths in them, and from whatever else
it works on. -/
abbrev Handler (σ : Type) := Scratch → Nat → Int → σ → Except Fault (Answer × Scratch × σ)

/-- A pair as it is passed to `handle_cmd`. -/
structure Request where
  header : List UInt8
  /-- `[]` where no body has been read. -/
  body : List UInt8
deriving DecidableEq, Repr

structure Worker (σ : Type) where
  pool : Pool
  ioTable : Nat → IoData
  /-- The connections there are. -/
  live : Nat → Bool
  scratch : Scratch
  /-- What `handle_cmd` works on. -/
  shared : σ

section Worker

variable {σ : Type} (handleCmd : Handler σ)

/-- The part of a worker that one connection's events change. -/
structure Conn (σ : Type) where
  pool : Pool
  io : IoData
  live : Bool
  scratch : Scratch
  shared : σ

def destroyFd (c : Conn σ) : Except Halt (Conn σ) := do
  let (bp, p) ← destroyIoData c.pool c.io
  return { c with pool := bp, io := p, live := false }

/-- Carry out what `handle_cmd` answers. -/
def Answer.perform (c : Conn σ) : Answer → Except Halt (Conn σ)
  | .sent chunks => do
      let (bp, p) ← appendAll c.pool c.io chunks
      return { c with pool := bp, io := p }
  | .quit => destroyFd c

/-- `handle_cmd` and `fix_buf_len`. -/
def passOn (c : Conn σ) (request : Request) : Except Halt (Option Request × Conn σ) :=
  match handleCmd c.scratch c.io.headerLen c.io.bodyLen c.shared with
  | .error f => .error (.handler f)
  | .ok (answer, s, shared) => do
      let c ← answer.perform { c with scratch := s, shared := shared }
      return (some request, { c with io := fixBufLen c.io })

/-- One round of the loop in `handle_input`, and the request it passes on; `none`
where the loop ends. -/
def dispatch (c : Conn σ) : Except Halt (Option Request × Conn σ) := do
  let (found, p) ← hasHeader c.pool c.io
  if found = false then return (none, { c with io := p })
  else
    let (p, s) ← getBodyLen c.pool p c.scratch
    if p.isWriteCmd = false ∨ hasBody p = true then
      let (bp, p, s) ← readHeader c.pool p s
      let (bp, p, s) ← readBodyOf bp p s
      let request : Request :=
        ⟨s.headBuf.read 0 p.headerLen, if p.isWriteCmd = true then s.bodyBuf.read 0 p.bodyLen.toNat else []⟩
      passOn handleCmd { c with pool := bp, io := p, scratch := s } request
    else return (none, { c with io := p, scratch := s })

def dispatchLoop : Nat → Conn σ → Except Halt (List Request × Conn σ)
  | 0, _ => .error .endless
  | fuel + 1, c => do
      match ← dispatch handleCmd c with
      | (none, c) => return ([], c)
      | (some request, c) =>
          let (requests, c) ← dispatchLoop fuel c
          return (request :: requests, c)

/-- `handle_input`, and the requests it passes on.  Every round of its loop takes a
byte off the chain. -/
def handleInput (c : Conn σ) (recv : Recv) : Except Halt (List Request × Conn σ) := do
  let (bp, p) ← appendRecvData c.pool c.io recv
  match recv with
  | .failed => return ([], ← destroyFd { c with pool := bp, io := p })
  | _ =>
      let bufs ← buffersFrom bp.nItems bp p.inBufHead
      dispatchLoop handleCmd (bufs.flatten.length + 1) { c with pool := bp, io := p }

inductive IoEvent where
  | accept (fd : Nat)
  | input (fd : Nat) (recv : Recv)
  | output (fd : Nat) (ct : Nat)
  | hangUp (fd : Nat)

def IoEvent.fd : IoEvent → Nat
  | .accept fd | .input fd _ | .output fd _ | .hangUp fd => fd

def Worker.conn (w : Worker σ) (fd : Nat) : Conn σ := ⟨w.pool, w.ioTable fd, w.live fd, w.scratch, w.shared⟩

def Worker.putConn (w : Worker σ) (fd : Nat) (c : Conn σ) : Worker σ :=
  ⟨c.pool, Function.update w.ioTable fd c.io, Function.update w.live fd c.live, c.scratch, c.shared⟩

/-- What an event does to its connection. -/
def Conn.exec (c : Conn σ) : IoEvent → Except Halt (List Request × Conn σ)
  | .accept _ => .ok ([], { c with io := allocIoData c.io, live := true })
  | .input _ recv => handleInput handleCmd c recv
  | .output _ ct => do
      let (bp, p) ← handleOutput c.pool c.io ct
      return ([], { c with pool := bp, io := p })
  | .hangUp _ => do return ([], ← destroyFd c)

/-- A descriptor that is in use is not accepted again, and only connections there are
have events; `send` takes no more than it is offered. -/
def Conn.enabled (c : Conn σ) : IoEvent → Prop
  | .accept _ => c.live = false
  | .input _ _ | .hangUp _ => c.live = true
  | .output _ ct => c.live = true ∧ ∀ q ∈ c.io.outBufHead, ct ≤ (c.pool.base q).size

/-- The worker takes the event; the requests are those it passes to `handle_cmd`. -/
def WorkerStep (w : Worker σ) (e : IoEvent) (w' : Worker σ) : Prop :=
  (w.conn e.fd).enabled e ∧
    ∃ requests c, (w.conn e.fd).exec handleCmd e = .ok (requests, c) ∧ w' = w.putConn e.fd c

end Worker

/-- A worker before its first connection. -/
def Worker.start {σ : Type} (nItems : Nat) (scratch : Scratch) (shared : σ) : Worker σ :=
  ⟨bpNew nItems, fun _ => IoData.zero, fun _ => false, scratch, shared⟩

end Tstdb
