/-
# `Tstdb.Client.Host` — a connection of the client

`_Host` keeps in `buffer` what it has received and not yet handed out, and asks its
socket for more where that is not enough.  The socket is the list of the pieces in
which the server's bytes arrive; `recv` brings at most as many bytes of the first
piece as it is asked for, and nothing once the other side has closed.

Whatever the pieces are, `readline` takes the next line off the stream and `recv` the
next bytes (`readline_spec`, `recv_spec`); what is behind them stays, in the buffer or
in the socket.
-/
import Mathlib
import Tstdb.Lib.CText
import Tstdb.Lib.PyText

namespace Tstdb

open CText PyText

theorem lawful_bytes : LawfulBEq (List UInt8) := inferInstance

inductive ClientError where
  /-- `_ConnectionDeadError` -/
  | connectionDead
  /-- `_Error` -/
  | error
  | valueError
  | keyError
  /-- What `check_key` raises. -/
  | keyNone
  | keyLength
  | keyCharacter
  | endless
deriving DecidableEq, Repr

/-- `_Host`; `sent` is what has been written to the socket. -/
structure Host where
  buffer : List UInt8
  socket : List (List UInt8)
  sent : List UInt8
deriving DecidableEq, Repr

/-- `self.socket.recv(size)` -/
def socketRecv (size : Nat) : List (List UInt8) → List UInt8 × List (List UInt8)
  | [] => ([], [])
  | piece :: rest => (piece.take size, if piece.length ≤ size then rest else piece.drop size :: rest)

def Host.sendCmd (server : Host) (cmd : List UInt8) : Host := { server with sent := server.sent ++ cmd ++ crlf }

/-- The loop of `readline`; it ends because every `recv` brings a byte. -/
def Host.readlineLoop (server : Host) : Nat → List UInt8 → List (List UInt8) → Except ClientError (List UInt8 × Host)
  | 0, _, _ => .error .endless
  | fuel + 1, buf, socket =>
      match find crlf buf with
      | some index => .ok (sliceTo buf index, { server with buffer := sliceFrom buf (index + 2), socket := socket })
      | none =>
          let (data, socket) := socketRecv 4096 socket
          if data = [] then .error .connectionDead else server.readlineLoop fuel (buf ++ data) socket

def Host.readline (server : Host) : Except ClientError (List UInt8 × Host) :=
  server.readlineLoop (server.socket.flatten.length + 1) server.buffer server.socket

/-- `expect`; a line that is not the expected one is only noted in the log. -/
def Host.expect (server : Host) (_text : List UInt8) : Except ClientError (List UInt8 × Host) := server.readline

/-- The loop of `recv`. -/
def Host.recvLoop (server : Host) (rlen : Int) : Nat → List UInt8 → List (List UInt8) →
    Except ClientError (List UInt8 × Host)
  | 0, _, _ => .error .endless
  | fuel + 1, buf, socket =>
      if (buf.length : Int) < rlen then
        let (foo, socket) := socketRecv (max (rlen - buf.length) 4096).toNat socket
        if foo = [] then .error .error else server.recvLoop rlen fuel (buf ++ foo) socket
      else .ok (sliceTo buf rlen, { server with buffer := sliceFrom buf rlen, socket := socket })

def Host.recv (server : Host) (rlen : Int) : Except ClientError (List UInt8 × Host) :=
  server.recvLoop rlen (server.socket.flatten.length + 1) server.buffer server.socket

/-! ## The stream behind a connection -/

/-- These bytes are still to be handed out, and no piece is empty. -/
structure Host.Holds (server : Host) (stream : List UInt8) : Prop where
  bytes : server.buffer ++ server.socket.flatten = stream
  pieces : ∀ piece ∈ server.socket, piece ≠ []

section Stream

variable {server : Host} {buf line data rest : List UInt8} {socket : List (List UInt8)} {size : Nat}

/-- A `recv` moves bytes from the socket to its caller. -/
theorem socketRecv_spec (hpos : 0 < size) (hne : ∀ piece ∈ socket, piece ≠ []) (hmore : socket.flatten ≠ []) :
    (socketRecv size socket).1 ≠ [] ∧ (socketRecv size socket).1 ++ (socketRecv size socket).2.flatten = socket.flatten ∧
      ∀ piece ∈ (socketRecv size socket).2, piece ≠ [] := by
  cases socket with
  | nil => exact absurd rfl hmore
  | cons piece socket =>
      obtain ⟨hpiece, hsocket⟩ := List.forall_mem_cons.mp hne
      have hlen : 0 < piece.length := List.length_pos_iff.mpr hpiece
      refine ⟨fun e => ?_, ?_, ?_⟩
      · have h := congrArg List.length e
        simp only [socketRecv, List.length_take, List.length_nil] at h
        omega
      · rw [socketRecv]
        split_ifs with hle
        · rw [List.take_of_length_le hle, List.flatten_cons]
        · rw [List.flatten_cons, ← List.append_assoc, List.take_append_drop, List.flatten_cons]
      · rw [socketRecv]
        split_ifs with hle
        · exact hsocket
        · refine List.forall_mem_cons.mpr ⟨fun e => ?_, hsocket⟩
          have h := congrArg List.length e
          simp only [List.length_drop, List.length_nil] at h
          omega

/-- Before the line feed is there the loop goes on, and then it takes the line. -/
theorem readlineLoop_spec (h : 13 ∉ line) : ∀ {fuel : Nat} {buf : List UInt8} {socket : List (List UInt8)},
    socket.flatten.length < fuel → buf ++ socket.flatten = line ++ crlf ++ rest → (∀ piece ∈ socket, piece ≠ []) →
    ∃ server', server.readlineLoop fuel buf socket = .ok (line, server') ∧ server'.Holds rest := by
  intro fuel
  induction fuel with
  | zero => intro buf socket hfuel; exact absurd hfuel (Nat.not_lt_zero _)
  | succ fuel ih =>
      intro buf socket hfuel hbytes hne
      rcases Nat.lt_or_ge (line ++ [13]).length buf.length with hlong | hshort
      · -- the buffer holds the line feed
        have hpre : line ++ crlf <+: buf := by
          refine List.prefix_of_prefix_length_le (List.prefix_append _ rest) ⟨socket.flatten, hbytes⟩ ?_
          simp only [List.length_append, crlf, List.length_cons, List.length_nil] at hlong ⊢
          omega
        obtain ⟨more, rfl⟩ := hpre
        have hlen : ((line.length : Int) + 2) = ((line ++ crlf).length : Int) := by
          rw [List.length_append]
          rfl
        refine ⟨{ server with buffer := more, socket := socket }, ?_, ?_, hne⟩
        · rw [Host.readlineLoop, find_line h]
          simp only [hlen, sliceFrom_append]
          rw [List.append_assoc line crlf more, sliceTo_append]
        · rw [List.append_assoc] at hbytes
          exact List.append_cancel_left hbytes
      · have hpre : buf <+: line ++ [13] := by
          refine List.prefix_of_prefix_length_le ⟨socket.flatten, hbytes⟩ ?_ hshort
          exact ⟨10 :: rest, by simp [crlf]⟩
        have hmore : socket.flatten ≠ [] := fun e => by
          have hl := congrArg List.length hbytes
          rw [e] at hl
          simp only [List.length_append, List.length_nil, crlf, List.length_cons] at hl hshort
          omega
        obtain ⟨hdata, hsplit, hne'⟩ := socketRecv_spec (show (0 : Nat) < 4096 by decide) hne hmore
        have hpos : 0 < (socketRecv 4096 socket).1.length := List.length_pos_iff.mpr hdata
        have hl := congrArg List.length hsplit
        rw [List.length_append] at hl
        rw [Host.readlineLoop, find_none h hpre]
        simp only [if_neg hdata]
        exact ih (by omega) (by rw [List.append_assoc, hsplit, hbytes]) hne'

theorem readline_spec (hs : server.Holds (line ++ crlf ++ rest)) (h : 13 ∉ line) :
    ∃ server', server.readline = .ok (line, server') ∧ server'.Holds rest :=
  readlineLoop_spec h (Nat.lt_succ_self _) hs.bytes hs.pieces

theorem recvLoop_spec : ∀ {fuel : Nat} {buf : List UInt8} {socket : List (List UInt8)},
    socket.flatten.length < fuel → buf ++ socket.flatten = data ++ rest → (∀ piece ∈ socket, piece ≠ []) →
    ∃ server', server.recvLoop data.length fuel buf socket = .ok (data, server') ∧ server'.Holds rest := by
  intro fuel
  induction fuel with
  | zero => intro buf socket hfuel; exact absurd hfuel (Nat.not_lt_zero _)
  | succ fuel ih =>
      intro buf socket hfuel hbytes hne
      rcases Nat.lt_or_ge buf.length data.length with hshort | hlong
      · have hmore : socket.flatten ≠ [] := fun e => by
          have hl := congrArg List.length hbytes
          rw [e] at hl
          simp only [List.length_append, List.length_nil] at hl
          omega
        obtain ⟨hdata, hsplit, hne'⟩ := socketRecv_spec
          (show 0 < (max ((data.length : Int) - buf.length) 4096).toNat by omega) hne hmore
        have hpos := List.length_pos_iff.mpr hdata
        have hl := congrArg List.length hsplit
        rw [List.length_append] at hl
        rw [Host.recvLoop, if_pos (by omega)]
        simp only [if_neg hdata]
        exact ih (by omega) (by rw [List.append_assoc, hsplit, hbytes]) hne'
      · obtain ⟨more, rfl⟩ : data <+: buf :=
          List.prefix_of_prefix_length_le (List.prefix_append _ rest) ⟨socket.flatten, hbytes⟩ hlong
        refine ⟨{ server with buffer := more, socket := socket }, ?_, ?_, hne⟩
        · rw [Host.recvLoop, if_neg (by omega), sliceTo_append, sliceFrom_append]
        · rw [List.append_assoc] at hbytes
          exact List.append_cancel_left hbytes

theorem recv_spec (hs : server.Holds (data ++ rest)) :
    ∃ server', server.recv data.length = .ok (data, server') ∧ server'.Holds rest :=
  recvLoop_spec (Nat.lt_succ_self _) hs.bytes hs.pieces

/-- Nothing is left, neither in the buffer nor in the socket. -/
theorem Host.Holds.empty (h : server.Holds []) : server.buffer = [] ∧ server.socket = [] := by
  obtain ⟨hbuf, hflat⟩ := List.append_eq_nil_iff.mp h.bytes
  refine ⟨hbuf, ?_⟩
  cases hs : server.socket with
  | nil => rfl
  | cons piece socket =>
      have hne := h.pieces piece (by rw [hs]; exact List.mem_cons_self)
      rw [hs, List.flatten_cons] at hflat
      exact absurd (List.append_eq_nil_iff.mp hflat).1 hne

end Stream

end Tstdb
