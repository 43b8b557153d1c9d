/-
# `Tstdb.Server.Framing` — requests cut from a queue of chunks

What `handle_input` does to the input of a connection, without the buffers: the
queue is a list of chunks as they came from `recv`, and `Framing.next` takes the
next request off it.  The loop of `handle_input` does exactly that on the chunks its
buffers hold (`dispatch_ends`), however the pool lies, and it ends; what is left to
`handle_cmd` is what is sent.

The end of the file puts events together to runs of a worker: no order of them loses
a buffer or lets two connections share one (`worker_buffers`).
-/
import Mathlib
import Tstdb.Lib.Runs
import Tstdb.Lib.CText
import Tstdb.Lib.Bytes
import Tstdb.Lib.Chains
import Tstdb.Lib.Outcome
import Tstdb.Tst.Arena
import Tstdb.Tst.Runs
import Tstdb.Server.Index
import Tstdb.Server.Store
import Tstdb.Server.Pool
import Tstdb.Server.Buffers

namespace Tstdb

open CText Bytes Chains Outcome Runs

/-- How far the next request has been looked at. -/
structure Framing where
  headerLen : Nat
  bodyLen : Int
  isWriteCmd : Bool
deriving DecidableEq, Repr

def IoData.framing (p : IoData) : Framing := ⟨p.headerLen, p.bodyLen, p.isWriteCmd⟩

/-- The length `has_header` has or finds. -/
def Framing.header? (f : Framing) (cs : List (List UInt8)) : Option Nat :=
  if cs = [] then none
  else if 0 < f.headerLen then some f.headerLen
  else (findHeader cs 0).map fun hdLen => hdLen - 1

/-- After `get_body_len`, for a header of the given text. -/
def Framing.classify (f : Framing) (header : List UInt8) : Framing :=
  if 0 ≤ f.bodyLen then f
  else
    match declaredLen (cstr header) with
    | some valueLen => { f with bodyLen := clampLen valueLen, isWriteCmd := true }
    | none => { f with bodyLen := 0, isWriteCmd := false }

/-- The next request, and what is queued behind it. -/
def Framing.next (f : Framing) (cs : List (List UInt8)) : Option Request × Framing × List (List UInt8) :=
  match f.header? cs with
  | none => (none, f, cs)
  | some hl =>
      let header := cs.flatten.take hl
      let f := { f with headerLen := hl }.classify header
      if f.isWriteCmd = false then
        (some ⟨header, []⟩, ⟨0, -1, f.isWriteCmd⟩, dropBytes (hl + 2) cs)
      else if 0 ≤ f.bodyLen ∧ (hl : Int) + 4 + f.bodyLen ≤ cs.flatten.length then
        (some ⟨header, (cs.flatten.drop (hl + 2)).take f.bodyLen.toNat⟩, ⟨0, -1, f.isWriteCmd⟩,
          dropBytes (f.bodyLen.toNat + 2) (dropBytes (hl + 2) cs))
      else (none, f, cs)

/-- All requests there are, at most as many as the first argument says. -/
def Framing.run : Nat → Framing → List (List UInt8) → List Request × Framing × List (List UInt8)
  | 0, f, cs => ([], f, cs)
  | n + 1, f, cs =>
      match f.next cs with
      | (none, f, cs) => ([], f, cs)
      | (some request, f, cs) =>
          let (requests, f, cs) := Framing.run n f cs
          (request :: requests, f, cs)

/-- A header that has been found is queued with the line end behind it, and a length
of a body is only known of a write command. -/
structure Framing.Pending (f : Framing) (cs : List (List UInt8)) : Prop where
  header : 0 < f.headerLen → f.headerLen + 2 ≤ cs.flatten.length
  body : 0 ≤ f.bodyLen → f.isWriteCmd = true

section Lists

variable {f : Framing} {cs : List (List UInt8)}

theorem findHeader_lt : ∀ {cs : List (List UInt8)} {n hdLen : Nat}, findHeader cs n = some hdLen →
    hdLen < n + cs.flatten.length := by
  intro cs
  induction cs with
  | nil => intro n hdLen h; cases h
  | cons q qs ih =>
      intro n hdLen h
      rw [findHeader] at h
      rw [List.flatten_cons, List.length_append]
      cases hf : (cstr q).findIdx? (· = 10) with
      | none =>
          rw [hf] at h
          have := ih h
          omega
      | some pos =>
          rw [hf] at h
          obtain rfl := Option.some.inj h
          have hlt := (List.findIdx?_eq_some_iff_findIdx_eq.mp hf).1
          have hle : (cstr q).length ≤ q.length := (List.takeWhile_sublist _).length_le
          omega

theorem Framing.header?_spec (hp : f.Pending cs) {hl : Nat} (h : f.header? cs = some hl) :
    0 < cs.flatten.length ∧ hl ≤ cs.flatten.length ∧ (0 < hl → hl + 2 ≤ cs.flatten.length) := by
  unfold Framing.header? at h
  split_ifs at h with h₁ h₂
  · obtain rfl := Option.some.inj h
    have := hp.header h₂
    omega
  · obtain ⟨hdLen, hf, rfl⟩ := Option.map_eq_some_iff.mp h
    have := findHeader_lt hf
    omega

theorem clampLen_nonneg (valueLen : Int) : 0 ≤ clampLen valueLen := by
  unfold clampLen VALUE_LIMIT
  split_ifs <;> omega

theorem Framing.classify_pending (f : Framing) (header : List UInt8) (hb : 0 ≤ f.bodyLen → f.isWriteCmd = true) :
    (f.classify header).headerLen = f.headerLen ∧
      ((f.classify header).isWriteCmd = false → (f.classify header).bodyLen = 0) ∧
      0 ≤ (f.classify header).bodyLen := by
  unfold Framing.classify
  split_ifs with h
  · exact ⟨rfl, fun e => absurd (hb h) (by simp [e]), h⟩
  · split
    · exact ⟨rfl, fun e => absurd e (by simp), clampLen_nonneg _⟩
    · exact ⟨rfl, fun _ => rfl, le_rfl⟩

/-- What is left is in order again. -/
theorem Framing.next_pending (hp : f.Pending cs) : (f.next cs).2.1.Pending (f.next cs).2.2 := by
  have hfresh : ∀ (w : Bool) (cs' : List (List UInt8)), Framing.Pending ⟨0, -1, w⟩ cs' := fun w cs' =>
    ⟨fun h => absurd h (by simp), fun h => absurd h (by simp)⟩
  unfold Framing.next
  cases hh : f.header? cs with
  | none => exact hp
  | some hl =>
      obtain ⟨-, -, hlen⟩ := Framing.header?_spec hp hh
      obtain ⟨h₁, -, -⟩ := Framing.classify_pending { f with headerLen := hl } (cs.flatten.take hl) hp.body
      simp only
      split_ifs with hw hb
      · exact hfresh _ _
      · exact hfresh _ _
      · refine ⟨fun hpos => ?_, fun _ => by simpa using hw⟩
        rw [h₁] at hpos ⊢
        exact hlen hpos

/-- A request takes bytes off the queue. -/
theorem Framing.next_lt (hp : f.Pending cs) (h : (f.next cs).1.isSome) :
    (f.next cs).2.2.flatten.length < cs.flatten.length := by
  unfold Framing.next at h ⊢
  cases hh : f.header? cs with
  | none => rw [hh] at h; cases h
  | some hl =>
      obtain ⟨hpos, -, -⟩ := Framing.header?_spec hp hh
      rw [hh] at h
      simp only at h ⊢
      split_ifs at h ⊢ with hw hb
      · simp only [flatten_dropBytes, List.length_drop]
        omega
      · simp only [flatten_dropBytes, List.length_drop]
        omega
      · exact absurd h (by simp)

end Lists

/-! ## The functions on the pool -/

section Refine

variable {N : Nat} {bp : Pool} {io : Nat → IoData} {fd : Nat} {p : IoData} {q : Owner → List (List UInt8)} {s : Scratch}

theorem Queues.inBufHead_eq_none (h : Queues N bp (Function.update io fd p) q) :
    p.inBufHead = none ↔ q (.input fd) = [] := by
  obtain ⟨own, hl, hq⟩ := h
  rw [hl.inBufHead_eq_none, ← hq _ (by simp), Pool.chunks, List.map_eq_nil_iff]

theorem Queues.outBufHead_eq_none (h : Queues N bp (Function.update io fd p) q) :
    p.outBufHead = none ↔ q (.output fd) = [] := by
  obtain ⟨own, hl, hq⟩ := h
  rw [hl.outBufHead_eq_none, ← hq _ (by simp), Pool.chunks, List.map_eq_nil_iff]

theorem hasHeader_eq (h : Queues N bp (Function.update io fd p) q) :
    hasHeader bp p = .ok
      (match p.framing.header? (q (.input fd)) with
        | none => (false, p)
        | some hl => (true, { p with headerLen := hl })) := by
  have hbufs := h.buffersFrom_eq
  rcases Classical.em (q (.input fd) = []) with hq | hq
  · rw [Framing.header?, if_pos hq, hasHeader, if_pos (h.inBufHead_eq_none.mpr hq)]
    rfl
  · rw [Framing.header?, if_neg hq, hasHeader, if_neg fun e => hq (h.inBufHead_eq_none.mp e)]
    rcases Nat.eq_zero_or_pos p.headerLen with hz | hz
    · rw [if_neg (by omega), if_neg (show ¬ 0 < p.framing.headerLen by show ¬ 0 < p.headerLen; omega)]
      simp only [hbufs, bind, Except.bind]
      cases findHeader (q (.input fd)) 0 with
      | none => rfl
      | some hdLen =>
          -- a line feed that comes first leaves the length at `0`
          have hsame : (if 0 < hdLen then { p with headerLen := hdLen - 1 } else p) = { p with headerLen := hdLen - 1 } := by
            rcases Nat.eq_zero_or_pos hdLen with rfl | hpos
            · rw [if_neg (by omega), Nat.zero_sub, ← hz]
            · rw [if_pos hpos]
          simp only [hsame]
          rfl
    · rw [if_pos hz, if_pos (show 0 < p.framing.headerLen from hz)]
      rfl

/-- What `get_body_len` has copied starts like the queue. -/
theorem copyHeader_spec {headerLen : Nat} : ∀ (cs : List (List UInt8)) (msg : List UInt8),
    ∃ rest, msg ++ cs.flatten = copyHeader headerLen cs msg ++ rest ∧
      (headerLen ≤ (msg ++ cs.flatten).length → headerLen ≤ (copyHeader headerLen cs msg).length) := by
  intro cs
  induction cs with
  | nil => intro msg; exact ⟨[], by simp [copyHeader], by simp [copyHeader]⟩
  | cons c cs ih =>
      intro msg
      rw [copyHeader]
      split_ifs with h
      · exact ⟨cs.flatten, by simp, fun _ => h⟩
      · obtain ⟨rest, h₁, h₂⟩ := ih (msg ++ c)
        exact ⟨rest, by simpa using h₁, by simpa using h₂⟩

/-- What lies at the start of an array, and its terminator. -/
theorem read_terminated (b : Buf) (msg : List UInt8) {n : Nat} (h : n ≤ msg.length) :
    ((b.write 0 msg).write n [0]).read 0 (n + 1) = msg.take n ++ [0] := by
  refine List.ext_getElem (by simp [h]) fun j h₁ h₂ => ?_
  simp only [Buf.length_read] at h₁
  simp only [Buf.read, List.getElem_map, List.getElem_range, Nat.zero_add]
  rcases Nat.lt_or_ge j n with hj | hj
  · rw [Buf.write_before _ _ hj, List.getElem_append_left (by simp; omega), List.getElem_take]
    have hw := Buf.write_at b (i := 0) (show j < msg.length by omega)
    rwa [Nat.zero_add] at hw
  · obtain rfl : j = n := by omega
    have hw := Buf.write_at (b.write 0 msg) (i := j) (show 0 < ([0] : List UInt8).length by simp)
    rw [List.getElem_append_right (by simp)]
    simpa using hw

theorem read_before_end (b : Buf) (msg : List UInt8) {n : Nat} (h : n ≤ msg.length) :
    ((b.write 0 msg).write n [0]).read 0 n = msg.take n := by
  have htake : ∀ b' : Buf, b'.read 0 n = (b'.read 0 (n + 1)).take n := by
    intro b'
    simp only [Buf.read, ← List.map_take, List.take_range, Nat.min_eq_left (Nat.le_succ n)]
  rw [htake, read_terminated b msg h, List.take_append_of_le_length (by simp [h]), List.take_take, min_self]

theorem cstr_read_header (b : Buf) (msg : List UInt8) {n : Nat} (h : n ≤ msg.length) :
    cstr (((b.write 0 msg).write n [0]).read 0 (n + 1)) = cstr (msg.take n) := by
  rw [read_terminated b msg h, cstr, List.takeWhile_append]
  split_ifs with hall
  · have hself := (List.takeWhile_prefix (l := msg.take n) fun b => decide (b ≠ 0)).eq_of_length hall
    rw [cstr, hself]
    simp
  · rfl

theorem getBodyLen_eq (h : Queues N bp (Function.update io fd p) q)
    (hlen : p.headerLen ≤ (q (.input fd)).flatten.length) (s : Scratch) :
    ∃ s', getBodyLen bp p s = .ok ({ p with
        bodyLen := (p.framing.classify ((q (.input fd)).flatten.take p.headerLen)).bodyLen
        isWriteCmd := (p.framing.classify ((q (.input fd)).flatten.take p.headerLen)).isWriteCmd }, s') := by
  unfold getBodyLen Framing.classify
  rcases lt_or_ge p.bodyLen 0 with hb | hb
  · obtain ⟨rest, hmsg, hcopy⟩ := copyHeader_spec (q (.input fd)) []
    rw [List.nil_append] at hmsg hcopy
    have htake : (copyHeader p.headerLen (q (.input fd)) []).take p.headerLen
        = (q (.input fd)).flatten.take p.headerLen := by
      rw [hmsg, List.take_append_of_le_length (hcopy hlen)]
    rw [if_neg (by omega), if_neg (show ¬ 0 ≤ p.framing.bodyLen by show ¬ 0 ≤ p.bodyLen; omega)]
    simp only [h.buffersFrom_eq, bind, Except.bind, if_pos (hcopy hlen), cstr_read_header _ _ (hcopy hlen), htake]
    cases declaredLen (cstr ((q (.input fd)).flatten.take p.headerLen)) with
    | none => exact ⟨_, rfl⟩
    | some valueLen => exact ⟨_, rfl⟩
  · rw [if_pos hb, if_pos (show 0 ≤ p.framing.bodyLen from hb)]
    exact ⟨s, rfl⟩

theorem readHeader_eq (h : Queues N bp (Function.update io fd p) q) (hp : p.inBufHead ≠ none)
    (hlen : p.headerLen ≤ (q (.input fd)).flatten.length) (s : Scratch) :
    ∃ bp' p' s', readHeader bp p s = .ok (bp', p', s') ∧ SameButInput p p' ∧ p'.inBufLen = p.inBufLen ∧
      s'.headBuf.read 0 p.headerLen = (q (.input fd)).flatten.take p.headerLen ∧
      Queues N bp' (Function.update io fd p')
        (Function.update q (.input fd) (dropBytes (p.headerLen + 2) (q (.input fd)))) := by
  obtain ⟨bp', p', e, hs, hl, hq⟩ := h.readBytes_eq hp (p.headerLen + 2)
  refine ⟨bp', p', { s with headBuf := (s.headBuf.write 0
    ((q (.input fd)).flatten.take (p.headerLen + 2))).write p.headerLen [0] }, ?_, hs, hl, ?_, hq⟩
  · simp only [readHeader, if_neg hp, e, bind, Except.bind, pure, Except.pure, hs.headerLen]
  · rw [read_before_end _ _ (by rw [List.length_take]; omega), List.take_take, min_eq_left (by omega)]

theorem readBody_eq (h : Queues N bp (Function.update io fd p) q) (hb : 0 ≤ p.bodyLen)
    (hlen : p.bodyLen.toNat + 2 ≤ (q (.input fd)).flatten.length) (s : Scratch) :
    ∃ bp' p' s', readBody bp p s = .ok (bp', p', s') ∧ SameButInput p p' ∧ p'.inBufLen = p.inBufLen ∧
      s'.headBuf = s.headBuf ∧ s'.bodyBuf.read 0 p.bodyLen.toNat = (q (.input fd)).flatten.take p.bodyLen.toNat ∧
      Queues N bp' (Function.update io fd p')
        (Function.update q (.input fd) (dropBytes (p.bodyLen.toNat + 2) (q (.input fd)))) := by
  have hp : p.inBufHead ≠ none := fun e => by
    rw [h.inBufHead_eq_none.mp e] at hlen
    simp at hlen
  obtain ⟨bp', p', e, hs, hl, hq⟩ := h.readBytes_eq hp (p.bodyLen.toNat + 2)
  refine ⟨bp', p', { s with bodyBuf := (s.bodyBuf.write 0
    ((q (.input fd)).flatten.take (p.bodyLen.toNat + 2))).write p.bodyLen.toNat [0] }, ?_, hs, hl, rfl, ?_, hq⟩
  · have hcond : ¬ (p.bodyLen < 0 ∨ p.inBufHead = none) := not_or.mpr ⟨by omega, hp⟩
    simp only [readBody, if_neg hcond, e, bind, Except.bind, pure, Except.pure, hs.bodyLen]
  · rw [read_before_end _ _ (by rw [List.length_take]; omega), List.take_take, min_eq_left (by omega)]

end Refine

/-! ## The loop of `handle_input` -/

section Input

variable {σ : Type} {N : Nat} {handleCmd : Handler σ} {io : Nat → IoData} {fd : Nat} {c : Conn σ}
  {q : Owner → List (List UInt8)}

/-- A connection and the chunks queued for it. -/
structure Conn.Good (N : Nat) (io : Nat → IoData) (fd : Nat) (c : Conn σ) (q : Owner → List (List UInt8)) : Prop where
  queues : Queues N c.pool (Function.update io fd c.io) q
  counted : c.io.inBufLen = (q (.input fd)).flatten.length
  pending : c.io.framing.Pending (q (.input fd))

/-- `handle_cmd` destroys the connection over a request. -/
def Quits (handleCmd : Handler σ) (shared : σ) (request : Request) : Prop :=
  ∃ s headerLen bodyLen s' shared', s.headBuf.read 0 headerLen = request.header ∧
    handleCmd s headerLen bodyLen shared = .ok (.quit, s', shared')

/-- A `handle_cmd` that always returns, and sends nothing. -/
def Silent (handleCmd : Handler σ) : Prop :=
  ∀ s headerLen bodyLen shared, ∃ s' shared', handleCmd s headerLen bodyLen shared = .ok (.sent [], s', shared')

/-- The queues with other chunks for one connection. -/
def withQueues (q : Owner → List (List UInt8)) (fd : Nat) (cs os : List (List UInt8)) :
    Owner → List (List UInt8) :=
  Function.update (Function.update q (.input fd) cs) (.output fd) os

@[simp] theorem withQueues_input (cs os : List (List UInt8)) : withQueues q fd cs os (.input fd) = cs := by
  rw [withQueues, Function.update_of_ne (by simp), Function.update_self]

@[simp] theorem withQueues_output (cs os : List (List UInt8)) : withQueues q fd cs os (.output fd) = os :=
  Function.update_self _ _ _

theorem withQueues_self : withQueues q fd (q (.input fd)) (q (.output fd)) = q := by
  rw [withQueues, Function.update_eq_self, Function.update_eq_self]

theorem update_input (cs : List (List UInt8)) :
    Function.update q (.input fd) cs = withQueues q fd cs (q (.output fd)) := by
  rw [withQueues, Function.update_comm (by simp), Function.update_eq_self]

theorem update_output (os : List (List UInt8)) :
    Function.update q (.output fd) os = withQueues q fd (q (.input fd)) os := by
  rw [withQueues, Function.update_eq_self]

theorem withQueues_withQueues (cs os cs' os' : List (List UInt8)) :
    withQueues (withQueues q fd cs os) fd cs' os' = withQueues q fd cs' os' := by
  simp only [withQueues]
  rw [Function.update_comm (by simp : Owner.output fd ≠ Owner.input fd), Function.update_idem,
    Function.update_idem]

/-- What stops a round: `handle_cmd` itself, or that there is no buffer for what it sends. -/
def Stops (handleCmd : Handler σ) (e : Halt) : Prop :=
  (∃ s headerLen bodyLen shared f, handleCmd s headerLen bodyLen shared = .error f ∧ e = .handler f) ∨
    e = .exhausted ∧ ∃ s headerLen bodyLen shared chunks s' shared',
      handleCmd s headerLen bodyLen shared = .ok (.sent chunks, s', shared') ∧ chunks ≠ []

theorem Stops.excused {e : Halt} (h : Stops handleCmd e) : e.excused := by
  rcases h with ⟨_, _, _, _, f, -, rfl⟩ | ⟨rfl, -⟩
  · exact trivial
  · exact trivial

theorem Silent.not_stops {e : Halt} (hs : Silent handleCmd) (h : Stops handleCmd e) : False := by
  rcases h with ⟨s, n, m, shared, f, he, -⟩ | ⟨-, s, n, m, shared, chunks, s', shared', he, hne⟩
  · obtain ⟨_, _, hok⟩ := hs s n m shared
    cases hok.symm.trans he
  · obtain ⟨_, _, hok⟩ := hs s n m shared
    cases hok.symm.trans he
    exact hne rfl

theorem Silent.not_quits {request : Request} {shared : σ} (hs : Silent handleCmd)
    (h : Quits handleCmd shared request) : False := by
  obtain ⟨s, n, m, s', shared', -, he⟩ := h
  obtain ⟨_, _, hok⟩ := hs s n m shared
  cases hok.symm.trans he

/-- The answer is carried out: sent, or the connection is gone. -/
theorem perform_ends (h : Queues N c.pool (Function.update io fd c.io) q) (answer : Answer) :
    Ends (fun e => e = .exhausted ∧ ∃ chunks, answer = .sent chunks ∧ chunks ≠ [])
      (fun c' => ∃ cs os, Queues N c'.pool (Function.update io fd c'.io) (withQueues q fd cs os) ∧
      SameRequest c.io c'.io ∧
      (answer = .sent [] → os = q (.output fd)) ∧
      (answer ≠ .quit ∧ c'.io.inBufLen = c.io.inBufLen ∧ c'.live = c.live ∧ cs = q (.input fd) ∨
        answer = .quit ∧ c'.live = false ∧ cs = [] ∧ os = [] ∧
          c'.io.inBufLen = if c.io.inBufHead = none then c.io.inBufLen else 0)) (answer.perform c) := by
  cases answer with
  | sent chunks =>
      have hall : Ends (fun e => e = .exhausted ∧ ∃ chunks', Answer.sent chunks = .sent chunks' ∧ chunks' ≠ [])
          (fun r => SameButOutput c.io r.2 ∧ ∃ os, (chunks = [] → os = q (.output fd)) ∧
            Queues N r.1 (Function.update io fd r.2) (Function.update q (.output fd) os))
          (appendAll c.pool c.io chunks) := by
        cases chunks with
        | nil => exact ⟨.refl _, _, fun _ => rfl, by rwa [Function.update_eq_self]⟩
        | cons data rest =>
            refine ((appendAll_ends (data :: rest) c.pool c.io q h).imp ?_).excuse
              fun e he => ⟨he, _, rfl, List.cons_ne_nil data rest⟩
            rintro r ⟨hs, os, -, hq⟩
            exact ⟨hs, os, fun e => absurd e (List.cons_ne_nil data rest), hq⟩
      refine hall.bind ?_
      rintro ⟨bp, p⟩ ⟨hs, os, hnil, hq⟩
      rw [update_output] at hq
      exact ⟨_, os, hq, ⟨hs.headerLen, hs.bodyLen, hs.isWriteCmd⟩, fun e => hnil (by simpa using e),
        Or.inl ⟨by simp, hs.inBufLen, rfl, rfl⟩⟩
  | quit =>
      obtain ⟨bp, p, e, hq, hs, hlen⟩ := destroyIoData_eq h
      have he : destroyFd c = .ok { c with pool := bp, io := p, live := false } := by
        simp only [destroyFd, e, bind, Except.bind]
        rfl
      show Ends _ _ (destroyFd c)
      rw [he]
      exact ⟨[], [], hq, hs, fun e => (by cases e), Or.inr ⟨rfl, rfl, rfl, rfl, hlen⟩⟩

/-- The bytes a request takes off the queue. -/
def Framing.taken (f : Framing) : Nat :=
  if f.isWriteCmd = true then f.headerLen + 2 + (f.bodyLen.toNat + 2) else f.headerLen + 2

/-- `fix_buf_len` subtracts what has been taken. -/
theorem fixBufLen_inBufLen {p : IoData} (hb : 0 ≤ p.bodyLen) (hw : p.isWriteCmd = false → p.bodyLen = 0)
    {n : Nat} (hn : p.inBufLen = n) : (fixBufLen p).inBufLen = (n - p.framing.taken : Nat) := by
  unfold fixBufLen Framing.taken IoData.framing
  cases hc : p.isWriteCmd with
  | true =>
      simp only [hn, if_true]
      split_ifs <;> omega
  | false =>
      have := hw hc
      simp only [hn, Bool.false_eq_true, if_false]
      split_ifs <;> omega

/-- The request lies in the arrays and has been taken off a queue of `n` bytes. -/
structure Conn.Ready (N : Nat) (io : Nat → IoData) (fd : Nat) (c : Conn σ) (q : Owner → List (List UInt8)) (n : Nat)
    (request : Request) : Prop where
  queues : Queues N c.pool (Function.update io fd c.io) q
  body : 0 ≤ c.io.bodyLen
  noBody : c.io.isWriteCmd = false → c.io.bodyLen = 0
  counted : c.io.inBufLen = n
  taken : (q (.input fd)).flatten.length = n - c.io.framing.taken
  header : c.scratch.headBuf.read 0 c.io.headerLen = request.header
  bytes : c.scratch.bodyBuf.read 0 c.io.bodyLen.toNat = request.body

/-- A request that has been read is passed on; what remains is in order. -/
theorem passOn_ends {request : Request} {n : Nat} (h : c.Ready N io fd q n request) :
    Ends (Stops handleCmd) (fun r => ∃ cs os, r.2.Good N io fd (withQueues q fd cs os) ∧ r.1 = some request ∧
      r.2.io.framing = ⟨0, -1, c.io.isWriteCmd⟩ ∧ (Silent handleCmd → os = q (.output fd)) ∧
      (r.2.live = c.live ∧ cs = q (.input fd) ∨
        Quits handleCmd c.shared request ∧ r.2.live = false ∧ cs = [] ∧ os = [])) (passOn handleCmd c request) := by
  unfold passOn
  cases hh : handleCmd c.scratch c.io.headerLen c.io.bodyLen c.shared with
  | error f => exact Or.inl ⟨_, _, _, _, f, hh, rfl⟩
  | ok r =>
      obtain ⟨answer, s, shared⟩ := r
      have hstops : ∀ e : Halt, (e = .exhausted ∧ ∃ chunks, answer = .sent chunks ∧ chunks ≠ []) →
          Stops handleCmd e := by
        rintro e ⟨rfl, chunks, rfl, hne⟩
        exact Or.inr ⟨rfl, _, _, _, _, _, _, _, hh, hne⟩
      refine ((perform_ends (c := { c with scratch := s, shared := shared }) h.queues answer).excuse hstops).bind ?_
      rintro c' ⟨cs, os, hq, hs, hsent, hcase⟩
      have hsilent : Silent handleCmd → os = q (.output fd) := by
        intro hsil
        obtain ⟨_, _, hok⟩ := hsil c.scratch c.io.headerLen c.io.bodyLen c.shared
        cases hok.symm.trans hh
        exact hsent rfl
      have hb' : 0 ≤ c'.io.bodyLen := by rw [hs.bodyLen]; exact h.body
      have hw' : c'.io.isWriteCmd = false → c'.io.bodyLen = 0 := by rw [hs.bodyLen, hs.isWriteCmd]; exact h.noBody
      have hsame : c'.io.framing = c.io.framing := by
        rw [IoData.framing, hs.headerLen, hs.bodyLen, hs.isWriteCmd]
        rfl
      have htake : c'.io.framing.taken = c.io.framing.taken := by rw [hsame]
      have hframe : (fixBufLen c'.io).framing = ⟨0, -1, c.io.isWriteCmd⟩ := by
        rw [← show c'.io.isWriteCmd = c.io.isWriteCmd from hs.isWriteCmd]
        rfl
      have hpending : (fixBufLen c'.io).framing.Pending cs := by
        rw [hframe]
        exact ⟨fun e => absurd e (by simp), fun e => absurd e (by simp)⟩
      have hq' : Queues N c'.pool (Function.update io fd (fixBufLen c'.io)) (withQueues q fd cs os) :=
        hq.conn_congr rfl rfl rfl rfl
      rcases hcase with ⟨-, hlen, hlive, rfl⟩ | ⟨rfl, hlive, rfl, rfl, hlen⟩
      · refine ⟨_, os, ⟨hq', ?_, ?_⟩, rfl, hframe, hsilent, Or.inl ⟨hlive, rfl⟩⟩
        · rw [fixBufLen_inBufLen hb' hw' (hlen.trans h.counted), htake, withQueues_input, h.taken]
        · rwa [withQueues_input]
      · refine ⟨[], [], ⟨hq', ?_, ?_⟩, rfl, hframe, hsilent, Or.inr ⟨?_, hlive, rfl, rfl⟩⟩
        · -- nothing was left, or `free_in_buf_list` has reset the length
          rw [withQueues_input, fixBufLen_inBufLen hb' hw' (n := if c.io.inBufHead = none then n else 0)
            (by rw [hlen]; split_ifs <;> [exact h.counted; rfl]), htake]
          split_ifs with hnone
          · rw [← h.taken, h.queues.inBufHead_eq_none.mp hnone]
          · simp
        · rwa [withQueues_input]
        · exact ⟨_, _, _, _, _, h.header, hh⟩

/-- One round takes the next request off the chunks and passes it on, or waits. -/
theorem dispatch_reads (h : c.Good N io fd q) {r : Option Request} {f : Framing} {cs : List (List UInt8)}
    (hnext : c.io.framing.next (q (.input fd)) = (r, f, cs)) :
    ∃ bp p s, match r with
      | none => dispatch handleCmd c = .ok (none, { c with io := p, scratch := s }) ∧ p.framing = f ∧
          cs = q (.input fd) ∧ Conn.Good N io fd { c with io := p, scratch := s } q
      | some request => dispatch handleCmd c = passOn handleCmd { c with pool := bp, io := p, scratch := s } request ∧
          f = ⟨0, -1, p.isWriteCmd⟩ ∧ Conn.Ready N io fd { c with pool := bp, io := p, scratch := s }
            (Function.update q (.input fd) cs) (q (.input fd)).flatten.length request := by
  have hheader := hasHeader_eq h.queues
  unfold Framing.next at hnext
  unfold dispatch
  cases hh : c.io.framing.header? (q (.input fd)) with
  | none =>
      rw [hh] at hheader hnext
      obtain ⟨rfl, rfl, rfl⟩ : none = r ∧ c.io.framing = f ∧ q (.input fd) = cs := by simpa using hnext
      refine ⟨c.pool, c.io, c.scratch, ?_, rfl, rfl, h⟩
      simp only [hheader, bind, Except.bind, if_true]
      rfl
  | some hl =>
      rw [hh] at hheader hnext
      obtain ⟨hpos, hle, hlen⟩ := Framing.header?_spec h.pending hh
      have hq₁ : Queues N c.pool (Function.update io fd { c.io with headerLen := hl }) q :=
        h.queues.conn_congr rfl rfl rfl rfl
      obtain ⟨s, hbody⟩ := getBodyLen_eq hq₁ hle c.scratch
      obtain ⟨hhl, hzero, hnonneg⟩ := Framing.classify_pending { c.io.framing with headerLen := hl }
        ((q (.input fd)).flatten.take hl) h.pending.body
      -- what is known of the request from here on
      obtain ⟨g, hg⟩ : ∃ g, g = { c.io.framing with headerLen := hl }.classify ((q (.input fd)).flatten.take hl) :=
        ⟨_, rfl⟩
      have hbody' : getBodyLen c.pool { c.io with headerLen := hl } c.scratch
          = .ok ({ c.io with headerLen := hl, bodyLen := g.bodyLen, isWriteCmd := g.isWriteCmd }, s) := by
        rw [hbody, hg]
        rfl
      simp only [← hg] at hhl hzero hnonneg hnext
      have hq₂ : Queues N c.pool (Function.update io fd
          { c.io with headerLen := hl, bodyLen := g.bodyLen, isWriteCmd := g.isWriteCmd }) q :=
        h.queues.conn_congr rfl rfl rfl rfl
      have hne : c.io.inBufHead ≠ none := fun e => by
        rw [h.queues.inBufHead_eq_none.mp e] at hpos
        exact absurd hpos (by simp)
      simp only [hheader, hbody', bind, Except.bind, Bool.true_eq_false, if_false]
      cases hw : g.isWriteCmd with
      | false =>
          obtain ⟨bp, p, s', hread, hs, hlen', hhead, hq₃⟩ := readHeader_eq hq₂ hne hle s
          rw [hw] at hread hs hnext
          have hbl : g.bodyLen = 0 := hzero hw
          obtain ⟨rfl, rfl, rfl⟩ : some _ = r ∧ _ = f ∧ dropBytes (hl + 2) (q (.input fd)) = cs := by
            simpa using hnext
          simp only [true_or, if_true, hread]
          have hp : p.isWriteCmd = false := hs.isWriteCmd
          have hrest : readBodyOf bp p s' = .ok (bp, p, s') := by
            rw [readBodyOf, hp]
            rfl
          have hreq : s'.headBuf.read 0 p.headerLen = (q (.input fd)).flatten.take hl := by
            rw [hs.headerLen]
            exact hhead
          simp only [hrest, hp, Bool.false_eq_true, if_false, hreq]
          refine ⟨bp, p, s', rfl, by rw [hp], hq₃, by rw [hs.bodyLen]; exact hbl.ge, fun _ => hs.bodyLen.trans hbl,
            hlen'.trans h.counted, ?_, hreq, ?_⟩
          · rw [Function.update_self, flatten_dropBytes, List.length_drop]
            simp only [Framing.taken, IoData.framing, hp, hs.headerLen, Bool.false_eq_true, if_false]
          · rw [show p.bodyLen = 0 from hs.bodyLen.trans hbl]
            rfl
      | true =>
          rw [hw] at hq₂ hnext
          have hcond : hasBody { c.io with headerLen := hl, bodyLen := g.bodyLen, isWriteCmd := true } = true ↔
              0 ≤ g.bodyLen ∧ (hl : Int) + 4 + g.bodyLen ≤ (q (.input fd)).flatten.length := by
            simp only [hasBody, h.counted, if_neg (show ¬ g.bodyLen < 0 by omega), decide_eq_true_eq]
            exact ⟨fun e => ⟨hnonneg, e⟩, fun e => e.2⟩
          simp only [Bool.true_eq_false, false_or, if_false] at hnext ⊢
          rcases Classical.em (0 ≤ g.bodyLen ∧ (hl : Int) + 4 + g.bodyLen ≤ (q (.input fd)).flatten.length) with
            hall | hall
          · obtain ⟨bp, p, s', hread, hs, hlen', hhead, hq₃⟩ := readHeader_eq hq₂ hne hle s
            have hp : p.isWriteCmd = true := hs.isWriteCmd
            have hpb : p.bodyLen = g.bodyLen := hs.bodyLen
            have hph : p.headerLen = hl := hs.headerLen
            obtain ⟨bp', p', s'', hread', hs', hlen'', hhead', hbody'', hq₄⟩ := readBody_eq hq₃
              (by rw [hpb]; exact hnonneg)
              (by rw [hpb, Function.update_self, flatten_dropBytes, List.length_drop]; show _ ≤ _ - (hl + 2); omega) s'
            rw [Function.update_self, Function.update_idem] at hq₄
            rw [Function.update_self, flatten_dropBytes, hpb] at hbody''
            have hrest : readBodyOf bp p s' = .ok (bp', p', s'') := by rw [readBodyOf, if_pos hp, hread']
            have hp' : p'.isWriteCmd = true := hs'.isWriteCmd.trans hp
            have hpb' : p'.bodyLen = g.bodyLen := hs'.bodyLen.trans hpb
            have hph' : p'.headerLen = hl := hs'.headerLen.trans hph
            have hreq : s''.headBuf.read 0 p'.headerLen = (q (.input fd)).flatten.take hl := by
              rw [hhead', hph']
              exact hhead
            rw [if_pos hall] at hnext
            obtain ⟨rfl, rfl, rfl⟩ : some _ = r ∧ _ = f ∧ _ = cs := by simpa using hnext
            simp only [if_pos (hcond.mpr hall), hread, hrest, hp', if_true]
            rw [hreq, hpb', hbody'']
            refine ⟨bp', p', s'', rfl, by rw [hp'], by rwa [hpb] at hq₄, by rw [hpb']; exact hnonneg,
              fun e => absurd (hp'.symm.trans e) (by simp), hlen''.trans (hlen'.trans h.counted), ?_, hreq,
              by rw [hpb', hbody'']⟩
            rw [Function.update_self, flatten_dropBytes, flatten_dropBytes, List.length_drop, List.length_drop]
            simp only [Framing.taken, IoData.framing, hp', hph', hpb', if_true]
            omega
          · rw [if_neg hall] at hnext
            obtain ⟨rfl, rfl, rfl⟩ : none = r ∧ g = f ∧ q (.input fd) = cs := by simpa using hnext
            rw [if_neg fun e => hall (hcond.mp e)]
            refine ⟨c.pool, _, s, rfl, ?_, rfl, hq₂, h.counted, fun hpos' => hlen hpos', fun _ => rfl⟩
            show Framing.mk hl g.bodyLen true = g
            rw [← hw, ← show g.headerLen = hl from hhl]

/-- One round does to the chunks what `Framing.next` says. -/
theorem dispatch_ends (h : c.Good N io fd q) :
    Ends (Stops handleCmd) (fun r => ∃ cs os, r.2.Good N io fd (withQueues q fd cs os) ∧
      r.1 = (c.io.framing.next (q (.input fd))).1 ∧ (Silent handleCmd → os = q (.output fd)) ∧
      (r.2.live = c.live ∧ r.2.io.framing = (c.io.framing.next (q (.input fd))).2.1 ∧
          cs = (c.io.framing.next (q (.input fd))).2.2 ∨
        ∃ request, r.1 = some request ∧ Quits handleCmd c.shared request ∧ r.2.live = false ∧ cs = [] ∧ os = []))
      (dispatch handleCmd c) := by
  obtain ⟨r, f, cs, hnext⟩ : ∃ r f cs, c.io.framing.next (q (.input fd)) = (r, f, cs) := ⟨_, _, _, rfl⟩
  obtain ⟨bp, p, s, hreads⟩ := dispatch_reads h hnext
  rw [hnext]
  cases r with
  | none =>
      obtain ⟨he, hf, hcs, hgood⟩ := hreads
      rw [he]
      refine ⟨q (.input fd), q (.output fd), ?_, rfl, fun _ => rfl, Or.inl ⟨rfl, hf, hcs.symm⟩⟩
      rw [withQueues_self]
      exact hgood
  | some request =>
      obtain ⟨he, hf, hready⟩ := hreads
      rw [he]
      refine (passOn_ends hready).imp ?_
      rintro r ⟨cs', os, hgood, hr, hframe, hsilent, hcase⟩
      rw [update_input] at hgood hsilent
      rw [withQueues_withQueues] at hgood
      rw [withQueues_output] at hsilent
      refine ⟨cs', os, hgood, hr, hsilent, ?_⟩
      rcases hcase with ⟨hlive, hcs⟩ | ⟨hquit, hlive, hcs, hos⟩
      · exact Or.inl ⟨hlive, hframe.trans hf.symm, by rw [hcs, Function.update_self]⟩
      · exact Or.inr ⟨request, hr, hquit, hlive, hcs, hos⟩

/-- With nothing queued the loop ends at once. -/
theorem dispatchLoop_nil (h : Queues N c.pool (Function.update io fd c.io) q) (hq : q (.input fd) = []) (n : Nat) :
    dispatchLoop handleCmd (n + 1) c = .ok ([], c) := by
  have hheader := hasHeader_eq h
  rw [Framing.header?, if_pos hq] at hheader
  simp only [dispatchLoop, dispatch, hheader, bind, Except.bind, if_true]
  rfl

/-- The loop ends, and passes on the requests of the queue in order, up to one that
destroys the connection. -/
theorem dispatchLoop_ends : ∀ (n : Nat) (c : Conn σ) (q : Owner → List (List UInt8)), c.Good N io fd q →
    (q (.input fd)).flatten.length < n →
    Ends (Stops handleCmd) (fun r => ∃ cs os, r.2.Good N io fd (withQueues q fd cs os) ∧
      (Silent handleCmd → os = q (.output fd)) ∧
      (r.2.live = c.live ∧ (r.1, r.2.io.framing, cs) = c.io.framing.run n (q (.input fd)) ∨
        (r.1 <+: (c.io.framing.run n (q (.input fd))).1 ∧ ∃ request ∈ r.1, ∃ shared, Quits handleCmd shared request) ∧
          r.2.live = false ∧ cs = [] ∧ os = []))
      (dispatchLoop handleCmd n c) := by
  intro n
  induction n with
  | zero => intro c q _ hn; exact absurd hn (by omega)
  | succ n ih =>
      intro c q h hn
      unfold dispatchLoop Framing.run
      refine (dispatch_ends h).bind ?_
      rintro ⟨request?, c₁⟩ ⟨cs, os, hgood, hr, hsilent, hcase⟩
      obtain ⟨r, f, rest, hnext⟩ : ∃ r f rest, c.io.framing.next (q (.input fd)) = (r, f, rest) := ⟨_, _, _, rfl⟩
      have hlt := Framing.next_lt h.pending
      rw [hnext] at hr hcase hlt
      subst hr
      cases request? with
      | none =>
          rcases hcase with ⟨hlive, hframe, hcs⟩ | ⟨request, hsome, -⟩
          · exact ⟨cs, os, hgood, hsilent, Or.inl ⟨hlive, by rw [hnext, hframe, hcs]⟩⟩
          · cases hsome
      | some request =>
          rcases hcase with ⟨hlive, hframe, rfl⟩ | ⟨_, hsome, hquit, hlive, rfl, rfl⟩
          · have hshort : (withQueues q fd cs os (.input fd)).flatten.length < n := by
              rw [withQueues_input]
              have := hlt rfl
              simp only at this
              omega
            refine (ih c₁ _ hgood hshort).bind ?_
            rintro ⟨requests, c₂⟩ ⟨cs', os', hgood', hsilent', hcase'⟩
            rw [withQueues_withQueues] at hgood'
            rw [withQueues_output] at hsilent'
            refine ⟨cs', os', hgood', fun hsil => (hsilent' hsil).trans (hsilent hsil), ?_⟩
            rw [withQueues_input, hframe] at hcase'
            rw [hnext]
            rcases hcase' with ⟨hlive', hrun⟩ | ⟨⟨hpre, request', hmem, hq'⟩, hrest⟩
            · refine Or.inl ⟨hlive'.trans hlive, ?_⟩
              simp only [← hrun]
            · exact Or.inr ⟨⟨List.cons_prefix_cons.mpr ⟨rfl, hpre⟩, request', List.mem_cons_of_mem _ hmem, hq'⟩, hrest⟩
          · obtain rfl := Option.some.inj hsome
            have hend : dispatchLoop handleCmd n c₁ = .ok ([], c₁) := by
              have hlt' := hlt rfl
              obtain ⟨n, rfl⟩ : ∃ m, n = m + 1 := ⟨n - 1, by omega⟩
              exact dispatchLoop_nil hgood.queues (withQueues_input _ _) n
            simp only [hend, bind, Except.bind]
            refine ⟨[], [], hgood, hsilent, Or.inr ⟨⟨?_, request, List.mem_cons_self, _, hquit⟩, hlive, rfl, rfl⟩⟩
            rw [hnext]
            exact List.cons_prefix_cons.mpr ⟨rfl, List.nil_prefix⟩

/-- What was received is counted, and the loop starts from there. -/
theorem Conn.Good.received (h : c.Good N io fd q) (recv : Recv) :
    Ends (fun e => e = .exhausted ∧ Scarce N c.pool (Function.update io fd c.io) q)
      (fun r => Conn.Good N io fd { c with pool := r.1, io := r.2 }
        (Function.update q (.input fd) (q (.input fd) ++ [recv.got])) ∧ r.2.framing = c.io.framing)
      (appendRecvData c.pool c.io recv) := by
  refine (appendRecvData_ends h.queues recv).imp ?_
  rintro ⟨bp, p⟩ ⟨hq, hs, hlen⟩
  have hframe : p.framing = c.io.framing := by rw [IoData.framing, hs.headerLen, hs.bodyLen, hs.isWriteCmd]; rfl
  refine ⟨⟨hq, ?_, ?_⟩, hframe⟩
  · rw [Function.update_self, hlen, h.counted]
    simp
  · show p.framing.Pending _
    rw [Function.update_self, hframe]
    refine ⟨fun hpos => ?_, h.pending.body⟩
    have := h.pending.header hpos
    simp only [List.flatten_append, List.length_append]
    omega

/-- Nothing is queued that was not received, so the loop has enough rounds. -/
theorem handleInput_loop {bp : Pool} {p : IoData} {recv : Recv}
    (h : Conn.Good N io fd { c with pool := bp, io := p } q) (he : appendRecvData c.pool c.io recv = .ok (bp, p))
    (hr : recv ≠ .failed) :
    handleInput handleCmd c recv
      = dispatchLoop handleCmd ((q (.input fd)).flatten.length + 1) { c with pool := bp, io := p } := by
  have hbufs := h.queues.buffersFrom_eq
  cases recv with
  | bytes chunk => simp only [handleInput, he, hbufs, bind, Except.bind]
  | again => simp only [handleInput, he, hbufs, bind, Except.bind]
  | failed => exact absurd rfl hr

/-- All a receive event can do to a connection. -/
theorem handleInput_ends (h : c.Good N io fd q) (recv : Recv) :
    Ends (fun e => Stops handleCmd e ∨ e = .exhausted ∧ Scarce N c.pool (Function.update io fd c.io) q)
      (fun r => ∃ cs os, Queues N r.2.pool (Function.update io fd r.2.io) (withQueues q fd cs os) ∧
      r.2.io.inBufLen = (cs.flatten.length : Int) ∧
      (Silent handleCmd → recv ≠ .failed → os = q (.output fd)) ∧
      (r.2.live = c.live ∧ r.2.io.framing.Pending cs ∧
          (r.1, r.2.io.framing, cs) = c.io.framing.run
            ((q (.input fd) ++ [recv.got]).flatten.length + 1) (q (.input fd) ++ [recv.got]) ∨
        (r.1 <+: (c.io.framing.run ((q (.input fd) ++ [recv.got]).flatten.length + 1)
              (q (.input fd) ++ [recv.got])).1 ∧
            (∃ request ∈ r.1, ∃ shared, Quits handleCmd shared request) ∨ recv = .failed) ∧
          r.2.live = false ∧ cs = [] ∧ os = [])) (handleInput handleCmd c recv) := by
  have hreceived := h.received recv
  cases he : appendRecvData c.pool c.io recv with
  | error e =>
      rw [he] at hreceived
      rw [handleInput, he]
      exact Or.inr hreceived
  | ok r =>
      obtain ⟨bp, p⟩ := r
      rw [he] at hreceived
      obtain ⟨hgood, hframe⟩ := hreceived
      rcases Classical.em (recv = .failed) with rfl | hr
      · obtain ⟨bp', p', e, hq', -, hlen'⟩ := destroyIoData_eq hgood.queues
        have hd : destroyFd { c with pool := bp, io := p } = .ok { c with pool := bp', io := p', live := false } := by
          have e' : destroyIoData bp p = .ok (bp', p') := e
          simp only [destroyFd, e', bind, Except.bind]
          rfl
        have hi : handleInput handleCmd c .failed = .ok ([], { c with pool := bp', io := p', live := false }) := by
          simp only [handleInput, he, hd, bind, Except.bind]
          rfl
        rw [hi]
        refine ⟨[], [], ?_, ?_, fun _ hne => absurd rfl hne, Or.inr ⟨Or.inr rfl, rfl, rfl, rfl⟩⟩
        · rw [Function.update_idem] at hq'
          exact hq'
        · show p'.inBufLen = _
          rw [hlen', if_neg fun hnone => ?_]
          · rfl
          · have hnil := hgood.queues.inBufHead_eq_none.mp hnone
            rw [Function.update_self] at hnil
            exact absurd hnil (by simp)
      · rw [handleInput_loop hgood he hr, Function.update_self]
        refine ((dispatchLoop_ends _ { c with pool := bp, io := p } _ hgood
          (by rw [Function.update_self]; exact Nat.lt_succ_self _)).imp ?_).excuse fun e => Or.inl
        rintro ⟨requests, c'⟩ ⟨cs, os, hgood', hsilent, hcase⟩
        rw [update_input, withQueues_withQueues] at hgood'
        rw [update_input, withQueues_output] at hsilent
        have hcount := hgood'.counted
        have hpend := hgood'.pending
        rw [withQueues_input] at hcount hpend
        refine ⟨cs, os, hgood'.queues, hcount, fun hsil _ => hsilent hsil, ?_⟩
        rw [Function.update_self, show IoData.framing _ = c.io.framing from hframe] at hcase
        rcases hcase with ⟨hlive, hrun⟩ | ⟨hquit, hrest⟩
        · exact Or.inl ⟨hlive, hpend, hrun⟩
        · exact Or.inr ⟨Or.inl hquit, hrest⟩

theorem handleInput_excused {e : Halt}
    (h : Stops handleCmd e ∨ e = .exhausted ∧ Scarce N c.pool (Function.update io fd c.io) q) : e.excused := by
  rcases h with h | ⟨rfl, -⟩
  · exact h.excused
  · exact trivial

end Input

/-! ## Runs of a worker -/

section Run

variable {σ : Type} {N : Nat} {handleCmd : Handler σ} {w : Worker σ} {q : Owner → List (List UInt8)}

/-- The queues of a worker: the lengths are right, a header that is known is queued,
and a connection that is gone has nothing queued. -/
structure Worker.Holds (N : Nat) (w : Worker σ) (q : Owner → List (List UInt8)) : Prop where
  queues : Queues N w.pool w.ioTable q
  counted : ∀ fd, (w.ioTable fd).inBufLen = (q (.input fd)).flatten.length
  pending : ∀ fd, w.live fd = true → (w.ioTable fd).framing.Pending (q (.input fd))
  gone : ∀ fd, w.live fd = false → q (.input fd) = [] ∧ q (.output fd) = []

/-- The owners of a fresh pool. -/
def allFree (n : Nat) : Owner → List Nat
  | .free => List.range n
  | _ => []

theorem ledger_start {n : Nat} (hn : 0 < n) : Ledger n (bpNew n) (fun _ => IoData.zero) (allFree n) := by
  have hchain := bpNew_chain n n 0 (by omega) hn
  rw [← List.range_eq_range'] at hchain
  refine ⟨rfl, ⟨⟨fun x => ?_, fun {x y a} hx hy => ?_, fun a => ?_⟩, fun x => ?_⟩, fun x hx => ?_, ?_⟩
  · cases x with
    | free => exact List.nodup_range
    | input fd => exact List.nodup_nil
    | output fd => exact List.nodup_nil
  · cases x <;> cases y <;> first | rfl | cases hx | cases hy
  · refine ⟨fun h => ⟨.free, List.mem_range.mpr h⟩, fun ⟨x, hx⟩ => ?_⟩
    cases x with
    | free => exact List.mem_range.mp hx
    | input fd => cases hx
    | output fd => cases hx
  · cases x with
    | free => exact hchain
    | input fd => rfl
    | output fd => rfl
  · cases x with
    | free => exact absurd rfl hx
    | input fd => rfl
    | output fd => rfl
  · simp [allFree, hn.ne']

/-- At first every buffer is free. -/
theorem holds_start {n : Nat} (hn : 0 < n) (scratch : Scratch) (shared : σ) :
    (Worker.start n scratch shared).Holds n fun _ => [] := by
  refine ⟨⟨allFree n, ledger_start hn, fun x hx => ?_⟩, fun _ => rfl, fun _ h => absurd h (by simp [Worker.start]),
    fun _ _ => ⟨rfl, rfl⟩⟩
  cases x with
  | free => exact absurd rfl hx
  | input fd => rfl
  | output fd => rfl

/-- The connection an event is for, and the others. -/
theorem Worker.Holds.putConn {c : Conn σ} {fd : Nat} {cs os : List (List UInt8)} (h : w.Holds N q)
    (hq : Queues N c.pool (Function.update w.ioTable fd c.io) (withQueues q fd cs os))
    (hlen : c.io.inBufLen = (cs.flatten.length : Int)) (hpend : c.live = true → c.io.framing.Pending cs)
    (hgone : c.live = false → cs = [] ∧ os = []) : (w.putConn fd c).Holds N (withQueues q fd cs os) := by
  have hother : ∀ s, s ≠ fd → withQueues q fd cs os (.input s) = q (.input s) ∧
      withQueues q fd cs os (.output s) = q (.output s) := by
    intro s hs
    simp [withQueues, hs]
  refine ⟨hq, fun s => ?_, fun s hs => ?_, fun s hs => ?_⟩ <;> rcases eq_or_ne s fd with rfl | hne
  · simpa [Worker.putConn] using hlen
  · simpa [Worker.putConn, hne, (hother s hne).1] using h.counted s
  · simpa [Worker.putConn] using hpend (by simpa [Worker.putConn] using hs)
  · simpa [Worker.putConn, hne, (hother s hne).1] using h.pending s (by simpa [Worker.putConn, hne] using hs)
  · simpa using hgone (by simpa [Worker.putConn] using hs)
  · simpa [(hother s hne).1, (hother s hne).2] using h.gone s (by simpa [Worker.putConn, hne] using hs)

/-- A new connection starts without anything queued. -/
theorem Worker.Holds.accepted (h : w.Holds N q) {fd : Nat} (hfd : w.live fd = false) :
    Conn.Good N w.ioTable fd { w.conn fd with io := allocIoData (w.ioTable fd), live := true } q ∧
      q (.input fd) = [] ∧ q (.output fd) = [] := by
  have hself : Queues N w.pool (Function.update w.ioTable fd (w.ioTable fd)) q := by
    rw [Function.update_eq_self]
    exact h.queues
  obtain ⟨hin, hout⟩ := h.gone fd hfd
  have hnone := hself.inBufHead_eq_none.mpr hin
  have hnone' := hself.outBufHead_eq_none.mpr hout
  refine ⟨⟨?_, h.counted fd, ?_⟩, hin, hout⟩
  · exact hself.conn_congr hnone.symm (hself.input_none hnone).1.symm hnone'.symm (hself.output_none hnone').1.symm
  · exact ⟨fun e => absurd e (by simp [IoData.framing, allocIoData]),
      fun e => absurd e (by simp [IoData.framing, allocIoData])⟩

/-- What one event does: it is taken, or a buffer is missing, or `handle_cmd` has no
result.  No assertion fails, no null pointer is followed, no loop goes on for ever. -/
theorem Worker.Holds.step (h : w.Holds N q) {e : IoEvent} (he : (w.conn e.fd).enabled e) :
    Ends Halt.excused (fun r => ∃ cs os, (w.putConn e.fd r.2).Holds N (withQueues q e.fd cs os))
      ((w.conn e.fd).exec handleCmd e) := by
  have hself : ∀ fd, Queues N w.pool (Function.update w.ioTable fd (w.ioTable fd)) q := by
    intro fd
    rw [Function.update_eq_self]
    exact h.queues
  cases e with
  | accept fd =>
      obtain ⟨hgood, -, -⟩ := h.accepted he
      refine ⟨q (.input fd), q (.output fd), h.putConn ?_ (h.counted fd) (fun _ => hgood.pending) fun hl => by cases hl⟩
      show Queues N w.pool (Function.update w.ioTable fd (allocIoData (w.ioTable fd))) (withQueues q fd _ _)
      rw [withQueues_self]
      exact hgood.queues
  | input fd recv =>
      have hgood : (w.conn fd).Good N w.ioTable fd q := ⟨hself fd, h.counted fd, h.pending fd he⟩
      refine ((handleInput_ends hgood recv).excuse fun e => handleInput_excused).imp ?_
      rintro ⟨requests, c⟩ ⟨cs, os, hq, hlen, -, hcase⟩
      refine ⟨cs, os, h.putConn hq hlen (fun hl => ?_) fun hl => ?_⟩
      · rcases hcase with ⟨-, hpend, -⟩ | ⟨-, hdead, -⟩
        · exact hpend
        · exact absurd (hl.symm.trans hdead) (by simp)
      · rcases hcase with ⟨hlive, -⟩ | ⟨-, -, hcs⟩
        · exact absurd (hl.symm.trans (hlive.trans he)) (by simp)
        · exact hcs
  | output fd ct =>
      obtain ⟨bp, p, e, hs, hq⟩ := handleOutput_eq (hself fd) ct
      show Ends _ _ (handleOutput w.pool (w.ioTable fd) ct >>= _)
      rw [show handleOutput w.pool (w.ioTable fd) ct = .ok (bp, p) from e]
      refine ⟨q (.input fd), _, h.putConn (update_output _ ▸ hq) (hs.inBufLen.trans (h.counted fd)) (fun _ => ?_)
        fun hl => absurd (hl.symm.trans he.1) (by simp)⟩
      have hframe : p.framing = (w.ioTable fd).framing := by
        rw [IoData.framing, hs.headerLen, hs.bodyLen, hs.isWriteCmd]
        rfl
      rw [hframe]
      exact h.pending fd he.1
  | hangUp fd =>
      obtain ⟨bp, p, e, hq, -, hlen⟩ := destroyIoData_eq (hself fd)
      have he' : destroyFd (w.conn fd) = .ok { w.conn fd with pool := bp, io := p, live := false } := by
        have e' : destroyIoData (w.conn fd).pool (w.conn fd).io = .ok (bp, p) := e
        simp only [destroyFd, e', bind, Except.bind]
        rfl
      show Ends _ _ (destroyFd (w.conn fd) >>= fun c => pure ([], c))
      rw [he']
      refine ⟨[], [], h.putConn hq ?_ (fun hl => by cases hl) fun _ => ⟨rfl, rfl⟩⟩
      rw [show (p.inBufLen : Int) = _ from hlen]
      split_ifs with hnone
      · rw [h.counted, (hself fd).inBufHead_eq_none.mp hnone]
      · rfl

theorem WorkerStep.holds {w' : Worker σ} {e : IoEvent} (h : ∃ q, w.Holds N q) (hs : WorkerStep handleCmd w e w') :
    ∃ q, w'.Holds N q := by
  obtain ⟨q, hq⟩ := h
  obtain ⟨he, requests, c, hexec, rfl⟩ := hs
  obtain ⟨cs, os, h'⟩ := (hq.step he).ok hexec
  exact ⟨_, h'⟩

/-- After any events the free list and the chains of the connections are disjoint
lists that hold each buffer once, the tails are the last buffers of the chains, and
a connection that is gone has none.  In that state the next event is taken, unless
`alloc_buf` runs out or `handle_cmd` has no result. -/
theorem worker_buffers (handleCmd : Handler σ) {nItems : Nat} (hn : 0 < nItems) (scratch : Scratch) (shared : σ)
    {events : List IoEvent} {w : Worker σ}
    (h : Run (WorkerStep handleCmd) (Worker.start nItems scratch shared) events w) :
    (∃ own : Owner → List Nat,
      Owned (· < nItems) (fun i => (w.pool.base i).next) (heads w.pool w.ioTable) own ∧
      (∀ fd, (w.ioTable fd).inBufTail = (own (.input fd)).getLast? ∧
        (w.ioTable fd).outBufTail = (own (.output fd)).getLast?) ∧
      ∀ fd, w.live fd = false → own (.input fd) = [] ∧ own (.output fd) = []) ∧
    ∀ e : IoEvent, (w.conn e.fd).enabled e → Ends Halt.excused (fun _ => True) ((w.conn e.fd).exec handleCmd e) := by
  obtain ⟨q, hq⟩ : ∃ q, w.Holds nItems q :=
    h.preserves (fun _ _ _ hi hs => hs.holds hi) ⟨_, holds_start hn scratch shared⟩
  refine ⟨?_, fun e he => (hq.step he).imp fun _ _ => trivial⟩
  obtain ⟨own, hl, hc⟩ := hq.queues
  refine ⟨own, hl.owned, fun fd => ⟨hl.tail (.input fd) (by simp), hl.tail (.output fd) (by simp)⟩, fun fd hfd => ?_⟩
  obtain ⟨hin, hout⟩ := hq.gone fd hfd
  rw [← hc (.input fd) (by simp)] at hin
  rw [← hc (.output fd) (by simp)] at hout
  exact ⟨List.map_eq_nil_iff.mp hin, List.map_eq_nil_iff.mp hout⟩

end Run

/-- A handler that answers every line with an error. -/
def refuse : Handler Unit := fun s _ _ shared => .ok (.sent [ascii "ERROR\r\n"], s, shared)

/-- A line comes in, its answer goes out in two parts, the client hangs up. -/
def refusedLine : List IoEvent :=
  [.accept 7, .input 7 (.bytes ⟨ascii "hi\r\n", by decide, by decide⟩), .output 7 3, .output 7 4, .hangUp 7]

theorem worker_buffers_refusedLine : ∃ w, 0 < 4 ∧
    Run (WorkerStep refuse) (Worker.start 4 ⟨fun _ => 0, fun _ => 0⟩ ()) refusedLine w ∧
    ∃ own : Owner → List Nat, Owned (· < 4) (fun i => (w.pool.base i).next) (heads w.pool w.ioTable) own := by
  have hrun : ∃ w, Run (WorkerStep refuse) (Worker.start 4 ⟨fun _ => 0, fun _ => 0⟩ ()) refusedLine w := by
    refine ⟨_, .cons ⟨rfl, _, _, rfl, rfl⟩ (.cons ⟨rfl, _, _, rfl, rfl⟩ (.cons ⟨⟨rfl, ?_⟩, _, _, rfl, rfl⟩
      (.cons ⟨⟨rfl, ?_⟩, _, _, rfl, rfl⟩ (.cons ⟨rfl, _, _, rfl, rfl⟩ (.nil _)))))⟩
    · decide
    · decide
  obtain ⟨w, hw⟩ := hrun
  obtain ⟨⟨own, hown, -⟩, -⟩ := worker_buffers refuse (by decide : 0 < 4) _ _ hw
  exact ⟨w, by decide, hw, own, hown⟩

end Tstdb
