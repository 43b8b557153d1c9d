/-
# `Tstdb.Server.Output` — what a connection sends

`append_send_data` queues bytes behind the output of a connection and `handle_output`
offers the first buffer to `send`.  The bytes that `send` has taken and the bytes that
are queued make up what was appended, in order, as long as `send` takes what it can.

A `send` that fails returns `-1`, and `handle_output` goes on with that as a count: the
data moves up by one byte, what stood in front of the array moves in, and the size
grows by one.  From then on the output has a byte that nobody has appended
(`output_is_fifo`).
-/
import Mathlib
import Tstdb.Lib.Runs
import Tstdb.Lib.CText
import Tstdb.Lib.Bytes
import Tstdb.Lib.Chains
import Tstdb.Lib.Outcome
import Tstdb.Tst.Arena
import Tstdb.Tst.Runs
import Tstdb.Server.Index
import Tstdb.Server.Store
import Tstdb.Server.Pool
import Tstdb.Server.Buffers
import Tstdb.Server.Framing

namespace Tstdb

open CText Bytes Chains Outcome Runs

/-- What `send` returns. -/
inductive SendResult where
  | took (ct : Nat)
  /-- `-1`, and the byte that stands in front of the array of the buffer. -/
  | failed (before : UInt8)

inductive OutFault where
  | halt (h : Halt)
  /-- The data would move past the end of its array. -/
  | overrun
deriving DecidableEq, Repr

/-- `handle_output` after a `send` that has failed. -/
def handleOutputFailed (bp : Pool) (p : IoData) (before : UInt8) : Except OutFault (Pool × IoData) :=
  match p.outBufHead with
  | none => .ok (bp, p)
  | some q =>
      let b := bp.base q
      if BUF_UNIT_SIZE ≤ b.size then .error .overrun else .ok (bp.set q { b with data := before :: b.data }, p)

/-- `handle_output` for any result. -/
def handleOutputOf (bp : Pool) (p : IoData) : SendResult → Except OutFault (Pool × IoData)
  | .took ct => (handleOutput bp p ct).mapError .halt
  | .failed before => handleOutputFailed bp p before

/-- What is offered to `send`. -/
def offered (bp : Pool) (p : IoData) : List UInt8 :=
  match p.outBufHead with
  | none => []
  | some q => (bp.base q).data

def SendResult.taken (bp : Pool) (p : IoData) : SendResult → List UInt8
  | .took ct => (offered bp p).take ct
  | .failed _ => []

/-! ## Runs -/

/-- The output of a worker's connections, with all that was appended to it and all that
`send` has taken. -/
structure Outgoing where
  pool : Pool
  ioTable : Nat → IoData
  appended : Nat → List UInt8
  accepted : Nat → List UInt8

inductive OutEvent where
  | append (fd : Nat) (data : List UInt8)
  | output (fd : Nat) (result : SendResult)

def Outgoing.exec (s : Outgoing) : OutEvent → Except OutFault Outgoing
  | .append fd data => do
      let (bp, p) ← (appendSendData s.pool (s.ioTable fd) data).mapError .halt
      return { s with
        pool := bp, ioTable := Function.update s.ioTable fd p
        appended := Function.update s.appended fd (s.appended fd ++ data) }
  | .output fd result => do
      let (bp, p) ← handleOutputOf s.pool (s.ioTable fd) result
      return { s with
        pool := bp, ioTable := Function.update s.ioTable fd p
        accepted := Function.update s.accepted fd (s.accepted fd ++ result.taken s.pool (s.ioTable fd)) }

/-- `send` takes no more than it is offered. -/
def Outgoing.enabled (s : Outgoing) : OutEvent → Prop
  | .output fd (.took ct) => ct ≤ (offered s.pool (s.ioTable fd)).length
  | _ => True

def OutStep (s : Outgoing) (e : OutEvent) (s' : Outgoing) : Prop := s.enabled e ∧ s.exec e = .ok s'

def Outgoing.start (nItems : Nat) : Outgoing := ⟨bpNew nItems, fun _ => IoData.zero, fun _ => [], fun _ => []⟩

/-- The bytes in the output chain of a connection. -/
def Outgoing.queued (s : Outgoing) (fd : Nat) : Except Halt (List UInt8) :=
  (buffersFrom s.pool.nItems s.pool (s.ioTable fd).outBufHead).map List.flatten

/-- What was taken and what is queued is what was appended. -/
def Outgoing.Fifo (s : Outgoing) : Prop :=
  ∀ fd, ∃ queued, s.queued fd = .ok queued ∧ s.accepted fd ++ queued = s.appended fd

/-- `send` does not fail. -/
def Outgoing.Sends (s : Outgoing) : OutEvent → Prop
  | .output fd (.failed _) => (s.ioTable fd).outBufHead = none
  | _ => True

def OutFault.excused : OutFault → Prop
  | .halt h => h.excused
  | .overrun => False

section Steps

variable {N : Nat} {bp : Pool} {io : Nat → IoData} {fd : Nat} {p : IoData} {q : Owner → List (List UInt8)}
  {s s' : Outgoing} {e : OutEvent}

theorem ends_mapError {α : Type} {Q : α → Prop} {x : Except Halt α} (h : Ends Halt.excused Q x) :
    Ends OutFault.excused Q (x.mapError .halt) := by
  cases x with
  | ok a => exact h
  | error e => exact h

theorem offered_eq (h : Queues N bp (Function.update io fd p) q) : offered bp p = (q (.output fd)).headD [] := by
  unfold offered
  cases hh : p.outBufHead with
  | none => rw [(h.output_none hh).2]; rfl
  | some a =>
      obtain ⟨own, hl, hq⟩ := h
      have hne : own (.output fd) ≠ [] := fun e => by
        rw [hl.outBufHead_eq_none.mpr e] at hh
        cases hh
      obtain ⟨b, l, ho⟩ := List.exists_cons_of_ne_nil hne
      have hb := (hl.head_cons ho).1
      rw [heads_output, hh] at hb
      obtain rfl := Option.some.inj hb
      rw [← hq _ (by simp), ho]
      rfl

/-- What `send` takes and what it leaves is what it was offered. -/
theorem flatten_sendChunks (ct : Nat) (cs : List (List UInt8)) :
    (cs.headD []).take ct ++ (sendChunks ct cs).flatten = cs.flatten := by
  cases cs with
  | nil => simp [sendChunks]
  | cons c cs =>
      rw [sendChunks]
      split_ifs with hc
      · simp [List.take_of_length_le hc]
      · simp only [List.headD_cons, List.flatten_cons]
        rw [← List.append_assoc, List.take_append_drop]

/-- A failed `send` puts a byte in front of the output. -/
theorem handleOutputFailed_ends (h : Queues N bp (Function.update io fd p) q) {a : Nat} (ha : p.outBufHead = some a)
    (before : UInt8) :
    Ends (fun f => f = .overrun ∧ BUF_UNIT_SIZE ≤ (offered bp p).length)
      (fun r => r.2 = p ∧ ∃ cs, cs.flatten = before :: (q (.output fd)).flatten ∧
        Queues N r.1 (Function.update io fd p) (Function.update q (.output fd) cs)) (handleOutputFailed bp p before) := by
  unfold handleOutputFailed offered
  rw [ha]
  rcases Nat.lt_or_ge (bp.base a).size BUF_UNIT_SIZE with hlt | hge
  · simp only [if_neg (Nat.not_le.mpr hlt)]
    obtain ⟨own, hl, hq⟩ := h
    have hne : own (.output fd) ≠ [] := fun e => by
      rw [hl.outBufHead_eq_none.mpr e] at ha
      cases ha
    obtain ⟨b, l, ho⟩ := List.exists_cons_of_ne_nil hne
    have hb := (hl.head_cons ho).1
    rw [heads_output, ha] at hb
    obtain rfl := Option.some.inj hb
    obtain ⟨hl', hq'⟩ := hl.rewrite hq (x := .output fd) (l := []) (by simp) ho (before :: (bp.base a).data)
    refine ⟨rfl, (before :: (bp.base a).data) :: bp.chunks l, ?_, own, hl', hq'⟩
    rw [← hq _ (by simp), ho]
    rfl
  · simp only [if_pos hge]
    exact ⟨rfl, hge⟩

/-- The bytes of a connection that were taken or are queued. -/
def Outgoing.total (s : Outgoing) (q : Owner → List (List UInt8)) (fd : Nat) : List UInt8 :=
  s.accepted fd ++ (q (.output fd)).flatten

/-- What an event appends to the output of a connection. -/
def OutEvent.data (fd : Nat) : OutEvent → List UInt8
  | .append fd' data => if fd = fd' then data else []
  | .output _ _ => []

/-- All a step does to the bytes of the connections. -/
structure Follows (s : Outgoing) (q : Owner → List (List UInt8)) (e : OutEvent) (s' : Outgoing)
    (q' : Owner → List (List UInt8)) : Prop where
  appended : ∀ fd, s'.appended fd = s.appended fd ++ e.data fd
  keeps : s.Sends e → ∀ fd, s'.total q' fd = s.total q fd ++ e.data fd
  grows : ∀ fd, (s.total q fd).length + (e.data fd).length ≤ (s'.total q' fd).length
  breaks : ¬s.Sends e → ∃ fd, (s.total q fd).length + (e.data fd).length < (s'.total q' fd).length

theorem Follows.of_keeps (happended : ∀ fd, s'.appended fd = s.appended fd ++ e.data fd) {q' : Owner → List (List UInt8)}
    (hkeeps : ∀ fd, s'.total q' fd = s.total q fd ++ e.data fd) (hsends : s.Sends e) : Follows s q e s' q' where
  appended := happended
  keeps _ := hkeeps
  grows fd := by rw [hkeeps fd, List.length_append]
  breaks h := absurd hsends h

theorem Outgoing.append_ends (h : Queues N s.pool s.ioTable q) (fd : Nat) (data : List UInt8) :
    Ends OutFault.excused (fun s' => ∃ q', Queues N s'.pool s'.ioTable q' ∧ Follows s q (.append fd data) s' q')
      (s.exec (.append fd data)) := by
  have hself : Queues N s.pool (Function.update s.ioTable fd (s.ioTable fd)) q := by rwa [Function.update_eq_self]
  refine Ends.bind (ends_mapError ((appendSendData_ends hself data).excuse fun e he => he ▸ trivial)) ?_
  rintro ⟨bp, p⟩ ⟨-, cs, hflat, hq⟩
  refine ⟨_, hq, .of_keeps (fun fd' => ?_) (fun fd' => ?_) trivial⟩
  · rcases eq_or_ne fd' fd with rfl | hne
    · simp [OutEvent.data]
    · simp [OutEvent.data, hne]
  · rcases eq_or_ne fd' fd with rfl | hne
    · simp [Outgoing.total, OutEvent.data, hflat]
    · simp [Outgoing.total, OutEvent.data, hne]

theorem Outgoing.took_ends (h : Queues N s.pool s.ioTable q) (fd ct : Nat) :
    ∃ s', s.exec (.output fd (.took ct)) = .ok s' ∧
      ∃ q', Queues N s'.pool s'.ioTable q' ∧ Follows s q (.output fd (.took ct)) s' q' := by
  have hself : Queues N s.pool (Function.update s.ioTable fd (s.ioTable fd)) q := by rwa [Function.update_eq_self]
  obtain ⟨bp, p, he, -, hq⟩ := handleOutput_eq hself ct
  have hexec : s.exec (.output fd (.took ct)) = .ok { s with
      pool := bp, ioTable := Function.update s.ioTable fd p
      accepted := Function.update s.accepted fd (s.accepted fd ++ (SendResult.took ct).taken s.pool (s.ioTable fd)) } := by
    simp only [Outgoing.exec, handleOutputOf, he, Except.mapError, bind, Except.bind]
    rfl
  refine ⟨_, hexec, _, hq, .of_keeps (fun fd' => (List.append_nil _).symm) (fun fd' => ?_) trivial⟩
  rcases eq_or_ne fd' fd with rfl | hne
  · simp only [Outgoing.total, OutEvent.data, SendResult.taken, Function.update_self, offered_eq hself,
      List.append_assoc, flatten_sendChunks, List.append_nil]
  · simp [Outgoing.total, OutEvent.data, hne]

/-- A failed `send` where there is something to send. -/
theorem Outgoing.failed_ends (h : Queues N s.pool s.ioTable q) (fd : Nat) (before : UInt8) {a : Nat}
    (ha : (s.ioTable fd).outBufHead = some a) :
    Ends (fun _ => True)
      (fun s' => ∃ q', Queues N s'.pool s'.ioTable q' ∧ Follows s q (.output fd (.failed before)) s' q')
      (s.exec (.output fd (.failed before))) := by
  have hself : Queues N s.pool (Function.update s.ioTable fd (s.ioTable fd)) q := by rwa [Function.update_eq_self]
  refine Ends.bind (Ends.excuse (handleOutputFailed_ends hself ha before) fun _ _ => trivial) ?_
  rintro ⟨bp, p⟩ ⟨rfl, cs, hflat, hq⟩
  have hlen : ∀ fd', (Function.update q (.output fd) cs (.output fd')).flatten.length
      = (q (.output fd')).flatten.length + if fd' = fd then 1 else 0 := by
    intro fd'
    rcases eq_or_ne fd' fd with rfl | hne
    · rw [Function.update_self, hflat, if_pos rfl, List.length_cons]
    · rw [Function.update_of_ne (by simpa using hne), if_neg hne, Nat.add_zero]
  have htaken : ∀ fd', Function.update s.accepted fd (s.accepted fd ++ []) fd' = s.accepted fd' := by
    intro fd'
    rw [List.append_nil, Function.update_eq_self]
  have htotal : ∀ fd', (s.accepted fd' ++ (Function.update q (.output fd) cs (.output fd')).flatten).length
      = (s.total q fd').length + if fd' = fd then 1 else 0 := by
    intro fd'
    rw [List.length_append, hlen, Outgoing.total, List.length_append, Nat.add_assoc]
  refine ⟨_, hq, ⟨fun fd' => (List.append_nil _).symm, fun hs => ?_, fun fd' => ?_, fun _ => ⟨fd, ?_⟩⟩⟩
  · exact absurd (ha.symm.trans hs) (by simp)
  · simp only [Outgoing.total, SendResult.taken, htaken, OutEvent.data, List.length_nil] at htotal ⊢
    rw [htotal]
    split_ifs <;> simp
  · simp only [Outgoing.total, SendResult.taken, htaken, OutEvent.data, List.length_nil] at htotal ⊢
    rw [htotal, if_pos rfl]
    simp

theorem Outgoing.step (h : Queues N s.pool s.ioTable q) (hs : OutStep s e s') :
    ∃ q', Queues N s'.pool s'.ioTable q' ∧ Follows s q e s' q' := by
  obtain ⟨-, he⟩ := hs
  cases e with
  | append fd data => exact (append_ends h fd data).ok he
  | output fd result =>
      cases result with
      | took ct =>
          obtain ⟨s₁, he₁, hq⟩ := took_ends h fd ct
          obtain rfl := Except.ok.inj (he.symm.trans he₁)
          exact hq
      | failed before =>
          cases ha : (s.ioTable fd).outBufHead with
          | some a => exact (failed_ends h fd before ha).ok he
          | none =>
              simp only [Outgoing.exec, handleOutputOf, handleOutputFailed, ha, bind, Except.bind, pure,
                Except.pure, SendResult.taken, List.append_nil, Function.update_eq_self] at he
              obtain rfl := Except.ok.inj he
              exact ⟨q, h, .of_keeps (fun fd' => (List.append_nil _).symm) (fun fd' => (List.append_nil _).symm) ha⟩

theorem Outgoing.queued_eq (h : Queues N s.pool s.ioTable q) (fd : Nat) : s.queued fd = .ok (q (.output fd)).flatten := by
  obtain ⟨own, hl, hq⟩ := h
  have hc := hl.owned.chain (.output fd)
  rw [Outgoing.queued, show (s.ioTable fd).outBufHead = heads s.pool s.ioTable (.output fd) from rfl,
    buffersFrom_eq _ _ _ hc (hl.length_le _), hq _ (by simp)]
  rfl

theorem Outgoing.fifo_iff (h : Queues N s.pool s.ioTable q) : s.Fifo ↔ ∀ fd, s.total q fd = s.appended fd := by
  constructor
  · intro hf fd
    obtain ⟨queued, hq, heq⟩ := hf fd
    rw [queued_eq h fd] at hq
    obtain rfl := Except.ok.inj hq
    exact heq
  · exact fun hall fd => ⟨_, queued_eq h fd, hall fd⟩

/-- A byte more than was appended. -/
def Outgoing.Invents (N : Nat) (s : Outgoing) : Prop :=
  ∃ q, Queues N s.pool s.ioTable q ∧ ∃ fd, (s.appended fd).length < (s.total q fd).length

/-- As many bytes as were appended, and the same ones. -/
def Outgoing.Conserves (N : Nat) (s : Outgoing) : Prop :=
  ∃ q, Queues N s.pool s.ioTable q ∧ ∀ fd, s.total q fd = s.appended fd

theorem Outgoing.Conserves.step (h : s.Conserves N) (hs : OutStep s e s') :
    (s.Sends e → s'.Conserves N) ∧ (¬s.Sends e → s'.Invents N) := by
  obtain ⟨q, hq, hall⟩ := h
  obtain ⟨q', hq', hf⟩ := Outgoing.step hq hs
  refine ⟨fun hsends => ⟨q', hq', fun fd => ?_⟩, fun hno => ?_⟩
  · rw [hf.keeps hsends fd, hall fd, hf.appended fd]
  · obtain ⟨fd, hlt⟩ := hf.breaks hno
    exact ⟨q', hq', fd, by rw [hf.appended fd, List.length_append, ← hall fd]; exact hlt⟩

theorem Outgoing.Invents.step (h : s.Invents N) (hs : OutStep s e s') : s'.Invents N := by
  obtain ⟨q, hq, fd, hlt⟩ := h
  obtain ⟨q', hq', hf⟩ := Outgoing.step hq hs
  have hgrows := hf.grows fd
  exact ⟨q', hq', fd, by rw [hf.appended fd, List.length_append]; omega⟩

end Steps

theorem OutStep.unique (s : Outgoing) (e : OutEvent) (s₁ s₂ : Outgoing) (h : OutStep s e s₁) (h' : OutStep s e s₂) :
    s₁ = s₂ := Except.ok.inj (h.2.symm.trans h'.2)

/-- After any run the output of every connection is a FIFO stream exactly if no `send`
of the run has failed; and any further event is carried out, unless `alloc_buf` runs
out or a `send` fails. -/
theorem output_is_fifo {nItems : Nat} (hn : 0 < nItems) {events : List OutEvent} {s : Outgoing}
    (hrun : Run OutStep (.start nItems) events s) :
    (s.Fifo ↔ Meets OutStep Outgoing.Sends (.start nItems) events) ∧
      ∀ e, s.enabled e → s.Sends e → Ends OutFault.excused (fun _ => True) (s.exec e) := by
  have hstart : (Outgoing.start nItems).Conserves nItems :=
    ⟨fun _ => [], (holds_start hn ⟨fun _ => 0, fun _ => 0⟩ ()).queues, fun _ => rfl⟩
  have hcases := Run.good_or_bad (I := Outgoing.Conserves nItems) (B := Outgoing.Invents nItems) OutStep.unique
    (fun _ _ _ hi hp hs => (hi.step hs).1 hp) (fun _ _ _ hi hp hs => (hi.step hs).2 hp) (fun _ _ _ hb hs => hb.step hs)
    hrun hstart
  constructor
  · rcases hcases with ⟨hm, q, hq, hall⟩ | ⟨hm, q, hq, fd, hlt⟩
    · exact iff_of_true ((Outgoing.fifo_iff hq).mpr hall) hm
    · refine iff_of_false (fun hf => ?_) hm
      rw [(Outgoing.fifo_iff hq).mp hf fd] at hlt
      exact absurd hlt (lt_irrefl _)
  · obtain ⟨q, hq⟩ : ∃ q, Queues nItems s.pool s.ioTable q := by
      rcases hcases with ⟨-, q, hq, -⟩ | ⟨-, q, hq, -⟩ <;> exact ⟨q, hq⟩
    intro e _ hsends
    cases e with
    | append fd data => exact (Outgoing.append_ends hq fd data).imp fun _ _ => trivial
    | output fd result =>
        cases result with
        | took ct =>
            obtain ⟨s', he, -⟩ := Outgoing.took_ends hq fd ct
            rw [he]
            trivial
        | failed before =>
            simp only [Outgoing.exec, handleOutputOf, handleOutputFailed,
              show (s.ioTable fd).outBufHead = none from hsends]
            trivial

/-- Two bytes are appended and sent one by one. -/
def sentTwice : List OutEvent :=
  [.append 7 [104, 105], .output 7 (.took 1), .output 7 (.took 1)]

theorem output_is_fifo_sentTwice : ∃ s, 0 < 4 ∧ Run OutStep (.start 4) sentTwice s ∧ s.Fifo := by
  obtain ⟨s, hs⟩ : ∃ s, Run OutStep (.start 4) sentTwice s :=
    ⟨_, .cons ⟨trivial, rfl⟩ (.cons ⟨show 1 ≤ 2 by decide, rfl⟩ (.cons ⟨show 1 ≤ 1 by decide, rfl⟩ (.nil _)))⟩
  have hmeets : Meets OutStep Outgoing.Sends (.start 4) sentTwice :=
    ⟨trivial, fun _ _ => ⟨trivial, fun _ _ => ⟨trivial, fun _ _ => trivial⟩⟩⟩
  exact ⟨s, by decide, hs, (output_is_fifo (by decide) hs).1.mpr hmeets⟩

/-- One byte is appended, and `send` fails. -/
theorem output_invents : ¬ ∀ (nItems : Nat) (events : List OutEvent) (s : Outgoing), 0 < nItems →
    Run OutStep (.start nItems) events s → s.Fifo := by
  intro H
  obtain ⟨s, hs, hqueued, haccepted, happended⟩ : ∃ s, Run OutStep (.start 4)
      [.append 7 [104], .output 7 (.failed 0)] s ∧ s.queued 7 = .ok [0, 104] ∧ s.accepted 7 = [] ∧ s.appended 7 = [104] :=
    ⟨_, .cons ⟨trivial, rfl⟩ (.cons ⟨trivial, rfl⟩ (.nil _)), rfl, rfl, rfl⟩
  obtain ⟨queued, hq, heq⟩ := H 4 _ s (by decide) hs 7
  obtain rfl := Except.ok.inj (hqueued.symm.trans hq)
  rw [haccepted, happended] at heq
  exact absurd heq (by decide)

end Tstdb
