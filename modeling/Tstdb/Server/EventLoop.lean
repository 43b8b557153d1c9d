/-
# `Tstdb.Server.EventLoop` — what a worker waits for

`handle_core` takes the events that `epoll_wait` reports, and the handlers decide what
is reported next: `handle_input` asks for `EPOLLOUT` when its requests have left
something to send, `handle_output` takes it back when it has sent the last buffer, and
`destroy_fd` takes the descriptor out of the set.

These masks are right in every state of a run (`Loop.Watched`): exactly the open
connections are in the set, and a connection is waited for to become writable if and only
if there is something to send.  So no event is for a connection that is gone, no reply is
left behind, and a worker does not go round without work.  However few bytes `send`
takes at a time, what is owed to a client is sent after so many events
(`event_loop_sends_all`).
-/
import Mathlib
import Tstdb.Lib.Runs
import Tstdb.Lib.CText
import Tstdb.Lib.Bytes
import Tstdb.Lib.Chains
import Tstdb.Lib.Outcome
import Tstdb.Tst.Arena
import Tstdb.Tst.Runs
import Tstdb.Server.Index
import Tstdb.Server.Store
import Tstdb.Server.Pool
import Tstdb.Server.Buffers
import Tstdb.Server.Framing
import Tstdb.Server.Output
import Tstdb.Server.Stream
import Tstdb.Server.Dialogue

namespace Tstdb

open CText Bytes Chains Outcome Runs

/-- `ev.events`; the server uses no other bits. -/
structure Events where
  epollin : Bool
  epollout : Bool
deriving DecidableEq, Repr

def EPOLLIN : Events := ⟨true, false⟩
def EPOLLOUT : Events := ⟨false, true⟩

def Events.or (x y : Events) : Events := ⟨x.epollin || y.epollin, x.epollout || y.epollout⟩

/-- What is reported has been asked for. -/
def Events.Within (x y : Events) : Prop := (x.epollin = true → y.epollin = true) ∧ (x.epollout = true → y.epollout = true)

/-! ## The handlers -/

section Handlers

variable {σ : Type} (handleCmd : Handler σ)

/-- The loop of `handle_input` with its `can_output`. -/
def inputLoop : Nat → Bool → Conn σ → Except Halt (Bool × Conn σ)
  | 0, _, _ => .error .endless
  | fuel + 1, canOutput, c => do
      match ← dispatch handleCmd c with
      | (none, c) => return (canOutput, c)
      | (some _, c) => inputLoop fuel (canOutput || c.io.outBufHead.isSome) c

/-- `handle_input` with its `can_output`. -/
def receive (c : Conn σ) (recv : Recv) : Except Halt (Bool × Conn σ) := do
  let (bp, p) ← appendRecvData c.pool c.io recv
  match recv with
  | .failed => return (false, ← destroyFd { c with pool := bp, io := p })
  | _ =>
      let bufs ← buffersFrom bp.nItems bp p.inBufHead
      inputLoop handleCmd (bufs.flatten.length + 1) false { c with pool := bp, io := p }

/-- The handlers with their calls of `epoll_ctl`: from what a descriptor is in the set
with to what it is in the set with afterwards.  A descriptor that has been closed is no
longer there, and then `EPOLL_CTL_MOD` fails. -/
def Conn.handle (c : Conn σ) (mask : Option Events) : IoEvent → Except Halt (Option Events × Conn σ)
  | .accept _ => .ok (some EPOLLIN, { c with io := allocIoData c.io, live := true })
  | .input _ recv => do
      let (canOutput, c) ← receive handleCmd c recv
      if c.live = false then return (none, c)
      else return (if canOutput = true then some (EPOLLOUT.or EPOLLIN) else mask, c)
  | .output _ ct => do
      let (bp, p) ← handleOutput c.pool c.io ct
      -- `can_input`
      let mask := if c.io.outBufHead ≠ none ∧ p.outBufHead = none then some EPOLLIN else mask
      return (mask, { c with pool := bp, io := p })
  | .hangUp _ => do return (none, ← destroyFd c)

end Handlers

/-! ## The loop -/

/-- A worker's connections and the `epoll` set it waits on. -/
structure Loop (σ : Type) where
  session : Session σ
  epoll : Nat → Option Events

inductive CoreEvent where
  /-- `do_accept` hands the worker a new descriptor. -/
  | accept (fd : Nat)
  /-- `epoll_wait` reports the descriptor; then what `recv` would bring, and how much `send`
  would take. -/
  | ready (fd : Nat) (events : Events) (recv : Recv) (ct : Nat)

def CoreEvent.fd : CoreEvent → Nat
  | .accept fd | .ready fd .. => fd

/-- Which handler `handle_core` calls. -/
def CoreEvent.io : CoreEvent → IoEvent
  | .accept fd => .accept fd
  | .ready fd events recv ct =>
      if events.epollin = true then .input fd recv else if events.epollout = true then .output fd ct else .hangUp fd

/-- A new descriptor is not one in use, only what is in the set is reported, with what it
is there with or with an error, and `send` takes no more than it is offered. -/
def Loop.reports {σ : Type} (l : Loop σ) : CoreEvent → Prop
  | .accept fd => l.session.worker.live fd = false
  | .ready fd events _ ct => (∃ mask, l.epoll fd = some mask ∧ events.Within mask) ∧
      (events.epollin = false → events.epollout = true →
        ∀ q ∈ (l.session.worker.ioTable fd).outBufHead, ct ≤ (l.session.worker.pool.base q).size)

def LoopStep {σ : Type} (handleCmd : Handler σ) (l : Loop σ) (e : CoreEvent) (l' : Loop σ) : Prop :=
  l.reports e ∧ ∃ mask c, (l.session.worker.conn e.fd).handle handleCmd (l.epoll e.fd) e.io = .ok (mask, c) ∧
    l' = ⟨l.session.after (l.session.worker.putConn e.fd c) e.io, Function.update l.epoll e.fd mask⟩

def Loop.start {σ : Type} (nItems : Nat) (scratch : Scratch) (shared : σ) : Loop σ :=
  ⟨Session.start nItems scratch shared, fun _ => none⟩

/-- What a connection should be in the set with. -/
def Conn.mask {σ : Type} (c : Conn σ) : Option Events :=
  if c.live = true then some ⟨true, c.io.outBufHead.isSome⟩ else none

/-- The masks are right. -/
def Loop.Watched {σ : Type} (l : Loop σ) : Prop := ∀ fd, l.epoll fd = (l.session.worker.conn fd).mask

/-! ## What the handlers do -/

section Handle

variable {σ : Type} {N : Nat} {handleCmd : Handler σ} {io : Nat → IoData} {fd : Nat} {c : Conn σ}
  {q : Owner → List (List UInt8)}

/-- The flag is kept beside the loop. -/
theorem inputLoop_conn : ∀ (n : Nat) (b : Bool) (c : Conn σ),
    (inputLoop handleCmd n b c).map Prod.snd = (dispatchLoop handleCmd n c).map Prod.snd := by
  intro n
  induction n with
  | zero => exact fun b c => rfl
  | succ n ih =>
      intro b c
      rw [inputLoop, dispatchLoop]
      cases hd : dispatch handleCmd c with
      | error e => rfl
      | ok r =>
          obtain ⟨request?, c₁⟩ := r
          cases request? with
          | none => rfl
          | some request =>
              have hrest := ih (b || c₁.io.outBufHead.isSome) c₁
              simp only [bind, Except.bind]
              rw [hrest]
              cases dispatchLoop handleCmd n c₁ <;> rfl

theorem receive_conn (c : Conn σ) (recv : Recv) :
    (receive handleCmd c recv).map Prod.snd = (handleInput handleCmd c recv).map Prod.snd := by
  rw [receive, handleInput]
  cases ha : appendRecvData c.pool c.io recv with
  | error e => rfl
  | ok r =>
      obtain ⟨bp, p⟩ := r
      have hloop : ∀ x : Except Halt (List (List UInt8)),
          (x >>= fun bufs => inputLoop handleCmd (bufs.flatten.length + 1) false { c with pool := bp, io := p }).map Prod.snd
            = (x >>= fun bufs => dispatchLoop handleCmd (bufs.flatten.length + 1)
                { c with pool := bp, io := p }).map Prod.snd := by
        intro x
        cases x with
        | error e => rfl
        | ok bufs => exact inputLoop_conn _ _ _
      cases recv with
      | failed =>
          simp only [bind, Except.bind]
          cases destroyFd { c with pool := bp, io := p } <;> rfl
      | bytes chunk => exact hloop _
      | again => exact hloop _

/-! ### The first buffer to send -/

theorem appendLoop_head : ∀ (n : Nat) (bp : Pool) (p : IoData) (a : Option Nat) (data : List UInt8),
    Ends (fun _ => True) (fun r => p.outBufHead ≠ none → r.2.outBufHead ≠ none) (appendLoop n bp p a data) := by
  intro n
  induction n with
  | zero => exact fun _ _ _ _ => trivial
  | succ n ih =>
      intro bp p a data
      have hbuf : Ends (fun _ => True) (fun r => p.outBufHead ≠ none → r.2.2.outBufHead ≠ none) (outBuf bp p a) := by
        cases a with
        | some a => exact fun h => h
        | none =>
            refine (ends_trivial (allocBuf bp)).bind ?_
            rintro ⟨a, bp⟩ -
            cases hh : p.outBufHead with
            | none => exact fun h => absurd rfl h
            | some b =>
                cases ht : p.outBufTail with
                | none => exact trivial
                | some t => exact fun _ e => Option.some_ne_none b e
      refine hbuf.bind ?_
      rintro ⟨a, bp₁, p₁⟩ h₁
      simp only
      split_ifs
      · exact h₁
      · exact (ih _ p₁ none _).imp fun r hr h => hr (h₁ h)

/-- More to send does not take away what there was. -/
theorem appendAll_head : ∀ (chunks : List (List UInt8)) (bp : Pool) (p : IoData),
    Ends (fun _ => True) (fun r => p.outBufHead ≠ none → r.2.outBufHead ≠ none) (appendAll bp p chunks) := by
  intro chunks
  induction chunks with
  | nil => exact fun _ _ h => h
  | cons data rest ih =>
      intro bp p
      refine (appendLoop_head _ bp p p.outBufTail data).bind ?_
      rintro ⟨bp₁, p₁⟩ h₁
      exact (ih bp₁ p₁).imp fun r hr h => hr (h₁ h)

/-- Of a connection that is still there, what was to be sent is still to be sent. -/
def Conn.Retains (c c' : Conn σ) : Prop :=
  c'.live = true → c.live = true ∧ (c.io.outBufHead ≠ none → c'.io.outBufHead ≠ none)

theorem destroyFd_live (c : Conn σ) : Ends (fun _ => True) (fun c' => c'.live = false) (destroyFd c) := by
  refine (ends_trivial (destroyIoData c.pool c.io)).bind ?_
  rintro ⟨bp, p⟩ -
  exact rfl

theorem passOn_retains (c : Conn σ) (request : Request) :
    Ends (fun _ => True) (fun r => r.1 = some request ∧ c.Retains r.2) (passOn handleCmd c request) := by
  unfold passOn
  cases hh : handleCmd c.scratch c.io.headerLen c.io.bodyLen c.shared with
  | error f => exact trivial
  | ok r =>
      obtain ⟨answer, s, shared⟩ := r
      have hperform : Ends (fun _ => True) (fun c' => c.Retains c')
          (answer.perform { c with scratch := s, shared := shared }) := by
        cases answer with
        | sent chunks =>
            refine (appendAll_head chunks c.pool c.io).bind ?_
            rintro ⟨bp, p⟩ h
            exact fun hlive => ⟨hlive, h⟩
        | quit => exact (destroyFd_live _).imp fun c' hdead hlive => absurd (hlive.symm.trans hdead) (by simp)
      exact hperform.bind fun c' h => ⟨rfl, h⟩

theorem dispatch_retains (h : c.Good N io fd q) :
    Ends (fun _ => True) (fun r => c.Retains r.2 ∧ (r.1 = none → r.2.live = c.live ∧
      (r.2.io.outBufHead = none ↔ c.io.outBufHead = none))) (dispatch handleCmd c) := by
  obtain ⟨r, f, cs, hnext⟩ : ∃ r f cs, c.io.framing.next (q (.input fd)) = (r, f, cs) := ⟨_, _, _, rfl⟩
  obtain ⟨bp, p, s, hreads⟩ := @dispatch_reads _ N handleCmd io fd c q h _ _ _ hnext
  cases r with
  | none =>
      obtain ⟨he, -, -, hgood⟩ := hreads
      rw [he]
      have hsame : p.outBufHead = none ↔ c.io.outBufHead = none :=
        hgood.queues.outBufHead_eq_none.trans h.queues.outBufHead_eq_none.symm
      exact ⟨fun hlive => ⟨hlive, fun hne e => hne (hsame.mp e)⟩, fun _ => ⟨rfl, hsame⟩⟩
  | some request =>
      obtain ⟨he, -, hready⟩ := hreads
      rw [he]
      have hsame : p.outBufHead = none ↔ c.io.outBufHead = none := by
        rw [hready.queues.outBufHead_eq_none, Function.update_of_ne (by simp), h.queues.outBufHead_eq_none]
      refine (passOn_retains _ request).imp ?_
      rintro ⟨r, c'⟩ ⟨hr, hretains⟩
      obtain rfl : r = some request := hr
      refine ⟨fun hlive => ?_, fun e => by cases e⟩
      exact ⟨(hretains hlive).1, fun hne => (hretains hlive).2 fun e => hne (hsame.mp e)⟩

/-- `can_output` tells whether there is something to send, unless nothing has changed. -/
theorem inputLoop_flag : ∀ (n : Nat) (b : Bool) (c : Conn σ) (q : Owner → List (List UInt8)), c.Good N io fd q →
    (b = true → c.live = true → c.io.outBufHead ≠ none) →
    Ends (fun _ => True) (fun r => (b = true → r.1 = true) ∧ c.Retains r.2 ∧ (r.2.live = true →
      (r.1 = true → r.2.io.outBufHead ≠ none) ∧ (r.1 = false → (r.2.io.outBufHead = none ↔ c.io.outBufHead = none))))
      (inputLoop handleCmd n b c) := by
  intro n
  induction n with
  | zero => exact fun _ _ _ _ _ => trivial
  | succ n ih =>
      intro b c q h hb
      rw [inputLoop]
      refine (((dispatch_ends h).and (dispatch_retains h)).excuse fun _ _ => trivial).bind ?_
      rintro ⟨request?, c₁⟩ ⟨⟨cs, os, hgood, -, -, -⟩, hretains, hnone⟩
      cases request? with
      | none =>
          obtain ⟨hlive, hsame⟩ := hnone rfl
          refine ⟨fun hb' => hb', hretains, fun hlive₁ => ⟨fun hb' e => ?_, fun _ => hsame⟩⟩
          exact hb hb' (hlive ▸ hlive₁) (hsame.mp e)
      | some request =>
          refine (ih (b || c₁.io.outBufHead.isSome) c₁ _ hgood ?_).imp ?_
          · intro hb₁ hlive₁
            rcases Bool.or_eq_true_iff.mp hb₁ with hb' | hsome
            · exact (hretains hlive₁).2 (hb hb' (hretains hlive₁).1)
            · exact Option.ne_none_iff_isSome.mpr hsome
          · rintro ⟨b', c'⟩ ⟨hflag, hretains', hout⟩
            refine ⟨fun hb' => hflag (by rw [hb', Bool.true_or]), fun hlive => ?_, fun hlive => ⟨(hout hlive).1, fun hf => ?_⟩⟩
            · exact ⟨(hretains (hretains' hlive).1).1, fun hne => (hretains' hlive).2 ((hretains (hretains' hlive).1).2 hne)⟩
            · -- the flag was never set, so no round has left anything to send
              have hor : (b || c₁.io.outBufHead.isSome) = false := by
                rcases Bool.eq_false_or_eq_true (b || c₁.io.outBufHead.isSome) with ht | hf'
                · exact absurd (hf.symm.trans (hflag ht)) (by simp)
                · exact hf'
              have hnone₁ : c₁.io.outBufHead = none := Option.not_isSome_iff_eq_none.mp (by simp [(Bool.or_eq_false_iff.mp hor).2])
              have hlive₁ := (hretains' hlive).1
              refine ⟨fun _ => ?_, fun _ => ((hout hlive).2 hf).mpr hnone₁⟩
              rcases Classical.em (c.io.outBufHead = none) with e | hne
              · exact e
              · exact absurd hnone₁ ((hretains hlive₁).2 hne)

theorem Conn.mask_dead (h : c.live = false) : c.mask = none := by
  rw [Conn.mask, h]
  rfl

theorem Conn.mask_live (h : c.live = true) (b : Bool) (hb : c.io.outBufHead ≠ none ↔ b = true) :
    c.mask = some ⟨true, b⟩ := by
  rw [Conn.mask, if_pos h]
  have hsome : c.io.outBufHead.isSome = b := by
    rw [Bool.eq_iff_iff, ← hb, ← Option.ne_none_iff_isSome]
  rw [hsome]

theorem Conn.mask_congr {c' : Conn σ} (hlive : c'.live = c.live)
    (hhead : c'.io.outBufHead = none ↔ c.io.outBufHead = none) : c.mask = c'.mask := by
  have hsome : c.io.outBufHead.isSome = c'.io.outBufHead.isSome := by
    rw [Bool.eq_iff_iff, ← Option.ne_none_iff_isSome, ← Option.ne_none_iff_isSome]
    exact (not_congr hhead).symm
  rw [Conn.mask, Conn.mask, hlive, hsome]

theorem receive_mask (h : c.Good N io fd q) (recv : Recv) :
    Ends (fun _ => True) (fun r => r.2.live = true → c.live = true ∧
      (if r.1 = true then some (EPOLLOUT.or EPOLLIN) else c.mask) = r.2.mask) (receive handleCmd c recv) := by
  rw [receive]
  have hreceived := (appendRecvData_ends h.queues recv).and (h.received recv)
  refine (hreceived.excuse fun _ _ => trivial).bind ?_
  rintro ⟨bp, p⟩ ⟨⟨-, hs, -⟩, hgood, -⟩
  have hloop : Ends (fun _ => True) (fun r => r.2.live = true → c.live = true ∧
      (if r.1 = true then some (EPOLLOUT.or EPOLLIN) else c.mask) = r.2.mask)
      (buffersFrom bp.nItems bp p.inBufHead >>= fun bufs =>
        inputLoop handleCmd (bufs.flatten.length + 1) false { c with pool := bp, io := p }) := by
    refine (ends_trivial _).bind ?_
    rintro bufs -
    refine (inputLoop_flag _ false _ _ hgood (fun e => by cases e)).imp ?_
    rintro ⟨canOutput, c'⟩ ⟨-, hretains, hout⟩ hlive
    obtain ⟨hlive₀, -⟩ := hretains hlive
    refine ⟨hlive₀, ?_⟩
    cases canOutput with
    | true => exact (Conn.mask_live hlive true (iff_of_true ((hout hlive).1 rfl) rfl)).symm
    | false =>
        refine Conn.mask_congr (hlive.trans hlive₀.symm) ?_
        rw [(hout hlive).2 rfl, show p.outBufHead = c.io.outBufHead from hs.outBufHead]
  cases recv with
  | failed =>
      refine (destroyFd_live _).bind ?_
      exact fun c' hdead hlive => absurd (hlive.symm.trans hdead) (by simp)
  | bytes chunk => exact hloop
  | again => exact hloop

/-- A handler leaves its descriptor in the set as it should be. -/
theorem handle_mask {e : IoEvent} (h : (∃ fd', e = .accept fd') ∨ c.live = true ∧ c.Good N io fd q) :
    Ends (fun _ => True) (fun r => r.1 = r.2.mask) (c.handle handleCmd c.mask e) := by
  cases e with
  | accept fd' => exact rfl
  | input fd' recv =>
      obtain ⟨-, hgood⟩ := h.resolve_left fun ⟨_, e⟩ => by cases e
      refine (receive_mask hgood recv).bind ?_
      rintro ⟨canOutput, c'⟩ hmask
      simp only
      split_ifs with hdead hcan
      · exact (Conn.mask_dead hdead).symm
      · have he := (hmask (by simpa using hdead)).2
        rwa [if_pos hcan] at he
      · have he := (hmask (by simpa using hdead)).2
        rwa [if_neg hcan] at he
  | output fd' ct =>
      obtain ⟨hlive, hgood⟩ := h.resolve_left fun ⟨_, e⟩ => by cases e
      obtain ⟨bp, p, he, -, hq⟩ := handleOutput_eq hgood.queues ct
      rw [Conn.handle, he]
      have hnone : c.io.outBufHead = none → p.outBufHead = none := by
        rw [hq.outBufHead_eq_none, hgood.queues.outBufHead_eq_none, Function.update_self]
        intro e
        rw [e, sendChunks]
      show (if c.io.outBufHead ≠ none ∧ p.outBufHead = none then some EPOLLIN else c.mask)
        = Conn.mask { c with pool := bp, io := p }
      rcases Classical.em (c.io.outBufHead ≠ none ∧ p.outBufHead = none) with hcan | hno
      · rw [if_pos hcan]
        have hsent : Conn.mask { c with pool := bp, io := p } = some ⟨true, false⟩ :=
          @Conn.mask_live _ { c with pool := bp, io := p } hlive false (iff_of_false (not_not.mpr hcan.2) (by simp))
        exact hsent.symm
      · rw [if_neg hno]
        exact Conn.mask_congr rfl ⟨fun e => not_not.mp fun hne => hno ⟨hne, e⟩, hnone⟩
  | hangUp fd' => exact (destroyFd_live c).bind fun c' hdead => (Conn.mask_dead hdead).symm

theorem handle_exec {mask mask' : Option Events} {e : IoEvent} {c' : Conn σ}
    (he : c.handle handleCmd mask e = .ok (mask', c')) : ∃ requests, c.exec handleCmd e = .ok (requests, c') := by
  cases e with
  | accept fd =>
      obtain ⟨rfl, rfl⟩ := Prod.mk.inj (Except.ok.inj he)
      exact ⟨[], rfl⟩
  | input fd recv =>
      have hconn := @receive_conn _ handleCmd c recv
      have hexec : c.exec handleCmd (.input fd recv) = handleInput handleCmd c recv := rfl
      rw [Conn.handle] at he
      rw [hexec]
      cases hr : receive handleCmd c recv with
      | error f => rw [hr] at he; cases he
      | ok r =>
          obtain ⟨canOutput, c₁⟩ := r
          rw [hr] at he hconn
          have hc : c₁ = c' := by
            simp only [bind, Except.bind] at he
            split_ifs at he
            · exact (Prod.mk.inj (Except.ok.inj he)).2
            · exact (Prod.mk.inj (Except.ok.inj he)).2
            · exact (Prod.mk.inj (Except.ok.inj he)).2
          cases hi : handleInput handleCmd c recv with
          | error f => rw [hi] at hconn; cases hconn
          | ok r' =>
              obtain ⟨requests, c₂⟩ := r'
              rw [hi] at hconn
              obtain rfl : c₁ = c₂ := Except.ok.inj hconn
              exact ⟨requests, by rw [hc]⟩
  | output fd ct =>
      rw [Conn.handle] at he
      cases ho : handleOutput c.pool c.io ct with
      | error f => rw [ho] at he; cases he
      | ok r =>
          obtain ⟨bp, p⟩ := r
          rw [ho] at he
          obtain ⟨-, rfl⟩ := Prod.mk.inj (Except.ok.inj he)
          refine ⟨[], ?_⟩
          rw [Conn.exec, ho]
          rfl
  | hangUp fd =>
      rw [Conn.handle] at he
      cases hd : destroyFd c with
      | error f => rw [hd] at he; cases he
      | ok c₁ =>
          rw [hd] at he
          obtain ⟨-, rfl⟩ := Prod.mk.inj (Except.ok.inj he)
          refine ⟨[], ?_⟩
          rw [Conn.exec, hd]
          rfl

end Handle

/-! ## Runs -/

section Runs

variable {σ : Type} {N : Nat} {handleCmd : Handler σ} {shared : σ} {l l' : Loop σ} {q : Owner → List (List UInt8)}
  {log : List (Nat × Exchange)}

/-- What is true of a worker between two events. -/
structure Loop.Sound (handleCmd : Handler σ) (N : Nat) (shared : σ) (l : Loop σ) (q : Owner → List (List UInt8))
    (log : List (Nat × Exchange)) : Prop where
  logged : l.session.Logged handleCmd N shared q log
  watched : l.Watched

theorem Loop.Watched.live (h : l.Watched) {fd : Nat} {mask : Events} (hm : l.epoll fd = some mask) :
    l.session.worker.live fd = true := by
  have hmask := (h fd).symm.trans hm
  rw [Conn.mask] at hmask
  split_ifs at hmask with hlive
  exact hlive

/-- An event that is reported is for an open connection, so it is one the worker takes. -/
theorem Loop.Watched.enabled (h : l.Watched) {e : CoreEvent} (hr : l.reports e) :
    (l.session.worker.conn e.fd).enabled e.io ∧ e.io.fd = e.fd := by
  cases e with
  | accept fd => exact ⟨hr, rfl⟩
  | ready fd events recv ct =>
      obtain ⟨⟨mask, hm, -⟩, hct⟩ := hr
      have hlive := h.live hm
      rw [CoreEvent.io, CoreEvent.fd]
      split_ifs with hin hout
      · exact ⟨hlive, rfl⟩
      · exact ⟨⟨hlive, hct (by simpa using hin) hout⟩, rfl⟩
      · exact ⟨hlive, rfl⟩

theorem LoopStep.session (h : l.Watched) {e : CoreEvent} (hs : LoopStep handleCmd l e l') :
    SessionStep handleCmd l.session e.io l'.session := by
  obtain ⟨hr, mask, c, he, rfl⟩ := hs
  obtain ⟨henabled, hfd⟩ := h.enabled hr
  obtain ⟨requests, hexec⟩ := handle_exec he
  refine ⟨_, ⟨?_, requests, c, ?_, ?_⟩, rfl⟩
  · rwa [hfd]
  · rwa [hfd]
  · rw [hfd]

theorem Session.after_worker (s : Session σ) (w : Worker σ) (e : IoEvent) : (s.after w e).worker = w := by
  cases e <;> rfl

theorem Loop.Sound.stays_watched (h : l.Sound handleCmd N shared q log) {e : CoreEvent} (hs : LoopStep handleCmd l e l') :
    l'.Watched := by
  obtain ⟨hr, mask, c, he, rfl⟩ := hs
  intro fd
  show Function.update l.epoll e.fd mask fd
    = ((l.session.after (l.session.worker.putConn e.fd c) e.io).worker.conn fd).mask
  rw [Session.after_worker]
  rcases eq_or_ne fd e.fd with rfl | hne
  · have hself : Queues N l.session.worker.pool (Function.update l.session.worker.ioTable e.fd
        (l.session.worker.ioTable e.fd)) q := by
      rw [Function.update_eq_self]
      exact h.logged.holds.queues
    have hgood : (∃ fd', e.io = .accept fd') ∨ (l.session.worker.conn e.fd).live = true ∧
        (l.session.worker.conn e.fd).Good N l.session.worker.ioTable e.fd q := by
      cases e with
      | accept fd => exact Or.inl ⟨fd, rfl⟩
      | ready fd events recv ct =>
          obtain ⟨⟨mask, hm, -⟩, -⟩ := hr
          have hlive := h.watched.live hm
          exact Or.inr ⟨hlive, hself, h.logged.holds.counted fd, h.logged.holds.pending fd hlive⟩
    rw [h.watched e.fd] at he
    have hmask : mask = c.mask := (handle_mask hgood).ok he
    rw [Function.update_self, hmask]
    simp [Worker.conn, Worker.putConn, Conn.mask]
  · rw [Function.update_of_ne hne, h.watched fd]
    have hconn : ((l.session.worker.putConn e.fd c).conn fd).io = (l.session.worker.conn fd).io ∧
        ((l.session.worker.putConn e.fd c).conn fd).live = (l.session.worker.conn fd).live := by
      simp [Worker.conn, Worker.putConn, hne]
    rw [Conn.mask, Conn.mask, hconn.1, hconn.2]

theorem Loop.Sound.step (h : l.Sound handleCmd N shared q log) {e : CoreEvent} (hs : LoopStep handleCmd l e l') :
    ∃ q' log', l'.Sound handleCmd N shared q' log' := by
  obtain ⟨q', log', hlogged⟩ := h.logged.step (hs.session h.watched)
  exact ⟨q', log', hlogged, h.stays_watched hs⟩

/-! ### Sending -/

/-- The bytes and the buffers that are still to be sent on a descriptor. -/
def Loop.owed (l : Loop σ) (fd : Nat) : Nat :=
  match (l.session.worker.conn fd).outgoing with
  | .ok queued => queued.flatten.length + queued.length
  | .error _ => 0

/-- The descriptor is reported to be writable, and `send` takes something if there is
something in the buffer. -/
def Loop.Sends (fd : Nat) (l : Loop σ) (e : CoreEvent) : Prop :=
  ∃ recv ct, e = .ready fd EPOLLOUT recv ct ∧ (0 < ct ∨ offered l.session.worker.pool (l.session.worker.ioTable fd) = [])

theorem sendChunks_lt {ct : Nat} {cs : List (List UInt8)} (hne : cs ≠ []) (hct : 0 < ct ∨ cs.headD [] = []) :
    (sendChunks ct cs).flatten.length + (sendChunks ct cs).length < cs.flatten.length + cs.length := by
  obtain ⟨c, cs, rfl⟩ := List.exists_cons_of_ne_nil hne
  rw [sendChunks]
  split_ifs with hle
  · rw [List.flatten_cons, List.length_append, List.length_cons]
    omega
  · have hpos : 0 < ct := by
      refine hct.resolve_right fun e => hle ?_
      rw [show c = [] from e]
      exact Nat.zero_le _
    simp only [List.flatten_cons, List.length_append, List.length_cons, List.length_drop]
    omega

theorem Loop.Sound.queues (h : l.Sound handleCmd N shared q log) (fd : Nat) :
    Queues N (l.session.worker.conn fd).pool
      (Function.update l.session.worker.ioTable fd (l.session.worker.conn fd).io) q := by
  rw [show (l.session.worker.conn fd).io = l.session.worker.ioTable fd from rfl, Function.update_eq_self]
  exact h.logged.holds.queues

theorem Loop.Sound.owed_eq (h : l.Sound handleCmd N shared q log) (fd : Nat) :
    l.owed fd = (q (.output fd)).flatten.length + (q (.output fd)).length := by
  rw [Loop.owed, (h.queues fd).outgoing_eq]

/-- Where `EPOLLOUT` is waited for, there is a buffer to send. -/
theorem Loop.Watched.head (h : l.Watched) {fd : Nat} {mask : Events} (hm : l.epoll fd = some mask) :
    mask.epollout = true ↔ (l.session.worker.ioTable fd).outBufHead ≠ none := by
  have hmask := (h fd).symm.trans hm
  rw [Conn.mask] at hmask
  split_ifs at hmask with hlive
  obtain rfl := Option.some.inj hmask
  exact Option.ne_none_iff_isSome.symm

@[simp] theorem Worker.conn_putConn (w : Worker σ) (fd : Nat) (c : Conn σ) : (w.putConn fd c).conn fd = c := by
  simp [Worker.conn, Worker.putConn]

/-- An event at which something is sent. -/
theorem Loop.Sound.sends (h : l.Sound handleCmd N shared q log) {fd : Nat} {e : CoreEvent}
    (hs : Guarded (LoopStep handleCmd) (Loop.Sends fd) l e l') : ∃ q', l'.Sound handleCmd N shared q' log ∧
      l'.session.worker.live fd = true ∧ l'.session.number fd = l.session.number fd ∧ l'.owed fd < l.owed fd := by
  obtain ⟨⟨recv, ct, rfl, hct⟩, hs⟩ := hs
  have hwatched := h.stays_watched hs
  have hstep : SessionStep handleCmd l.session (.output fd ct) l'.session := hs.session h.watched
  obtain ⟨q', hlogged⟩ : ∃ q', l'.session.Logged handleCmd N shared q' log := by
    obtain ⟨w, hw, hafter⟩ := hstep
    rw [hafter]
    exact h.logged.output hw
  obtain ⟨⟨⟨mask, hm, hwithin⟩, -⟩, mask', c, he, rfl⟩ := hs
  have hne : q (.output fd) ≠ [] := fun e =>
    (h.watched.head hm).mp (hwithin.2 rfl) ((h.queues fd).outBufHead_eq_none.mpr e)
  obtain ⟨bp, p, ho, -, hq⟩ := handleOutput_eq (h.queues fd) ct
  have hc : c = { l.session.worker.conn fd with pool := bp, io := p } := by
    rw [show (CoreEvent.ready fd EPOLLOUT recv ct).io = .output fd ct from rfl, Conn.handle] at he
    simp only [CoreEvent.fd, ho, bind, Except.bind] at he
    exact (Prod.mk.inj (Except.ok.inj he)).2.symm
  have hconn : ((l.session.after (l.session.worker.putConn fd c) (.output fd ct)).worker.conn fd) = c := by
    rw [Session.after_worker, Worker.conn_putConn]
  refine ⟨q', ⟨hlogged, hwatched⟩, ?_, rfl, ?_⟩
  · have hlive : ((l.session.after (l.session.worker.putConn fd c) (.output fd ct)).worker.conn fd).live = true := by
      rw [hconn, hc]
      exact h.watched.live hm
    exact hlive
  · have hout : c.outgoing = .ok (sendChunks ct (q (.output fd))) := by
      rw [hc] at hconn ⊢
      rw [Queues.outgoing_eq hq, Function.update_self]
    rw [h.owed_eq, Loop.owed]
    show (match ((l.session.after (l.session.worker.putConn fd c) (.output fd ct)).worker.conn fd).outgoing with
      | .ok queued => queued.flatten.length + queued.length
      | .error _ => 0) < _
    rw [hconn, hout]
    exact sendChunks_lt hne (hct.imp_right fun e => (offered_eq (h.queues fd)).symm.trans e)

/-- A connection that waits to become writable can be served. -/
theorem Loop.Sound.can_send (h : l.Sound handleCmd N shared q log) {fd : Nat} {mask : Events}
    (hm : l.epoll fd = some mask) (hout : mask.epollout = true) (recv : Recv) :
    ∃ ct l', Guarded (LoopStep handleCmd) (Loop.Sends fd) l (.ready fd EPOLLOUT recv ct) l' := by
  obtain ⟨a, ha⟩ := Option.ne_none_iff_exists'.mp ((h.watched.head hm).mp hout)
  obtain ⟨bp, p, ho, -⟩ := handleOutput_eq (h.queues fd) (l.session.worker.pool.base a).size
  obtain ⟨mask', c, hc⟩ : ∃ mask' c, (l.session.worker.conn fd).handle handleCmd (l.epoll fd)
      (.output fd (l.session.worker.pool.base a).size) = .ok (mask', c) := by
    rw [Conn.handle]
    simp only [ho, bind, Except.bind]
    exact ⟨_, _, rfl⟩
  refine ⟨(l.session.worker.pool.base a).size, _, ⟨recv, _, rfl, ?_⟩, ⟨⟨mask, hm, ?_⟩, ?_⟩, mask', c, hc, rfl⟩
  · rw [offered, ha]
    rcases Nat.eq_zero_or_pos (l.session.worker.pool.base a).size with hz | hpos
    · exact Or.inr (List.eq_nil_of_length_eq_zero hz)
    · exact Or.inl hpos
  · exact ⟨fun e => absurd e (by decide), fun _ => hout⟩
  · intro _ _ b hb
    obtain rfl := Option.some.inj (ha.symm.trans hb)
    exact le_refl _

/-- Events at which something is sent, one after the other. -/
theorem Loop.Sound.sends_run {fd : Nat} {events : List CoreEvent}
    (hrun : Run (Guarded (LoopStep handleCmd) (Loop.Sends fd)) l events l') : ∀ {q : Owner → List (List UInt8)},
    l.Sound handleCmd N shared q log → l.session.worker.live fd = true →
    ∃ q', l'.Sound handleCmd N shared q' log ∧ l'.session.worker.live fd = true ∧
      l'.session.number fd = l.session.number fd ∧ events.length + l'.owed fd ≤ l.owed fd := by
  induction hrun with
  | nil l => exact fun h hlive => ⟨_, h, hlive, rfl, by simp⟩
  | cons hs _ ih =>
      intro q h _
      obtain ⟨q₁, h₁, hlive₁, hnum₁, hlt⟩ := h.sends hs
      obtain ⟨q', h', hlive', hnum', hle⟩ := ih h₁ hlive₁
      refine ⟨q', h', hlive', hnum'.trans hnum₁, ?_⟩
      rw [List.length_cons]
      omega

theorem LoopStep.run_session {events : List CoreEvent} (hrun : Run (LoopStep handleCmd) l events l') :
    ∀ {q : Owner → List (List UInt8)} {log : List (Nat × Exchange)}, l.Sound handleCmd N shared q log →
      Run (SessionStep handleCmd) l.session (events.map CoreEvent.io) l'.session ∧
        ∃ q' log', l'.Sound handleCmd N shared q' log' := by
  induction hrun with
  | nil l => exact fun h => ⟨.nil _, _, _, h⟩
  | cons hs _ ih =>
      intro q log h
      obtain ⟨q₁, log₁, h₁⟩ := h.step hs
      obtain ⟨hrun', h'⟩ := ih h₁
      exact ⟨.cons (hs.session h.watched) hrun', h'⟩

end Runs

/-- In every state of a run of `handle_core` the `epoll` set holds exactly the open
connections, and `EPOLLOUT` for exactly those that have something to send; all events
were for open connections, so the run is one of `SessionStep`.  Whatever way an open
connection is now served with `send`, after at most as many events as there are bytes and
buffers queued either every reply to its requests has been sent and it is waited for to
become readable only, or it can be served further. -/
theorem event_loop_sends_all {σ : Type} (handleCmd : Handler σ) {nItems : Nat} (hn : 0 < nItems) (scratch : Scratch)
    (shared : σ) {events : List CoreEvent} {l : Loop σ}
    (hrun : Run (LoopStep handleCmd) (Loop.start nItems scratch shared) events l) :
    Run (SessionStep handleCmd) (Session.start nItems scratch shared) (events.map CoreEvent.io) l.session ∧ l.Watched ∧
    ∃ log : List (Nat × Exchange), Run (Answered handleCmd) shared (log.map Prod.snd) l.session.worker.shared ∧
      ∀ fd, l.session.worker.live fd = true →
        (conversation (l.session.number fd) log).map Exchange.request
          = (serve [] (l.session.received (l.session.number fd))).1 ∧
        ∀ sends l', Run (Guarded (LoopStep handleCmd) (Loop.Sends fd)) l sends l' →
          sends.length + l'.owed fd ≤ l.owed fd ∧
          (l'.session.sent (l.session.number fd) = replies (conversation (l.session.number fd) log) ∧
              l'.epoll fd = some EPOLLIN ∨
            l'.epoll fd = some (EPOLLOUT.or EPOLLIN) ∧ ∀ recv, ∃ ct l'',
              Guarded (LoopStep handleCmd) (Loop.Sends fd) l' (.ready fd EPOLLOUT recv ct) l'') := by
  have hstart : (Loop.start nItems scratch shared).Sound handleCmd nItems shared (fun _ => []) [] :=
    ⟨logged_start hn scratch shared, fun fd => rfl⟩
  obtain ⟨hsession, q, log, h⟩ := LoopStep.run_session hrun hstart
  refine ⟨hsession, h.watched, log, h.logged.run, fun fd hlive => ⟨?_, fun sends l' hsends => ?_⟩⟩
  · rw [(h.logged.current fd hlive).framed]
  · obtain ⟨q', h', hlive', hnum, hle⟩ := Loop.Sound.sends_run hsends h hlive
    refine ⟨hle, ?_⟩
    have hmask : l'.epoll fd = some ⟨true, (l'.session.worker.ioTable fd).outBufHead.isSome⟩ := by
      rw [h'.watched fd, Conn.mask]
      exact if_pos hlive'
    cases hhead : (l'.session.worker.ioTable fd).outBufHead with
    | none =>
        rw [hhead] at hmask
        refine Or.inl ⟨?_, hmask⟩
        have hflows := (h'.logged.current fd hlive').flows
        rw [(h'.queues fd).outBufHead_eq_none.mp hhead, List.flatten_nil, List.append_nil, hnum] at hflows
        exact hflows
    | some a =>
        rw [hhead] at hmask
        exact Or.inr ⟨hmask, h'.can_send hmask rfl⟩

/-- A reply of which a part has been sent. -/
def partlySent : List CoreEvent :=
  [.accept 7, .ready 7 EPOLLIN (.bytes ⟨ascii "so\r\n", by decide, by decide⟩) 0, .ready 7 EPOLLOUT .again 3]

theorem event_loop_sends_all_partlySent : ∃ l, 0 < 4 ∧
    Run (LoopStep refuse) (Loop.start 4 ⟨fun _ => 0, fun _ => 0⟩ ()) partlySent l ∧ l.Watched ∧
    l.epoll 7 = some (EPOLLOUT.or EPOLLIN) ∧ l.owed 7 = 5 := by
  have hrun : ∃ l, Run (LoopStep refuse) (Loop.start 4 ⟨fun _ => 0, fun _ => 0⟩ ()) partlySent l ∧
      l.epoll 7 = some (EPOLLOUT.or EPOLLIN) ∧ l.owed 7 = 5 := by
    refine ⟨_, .cons ⟨rfl, _, _, rfl, rfl⟩ (.cons ⟨⟨⟨_, rfl, ?_⟩, ?_⟩, _, _, rfl, rfl⟩
      (.cons ⟨⟨⟨_, rfl, ?_⟩, ?_⟩, _, _, rfl, rfl⟩ (.nil _))), rfl, rfl⟩
    · exact ⟨fun _ => rfl, fun e => absurd e (by decide)⟩
    · exact fun e => absurd e (by decide)
    · exact ⟨fun e => absurd e (by decide), fun _ => rfl⟩
    · intro _ _
      decide
  obtain ⟨l, hl, hmask, howed⟩ := hrun
  obtain ⟨-, hwatched, -⟩ := event_loop_sends_all refuse (by decide : 0 < 4) _ _ hl
  exact ⟨l, by decide, hl, hwatched, hmask, howed⟩

end Tstdb
