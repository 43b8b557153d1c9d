/-
# `Tstdb.Server.Dialogue` — every connection is answered request by request

A worker serves its connections in whatever order their events come: a descriptor is
accepted, a chunk is received, `send` takes a part of a buffer, a client hangs up.
`Session` records beside the worker what has gone over each connection, numbered as
they were accepted (descriptors are used again).  On every run the requests are those
read from what was received, each has been passed to `handle_cmd` once, one after the
other on one shared state, and what has been sent on a connection are the answers to
its own requests, in order and without a byte lost, doubled or sent to another client
(`worker_answers_in_order`).
-/
import Mathlib
import Tstdb.Lib.Runs
import Tstdb.Lib.CText
import Tstdb.Lib.Bytes
import Tstdb.Lib.Chains
import Tstdb.Lib.Outcome
import Tstdb.Tst.Arena
import Tstdb.Tst.Runs
import Tstdb.Server.Index
import Tstdb.Server.Store
import Tstdb.Server.Pool
import Tstdb.Server.Buffers
import Tstdb.Server.Framing
import Tstdb.Server.Output
import Tstdb.Server.Stream

namespace Tstdb

open CText Bytes Chains Outcome Runs

/-- The two arrays hold the request. -/
structure Request.LiesIn (request : Request) (s : Scratch) : Prop where
  header : s.headBuf.read 0 request.header.length = request.header
  body : s.bodyBuf.read 0 request.body.length = request.body

/-- A request and what `handle_cmd` did about it. -/
structure Exchange where
  request : Request
  answer : Answer

/-- `handle_cmd` is called with the request in its arrays, whatever else lies there. -/
def Answered {σ : Type} (handleCmd : Handler σ) (shared : σ) (x : Exchange) (shared' : σ) : Prop :=
  ∃ s s', x.request.LiesIn s ∧
    handleCmd s x.request.header.length x.request.body.length shared = .ok (x.answer, s', shared')

/-- What an answer puts into the output. -/
def Answer.bytes : Answer → List UInt8
  | .sent chunks => chunks.flatten
  | .quit => []

/-- All that some exchanges put into the output. -/
def replies (l : List Exchange) : List UInt8 := l.flatMap fun x => x.answer.bytes

theorem replies_append (l l' : List Exchange) : replies (l ++ l') = replies l ++ replies l' := List.flatMap_append

/-! ## One connection -/

section Conn

variable {σ : Type} {N : Nat} {handleCmd : Handler σ} {io : Nat → IoData} {fd : Nat} {c : Conn σ}
  {q : Owner → List (List UInt8)}

/-- The chunks that wait to be sent. -/
def Conn.outgoing (c : Conn σ) : Except Halt (List (List UInt8)) := buffersFrom c.pool.nItems c.pool c.io.outBufHead

theorem Queues.outgoing_eq (h : Queues N c.pool (Function.update io fd c.io) q) : c.outgoing = .ok (q (.output fd)) := by
  obtain ⟨own, hl, hq⟩ := h
  have hc := hl.owned.chain (.output fd)
  rw [heads_output] at hc
  rw [Conn.outgoing, Tstdb.buffersFrom_eq _ _ _ hc (hl.length_le _), hq _ (by simp)]

/-- The connection has been destroyed, or the bytes are queued behind what it had to send. -/
def Conn.Got (c : Conn σ) (queued : List (List UInt8)) (answer : Answer) (c' : Conn σ) : Prop :=
  answer = .quit ∧ c'.live = false ∨
    answer ≠ .quit ∧ c'.live = c.live ∧ ∃ os, c'.outgoing = .ok os ∧ os.flatten = queued.flatten ++ answer.bytes

theorem perform_got (h : Queues N c.pool (Function.update io fd c.io) q) (answer : Answer) :
    Ends (fun _ => True) (fun c' => c'.shared = c.shared ∧ c.Got (q (.output fd)) answer c') (answer.perform c) := by
  cases answer with
  | sent chunks =>
      refine ((appendAll_ends chunks c.pool c.io q h).excuse fun _ _ => trivial).bind ?_
      rintro ⟨bp, p⟩ ⟨-, os, hflat, hq⟩
      have hout : Conn.outgoing { c with pool := bp, io := p } = .ok os := by
        rw [Queues.outgoing_eq hq, Function.update_self]
      exact ⟨rfl, Or.inr ⟨by simp, rfl, os, hout, hflat⟩⟩
  | quit =>
      obtain ⟨bp, p, e, -, -, -⟩ := destroyIoData_eq h
      have he : destroyFd c = .ok { c with pool := bp, io := p, live := false } := by
        simp only [destroyFd, e, bind, Except.bind]
        rfl
      show Ends _ _ (destroyFd c)
      rw [he]
      exact ⟨rfl, Or.inl ⟨rfl, rfl⟩⟩

theorem Conn.Ready.liesIn {request : Request} {n : Nat} (h : c.Ready N io fd q n request) :
    request.LiesIn c.scratch ∧ c.io.headerLen = request.header.length ∧ c.io.bodyLen = request.body.length := by
  have hhead : c.io.headerLen = request.header.length := by rw [← h.header, Buf.length_read]
  have hbody : c.io.bodyLen.toNat = request.body.length := by rw [← h.bytes, Buf.length_read]
  refine ⟨⟨hhead ▸ h.header, hbody ▸ h.bytes⟩, hhead, ?_⟩
  rw [← hbody, Int.toNat_of_nonneg h.body]

theorem passOn_got {request : Request} {n : Nat} (h : c.Ready N io fd q n request) :
    Ends (fun _ => True) (fun r => r.1 = some request ∧ ∃ answer,
      Answered handleCmd c.shared ⟨request, answer⟩ r.2.shared ∧ c.Got (q (.output fd)) answer r.2)
      (passOn handleCmd c request) := by
  obtain ⟨hlies, hhead, hbody⟩ := h.liesIn
  unfold passOn
  cases hh : handleCmd c.scratch c.io.headerLen c.io.bodyLen c.shared with
  | error f => exact trivial
  | ok r =>
      obtain ⟨answer, s, shared⟩ := r
      rw [hhead, hbody] at hh
      refine (@perform_got _ N io fd { c with scratch := s, shared := shared } q h.queues answer).bind ?_
      rintro c' ⟨hshared, hgot⟩
      -- `fix_buf_len` leaves the output alone
      refine ⟨rfl, answer, ⟨c.scratch, s, hlies, ?_⟩, hgot⟩
      rw [show c'.shared = shared from hshared]
      exact hh

/-- One round of the loop: `handle_cmd` is called once for the request, and what it
answers goes to this connection. -/
theorem dispatch_got (h : c.Good N io fd q) :
    Ends (fun _ => True) (fun r => match r.1 with
      | none => r.2.shared = c.shared ∧ r.2.outgoing = .ok (q (.output fd))
      | some request => ∃ answer, Answered handleCmd c.shared ⟨request, answer⟩ r.2.shared ∧
          c.Got (q (.output fd)) answer r.2) (dispatch handleCmd c) := by
  obtain ⟨r, f, cs, hnext⟩ : ∃ r f cs, c.io.framing.next (q (.input fd)) = (r, f, cs) := ⟨_, _, _, rfl⟩
  obtain ⟨bp, p, s, hreads⟩ := @dispatch_reads _ N handleCmd io fd c q h _ _ _ hnext
  cases r with
  | none =>
      obtain ⟨he, -, -, hgood⟩ := hreads
      rw [he]
      exact ⟨rfl, hgood.queues.outgoing_eq⟩
  | some request =>
      obtain ⟨he, -, hready⟩ := hreads
      rw [he]
      refine (passOn_got hready).imp ?_
      rintro ⟨r, c'⟩ ⟨hr, answer, hanswered, hgot⟩
      obtain rfl : r = some request := hr
      refine ⟨answer, hanswered, ?_⟩
      rwa [Function.update_of_ne (by simp)] at hgot

/-- The exchanges of some rounds, and what they leave in the output if the connection
is still there. -/
def Conn.Exchanged (handleCmd : Handler σ) (c : Conn σ) (queued : List (List UInt8)) (served : List Exchange)
    (c' : Conn σ) : Prop :=
  Run (Answered handleCmd) c.shared served c'.shared ∧
    (c'.live = true → c.live = true ∧ ∃ os, c'.outgoing = .ok os ∧ os.flatten = queued.flatten ++ replies served)

theorem dispatchLoop_got : ∀ (n : Nat) (c : Conn σ) (q : Owner → List (List UInt8)), c.Good N io fd q →
    Ends (fun _ => True) (fun r => ∃ served, served.map Exchange.request = r.1 ∧
      c.Exchanged handleCmd (q (.output fd)) served r.2) (dispatchLoop handleCmd n c) := by
  intro n
  induction n with
  | zero => exact fun c q h => trivial
  | succ n ih =>
      intro c q h
      unfold dispatchLoop
      refine (((dispatch_ends h).and (dispatch_got h)).excuse fun _ _ => trivial).bind ?_
      rintro ⟨request?, c₁⟩ ⟨⟨cs, os, hgood, -, -, hcase⟩, hgot⟩
      cases request? with
      | none =>
          rcases hcase with ⟨hlive₁, -⟩ | ⟨_, hsome, -⟩
          · exact ⟨[], rfl, hgot.1 ▸ .nil _, fun hlive => ⟨hlive₁ ▸ hlive, _, hgot.2, by simp [replies]⟩⟩
          · cases hsome
      | some request =>
          obtain ⟨answer, hanswered, hgot⟩ := hgot
          refine (ih c₁ _ hgood).bind ?_
          rintro ⟨requests, c₂⟩ ⟨served, hserved, hrun, hout⟩
          refine ⟨⟨request, answer⟩ :: served, by rw [List.map_cons, hserved], .cons hanswered hrun, fun hlive => ?_⟩
          obtain ⟨hlive₁, os₂, hos₂, hflat₂⟩ := hout hlive
          have hos := hgood.queues.outgoing_eq
          rw [withQueues_output] at hos hflat₂
          rcases hgot with ⟨-, hdead⟩ | ⟨-, hsame, os₁, hos₁, hflat₁⟩
          · exact absurd (hlive₁.symm.trans hdead) (by simp)
          · obtain rfl : os = os₁ := Except.ok.inj (hos.symm.trans hos₁)
            refine ⟨hsame ▸ hlive₁, os₂, hos₂, ?_⟩
            rw [hflat₂, hflat₁, replies, replies, List.flatMap_cons, List.append_assoc]

/-- After a receive error nothing is passed on. -/
theorem handleInput_failed (c : Conn σ) : Ends (fun _ => True)
    (fun r => r.1 = [] ∧ r.2.shared = c.shared ∧ r.2.live = false) (handleInput handleCmd c .failed) := by
  refine Ends.bind (ends_trivial (appendRecvData c.pool c.io .failed)) ?_
  rintro ⟨bp, p⟩ -
  have hdestroy : Ends (fun _ => True) (fun c' => c'.shared = c.shared ∧ c'.live = false)
      (destroyFd { c with pool := bp, io := p }) := by
    refine Ends.bind (ends_trivial (destroyIoData bp p)) ?_
    rintro ⟨bp', p'⟩ -
    exact ⟨rfl, rfl⟩
  exact hdestroy.bind fun c' h => ⟨rfl, h⟩

/-- The requests of a receive event are passed to `handle_cmd` one after the other, and
the connection gets the answers. -/
theorem handleInput_got (h : c.Good N io fd q) (recv : Recv) :
    Ends (fun _ => True) (fun r => ∃ served, served.map Exchange.request = r.1 ∧
      c.Exchanged handleCmd (q (.output fd)) served r.2) (handleInput handleCmd c recv) := by
  rcases Classical.em (recv = .failed) with rfl | hr
  · refine (handleInput_failed c).imp ?_
    rintro ⟨requests, c'⟩ ⟨hnil, hshared, hdead⟩
    obtain rfl : requests = [] := hnil
    exact ⟨[], rfl, hshared ▸ .nil _, fun hlive => absurd (hlive.symm.trans hdead) (by simp)⟩
  · have hreceived := h.received recv
    cases he : appendRecvData c.pool c.io recv with
    | error e =>
        rw [handleInput, he]
        exact trivial
    | ok r =>
        obtain ⟨bp, p⟩ := r
        rw [he] at hreceived
        rw [handleInput_loop hreceived.1 he hr]
        have hloop := @dispatchLoop_got _ N handleCmd io fd
          ((Function.update q (.input fd) (q (.input fd) ++ [recv.got]) (.input fd)).flatten.length + 1) _ _ hreceived.1
        rwa [Function.update_of_ne (by simp)] at hloop

/-- What a `recv` puts behind the queue; an empty buffer where it found nothing. -/
def Recv.pieces : Recv → List (List UInt8)
  | .bytes c => [c.bytes]
  | .again => [[]]
  | .failed => []

theorem Recv.pieces_eq {recv : Recv} (h : recv ≠ .failed) : recv.pieces = [recv.got] := by
  cases recv with
  | bytes chunk => rfl
  | again => rfl
  | failed => exact absurd rfl h

/-- What is passed on is taken off the queue and what was received; if the connection is
destroyed, not all of it. -/
theorem handleInput_taken (h : c.Good N io fd q) (hk : c.io.framing.Kept (q (.input fd))) (hlive : c.live = true)
    (recv : Recv) :
    Ends (fun _ => True) (fun r => ∃ cs os, Queues N r.2.pool (Function.update io fd r.2.io) (withQueues q fd cs os) ∧
      r.2.io.inBufLen = (cs.flatten.length : Int) ∧ r.1 <+: (serve (q (.input fd)) recv.pieces).1 ∧
      (r.2.live = false ∧ cs = [] ∧ os = [] ∨
        r.2.live = true ∧ r.2.io.framing.Pending cs ∧ r.2.io.framing.Kept cs ∧
          (r.1, cs) = serve (q (.input fd)) recv.pieces)) (handleInput handleCmd c recv) := by
  rcases Classical.em (recv = .failed) with rfl | hr
  · refine (((handleInput_ends h .failed).and (handleInput_failed c)).excuse fun _ _ => trivial).imp ?_
    rintro ⟨requests, c'⟩ ⟨⟨cs, os, hq, hlen, -, hcase⟩, hnil, -, hdead⟩
    rw [show requests = [] from hnil]
    refine ⟨cs, os, hq, hlen, List.nil_prefix, ?_⟩
    rcases hcase with ⟨hsame, -⟩ | ⟨-, -, hcs, hos⟩
    · exact absurd (hlive.symm.trans (hsame.symm.trans hdead)) (by simp)
    · exact Or.inl ⟨hdead, hcs, hos⟩
  · obtain ⟨f', hrun, hk'⟩ := Framing.Kept.run ((q (.input fd) ++ [recv.got]).flatten.length + 1) (hk.append recv.got)
    have hserve : serve (q (.input fd)) recv.pieces
        = drain ((q (.input fd) ++ [recv.got]).flatten.length + 1) (q (.input fd) ++ [recv.got]) := by
      rw [Recv.pieces_eq hr, serve_cons, serve, List.append_nil]
    refine ((handleInput_ends h recv).excuse fun _ _ => trivial).imp ?_
    rintro ⟨requests, c'⟩ ⟨cs, os, hq, hlen, -, hcase⟩
    rw [hrun] at hcase
    rw [hserve]
    refine ⟨cs, os, hq, hlen, ?_⟩
    rcases hcase with ⟨hsame, hpend, he⟩ | ⟨hpre | hfail, hdead, hcs, hos⟩
    · obtain ⟨rfl, he'⟩ := Prod.mk.inj he
      obtain ⟨rfl, rfl⟩ := Prod.mk.inj he'
      exact ⟨List.prefix_rfl, Or.inr ⟨hsame.trans hlive, hpend, hk', rfl⟩⟩
    · exact ⟨hpre.1, Or.inl ⟨hdead, hcs, hos⟩⟩
    · exact absurd hfail hr

end Conn

/-! ## All connections -/

/-- A worker, and what has gone over its connections.  They are numbered as they were
accepted, since a descriptor is used again after it has been closed. -/
structure Session (σ : Type) where
  worker : Worker σ
  /-- The connections there have been. -/
  opened : Nat
  /-- The connection of a descriptor. -/
  number : Nat → Nat
  received : Nat → List (List UInt8)
  sent : Nat → List UInt8

def Session.start {σ : Type} (nItems : Nat) (scratch : Scratch) (shared : σ) : Session σ :=
  ⟨Worker.start nItems scratch shared, 0, fun _ => 0, fun _ => [], fun _ => []⟩

/-- What an event has moved, when it leaves the given worker. -/
def Session.after {σ : Type} (s : Session σ) (w : Worker σ) : IoEvent → Session σ
  | .accept fd => { s with worker := w, opened := s.opened + 1, number := Function.update s.number fd s.opened }
  | .input fd recv =>
      { s with
        worker := w
        received := Function.update s.received (s.number fd) (s.received (s.number fd) ++ recv.pieces) }
  | .output fd ct =>
      { s with
        worker := w
        sent := Function.update s.sent (s.number fd)
          (s.sent (s.number fd) ++ (offered s.worker.pool (s.worker.ioTable fd)).take ct) }
  | .hangUp _ => { s with worker := w }

def SessionStep {σ : Type} (handleCmd : Handler σ) (s : Session σ) (e : IoEvent) (s' : Session σ) : Prop :=
  ∃ w, WorkerStep handleCmd s.worker e w ∧ s' = s.after w e

/-- The entries of one connection. -/
def conversation {α : Type} (n : Nat) (log : List (Nat × α)) : List α :=
  (log.filter fun x => x.1 = n).map Prod.snd

theorem conversation_cons {α : Type} (n m : Nat) (x : α) (log : List (Nat × α)) :
    conversation n ((m, x) :: log) = if m = n then x :: conversation n log else conversation n log := by
  rcases eq_or_ne m n with rfl | hne
  · rw [if_pos rfl, conversation, List.filter_cons_of_pos (by simp)]
    rfl
  · rw [if_neg hne, conversation, List.filter_cons_of_neg (by simpa using hne)]
    rfl

theorem conversation_append {α : Type} (n m : Nat) (log : List (Nat × α)) (served : List α) :
    conversation n (log ++ served.map (Prod.mk m)) = conversation n log ++ if n = m then served else [] := by
  have hserved : conversation n (served.map (Prod.mk m)) = if n = m then served else [] := by
    rw [conversation, List.filter_map]
    rcases eq_or_ne n m with rfl | hne
    · rw [if_pos rfl, List.map_map, List.filter_eq_self.mpr fun x _ => by simp]
      exact List.map_id _
    · rw [if_neg hne, List.filter_eq_nil_iff.mpr fun x _ => by simpa using hne.symm]
      rfl
  rw [← hserved]
  simp only [conversation, List.filter_append, List.map_append]

section Session

variable {σ : Type} {N : Nat} {handleCmd : Handler σ} {shared : σ} {s : Session σ} {q : Owner → List (List UInt8)}
  {log : List (Nat × Exchange)}

/-- What holds of a connection that is open: what was received and not passed on is
queued, and so is what was answered and not sent. -/
structure Session.Current (s : Session σ) (q : Owner → List (List UInt8)) (log : List (Nat × Exchange)) (fd : Nat) :
    Prop where
  known : s.number fd < s.opened
  kept : (s.worker.ioTable fd).framing.Kept (q (.input fd))
  framed : serve [] (s.received (s.number fd)) = ((conversation (s.number fd) log).map Exchange.request, q (.input fd))
  flows : s.sent (s.number fd) ++ (q (.output fd)).flatten = replies (conversation (s.number fd) log)

/-- The exchanges of a session so far. -/
structure Session.Logged (handleCmd : Handler σ) (N : Nat) (shared : σ) (s : Session σ) (q : Owner → List (List UInt8))
    (log : List (Nat × Exchange)) : Prop where
  holds : s.worker.Holds N q
  run : Run (Answered handleCmd) shared (log.map Prod.snd) s.worker.shared
  apart : ∀ fd fd', s.worker.live fd = true → s.worker.live fd' = true → s.number fd = s.number fd' → fd = fd'
  unused : ∀ n, s.opened ≤ n → conversation n log = [] ∧ s.received n = [] ∧ s.sent n = []
  asked : ∀ n, (conversation n log).map Exchange.request <+: (serve [] (s.received n)).1
  told : ∀ n, s.sent n <+: replies (conversation n log)
  current : ∀ fd, s.worker.live fd = true → s.Current q log fd

theorem logged_start {nItems : Nat} (hn : 0 < nItems) (scratch : Scratch) (shared : σ) :
    (Session.start nItems scratch shared).Logged handleCmd nItems shared (fun _ => []) [] :=
  ⟨holds_start hn scratch shared, .nil _, fun _ _ h => absurd h (by simp [Session.start, Worker.start]),
    fun _ _ => ⟨rfl, rfl, rfl⟩, fun _ => List.nil_prefix, fun _ => List.nil_prefix,
    fun _ h => absurd h (by simp [Session.start, Worker.start])⟩

/-- A new connection has a number that nothing has gone over. -/
theorem Session.Logged.accepted (h : s.Logged handleCmd N shared q log) {fd : Nat} {w : Worker σ}
    (hs : WorkerStep handleCmd s.worker (.accept fd) w) :
    (s.after w (.accept fd)).Logged handleCmd N shared q log := by
  obtain ⟨he, requests, c, hexec, rfl⟩ := hs
  have hfd : s.worker.live fd = false := he
  obtain ⟨hgood, hin, hout⟩ := h.holds.accepted hfd
  obtain rfl : { s.worker.conn fd with io := allocIoData (s.worker.ioTable fd), live := true } = c :=
    congrArg Prod.snd (Except.ok.inj hexec)
  have hholds : (s.worker.putConn fd { s.worker.conn fd with io := allocIoData (s.worker.ioTable fd), live := true }).Holds
      N q := by
    have hput := @Worker.Holds.putConn _ N s.worker q
      { s.worker.conn fd with io := allocIoData (s.worker.ioTable fd), live := true } fd _ _ h.holds
      (by rw [withQueues_self]; exact hgood.queues) hgood.counted (fun _ => hgood.pending) fun hl => by cases hl
    rwa [withQueues_self] at hput
  obtain ⟨hconv, hrec, hsent⟩ := h.unused s.opened (le_refl _)
  have hother : ∀ fd', fd' ≠ fd → ∀ c, (s.worker.putConn fd c).live fd' = true → s.worker.live fd' = true := by
    intro fd' hne c hl
    simpa [Worker.putConn, hne] using hl
  refine ⟨hholds, h.run, fun fd₁ fd₂ hl₁ hl₂ he => ?_, fun n hn => h.unused n (Nat.le_of_succ_le hn), h.asked, h.told,
    fun fd' hl => ?_⟩
  · rcases eq_or_ne fd₁ fd with h₁ | h₁ <;> rcases eq_or_ne fd₂ fd with h₂ | h₂
    · exact h₁.trans h₂.symm
    · have hlt := (h.current fd₂ (hother fd₂ h₂ _ hl₂)).known
      simp only [Session.after, h₁, Function.update_self, Function.update_of_ne h₂] at he
      omega
    · have hlt := (h.current fd₁ (hother fd₁ h₁ _ hl₁)).known
      simp only [Session.after, h₂, Function.update_self, Function.update_of_ne h₁] at he
      omega
    · simp only [Session.after, Function.update_of_ne h₁, Function.update_of_ne h₂] at he
      exact h.apart fd₁ fd₂ (hother fd₁ h₁ _ hl₁) (hother fd₂ h₂ _ hl₂) he
  · rcases eq_or_ne fd' fd with rfl | hne
    · refine ⟨?_, ?_, ?_, ?_⟩ <;> simp only [Session.after, IoEvent.fd, Worker.putConn, Function.update_self]
      · exact Nat.lt_succ_self _
      · exact Framing.kept_fresh _ _
      · rw [hconv, hrec, hin]
        rfl
      · rw [hconv, hsent, hout]
        rfl
    · obtain ⟨hknown, hkept, hframed, hflows⟩ := h.current fd' (hother fd' hne _ hl)
      refine ⟨?_, ?_, ?_, ?_⟩ <;> simp only [Session.after, IoEvent.fd, Worker.putConn, Function.update_of_ne hne]
      · exact Nat.lt_succ_of_lt hknown
      · exact hkept
      · exact hframed
      · exact hflows

/-- An event of an open connection moves bytes on it, and the exchanges it brings are its own. -/
theorem Session.Logged.moved (h : s.Logged handleCmd N shared q log) {fd : Nat} (hfd : s.worker.live fd = true)
    {c : Conn σ} {cs os : List (List UInt8)} (rec : List (List UInt8)) (snt : List UInt8) (served : List Exchange)
    (hholds : (s.worker.putConn fd c).Holds N (withQueues q fd cs os))
    (hrun : Run (Answered handleCmd) s.worker.shared served c.shared)
    (hasked : (conversation (s.number fd) log ++ served).map Exchange.request <+: (serve [] rec).1)
    (htold : snt <+: replies (conversation (s.number fd) log ++ served))
    (hlive : c.live = true → c.io.framing.Kept cs ∧
      serve [] rec = ((conversation (s.number fd) log ++ served).map Exchange.request, cs) ∧
      snt ++ os.flatten = replies (conversation (s.number fd) log ++ served)) :
    Session.Logged handleCmd N shared
      { s with
        worker := s.worker.putConn fd c
        received := Function.update s.received (s.number fd) rec
        sent := Function.update s.sent (s.number fd) snt }
      (withQueues q fd cs os) (log ++ served.map (Prod.mk (s.number fd))) := by
  have hown : conversation (s.number fd) (log ++ served.map (Prod.mk (s.number fd)))
      = conversation (s.number fd) log ++ served := by rw [conversation_append, if_pos rfl]
  have hother : ∀ n, n ≠ s.number fd →
      conversation n (log ++ served.map (Prod.mk (s.number fd))) = conversation n log := by
    intro n hn
    rw [conversation_append, if_neg hn, List.append_nil]
  have hwas : ∀ fd', (s.worker.putConn fd c).live fd' = true → s.worker.live fd' = true := by
    intro fd' hl
    rcases eq_or_ne fd' fd with rfl | hne
    · exact hfd
    · simpa [Worker.putConn, hne] using hl
  refine ⟨hholds, ?_, fun fd₁ fd₂ hl₁ hl₂ he => h.apart fd₁ fd₂ (hwas _ hl₁) (hwas _ hl₂) he, fun n hn => ?_, fun n => ?_,
    fun n => ?_, fun fd' hl => ?_⟩
  · rw [List.map_append, List.map_map]
    refine h.run.append ?_
    rwa [show served.map (Prod.snd ∘ Prod.mk (s.number fd)) = served from List.map_id _]
  · have hne : n ≠ s.number fd := fun e => by
      have hlt := (h.current fd hfd).known
      have hle : s.opened ≤ n := hn
      omega
    rw [hother n hne]
    simp only [Function.update_of_ne hne]
    exact h.unused n hn
  · rcases eq_or_ne n (s.number fd) with rfl | hne
    · simp only [Function.update_self]
      rwa [hown]
    · simp only [Function.update_of_ne hne]
      rw [hother n hne]
      exact h.asked n
  · rcases eq_or_ne n (s.number fd) with rfl | hne
    · simp only [Function.update_self]
      rwa [hown]
    · simp only [Function.update_of_ne hne]
      rw [hother n hne]
      exact h.told n
  · rcases eq_or_ne fd' fd with rfl | hne
    · obtain ⟨hkept, hframed, hflows⟩ := hlive (by simpa [Worker.putConn] using hl)
      refine ⟨(h.current fd' hfd).known, ?_, ?_, ?_⟩
      · simpa [Worker.putConn] using hkept
      · simp only [Function.update_self, withQueues_input]
        rwa [hown]
      · simp only [Function.update_self, withQueues_output]
        rwa [hown]
    · have hlive' := hwas fd' hl
      have hnum : s.number fd' ≠ s.number fd := fun e => hne (h.apart fd' fd hlive' hfd e)
      obtain ⟨hknown, hkept, hframed, hflows⟩ := h.current fd' hlive'
      refine ⟨hknown, ?_, ?_, ?_⟩
      · simpa [Worker.putConn, withQueues, hne] using hkept
      · simp only [Function.update_of_ne hnum]
        rw [hother _ hnum]
        simpa [withQueues, hne] using hframed
      · simp only [Function.update_of_ne hnum]
        rw [hother _ hnum]
        simpa [withQueues, hne] using hflows

theorem Session.Logged.input (h : s.Logged handleCmd N shared q log) {fd : Nat} {recv : Recv} {w : Worker σ}
    (hs : WorkerStep handleCmd s.worker (.input fd recv) w) :
    ∃ q' log', (s.after w (.input fd recv)).Logged handleCmd N shared q' log' := by
  obtain ⟨he, requests, c, hexec, rfl⟩ := hs
  have hfd : s.worker.live fd = true := he
  obtain ⟨hknown, hkept, hframed, hflows⟩ := h.current fd hfd
  have hself : Queues N s.worker.pool (Function.update s.worker.ioTable fd (s.worker.ioTable fd)) q := by
    rw [Function.update_eq_self]
    exact h.holds.queues
  have hgood : (s.worker.conn fd).Good N s.worker.ioTable fd q := ⟨hself, h.holds.counted fd, h.holds.pending fd hfd⟩
  obtain ⟨cs, os, hq, hlen, hpre, hcase⟩ := (handleInput_taken hgood hkept hfd recv).ok hexec
  obtain ⟨served, hserved, hrun, hout⟩ := (handleInput_got hgood recv).ok hexec
  simp only at hq hlen hpre hcase hserved hrun hout
  have happend := @serve_append (s.received (s.number fd)) [] recv.pieces
  rw [hframed] at happend
  have hholds : (s.worker.putConn fd c).Holds N (withQueues q fd cs os) := by
    refine h.holds.putConn hq hlen (fun hl => ?_) fun hl => ?_
    · rcases hcase with ⟨hdead, -⟩ | ⟨-, hpend, -⟩
      · exact absurd (hl.symm.trans hdead) (by simp)
      · exact hpend
    · rcases hcase with ⟨-, hcs, hos⟩ | ⟨hlive, -⟩
      · exact ⟨hcs, hos⟩
      · exact absurd (hl.symm.trans hlive) (by simp)
  have hmoved := h.moved hfd (s.received (s.number fd) ++ recv.pieces) (s.sent (s.number fd)) served hholds hrun ?_ ?_
    fun hl => ?_
  · rw [Function.update_eq_self] at hmoved
    exact ⟨_, _, hmoved⟩
  · rw [happend, List.map_append, hserved]
    exact (List.prefix_append_right_inj _).mpr hpre
  · rw [replies_append]
    exact (h.told _).trans (List.prefix_append _ _)
  · obtain ⟨-, os', hos', hflat⟩ := hout hl
    have hos : c.outgoing = .ok os := by rw [hq.outgoing_eq, withQueues_output]
    obtain rfl : os = os' := Except.ok.inj (hos.symm.trans hos')
    rcases hcase with ⟨hdead, -⟩ | ⟨-, -, hkept', hserve⟩
    · exact absurd (hl.symm.trans hdead) (by simp)
    · refine ⟨hkept', ?_, ?_⟩
      · rw [happend, ← hserve, List.map_append, hserved]
      · rw [hflat, replies_append, ← hflows, List.append_assoc]

theorem Session.Logged.output (h : s.Logged handleCmd N shared q log) {fd ct : Nat} {w : Worker σ}
    (hs : WorkerStep handleCmd s.worker (.output fd ct) w) :
    ∃ q', (s.after w (.output fd ct)).Logged handleCmd N shared q' log := by
  obtain ⟨he, requests, c, hexec, rfl⟩ := hs
  have hfd : s.worker.live fd = true := he.1
  obtain ⟨hknown, hkept, hframed, hflows⟩ := h.current fd hfd
  have hself : Queues N s.worker.pool (Function.update s.worker.ioTable fd (s.worker.ioTable fd)) q := by
    rw [Function.update_eq_self]
    exact h.holds.queues
  obtain ⟨bp, p, e, hsame, hq⟩ := handleOutput_eq hself ct
  have hc : { s.worker.conn fd with pool := bp, io := p } = c := by
    have hx : (handleOutput s.worker.pool (s.worker.ioTable fd) ct >>=
        fun r => pure ([], { s.worker.conn fd with pool := r.1, io := r.2 })) = .ok (requests, c) := hexec
    rw [e] at hx
    exact congrArg Prod.snd (Except.ok.inj hx)
  subst hc
  have hframe : p.framing = (s.worker.ioTable fd).framing := by
    rw [IoData.framing, hsame.headerLen, hsame.bodyLen, hsame.isWriteCmd]
    rfl
  have hholds : (s.worker.putConn fd { s.worker.conn fd with pool := bp, io := p }).Holds N (withQueues q fd _ _) :=
    h.holds.putConn (update_output _ ▸ hq) (hsame.inBufLen.trans (h.holds.counted fd))
      (fun _ => by rw [hframe]; exact h.holds.pending fd hfd) fun hl => absurd (hl.symm.trans hfd) (by simp)
  have hsend : s.sent (s.number fd) ++ (offered s.worker.pool (s.worker.ioTable fd)).take ct
      ++ (sendChunks ct (q (.output fd))).flatten = replies (conversation (s.number fd) log) := by
    rw [List.append_assoc, offered_eq hself, flatten_sendChunks, hflows]
  have hmoved := h.moved hfd (s.received (s.number fd))
    (s.sent (s.number fd) ++ (offered s.worker.pool (s.worker.ioTable fd)).take ct) [] hholds (.nil _) ?_ ?_ fun hl => ?_
  · rw [Function.update_eq_self, List.map_nil, List.append_nil] at hmoved
    exact ⟨_, hmoved⟩
  · rw [List.append_nil]
    exact h.asked _
  · rw [List.append_nil, ← hsend]
    exact List.prefix_append _ _
  · rw [List.append_nil]
    exact ⟨by rw [hframe]; exact hkept, hframed, hsend⟩

theorem Session.Logged.hangUp (h : s.Logged handleCmd N shared q log) {fd : Nat} {w : Worker σ}
    (hs : WorkerStep handleCmd s.worker (.hangUp fd) w) :
    ∃ q', (s.after w (.hangUp fd)).Logged handleCmd N shared q' log := by
  obtain ⟨he, requests, c, hexec, rfl⟩ := hs
  have hfd : s.worker.live fd = true := he
  have hself : Queues N s.worker.pool (Function.update s.worker.ioTable fd (s.worker.ioTable fd)) q := by
    rw [Function.update_eq_self]
    exact h.holds.queues
  obtain ⟨bp, p, e, hq, -, hlen⟩ := destroyIoData_eq hself
  have hc : { s.worker.conn fd with pool := bp, io := p, live := false } = c := by
    have hx : (destroyFd (s.worker.conn fd) >>= fun c => pure ([], c)) = .ok (requests, c) := hexec
    have e' : destroyIoData (s.worker.conn fd).pool (s.worker.conn fd).io = .ok (bp, p) := e
    simp only [destroyFd, e', bind, Except.bind] at hx
    exact congrArg Prod.snd (Except.ok.inj hx)
  subst hc
  have hzero : p.inBufLen = (([] : List (List UInt8)).flatten.length : Int) := by
    rw [show (p.inBufLen : Int) = _ from hlen]
    split_ifs with hnone
    · rw [h.holds.counted, hself.inBufHead_eq_none.mp hnone]
    · rfl
  have hholds : (s.worker.putConn fd { s.worker.conn fd with pool := bp, io := p, live := false }).Holds N
      (withQueues q fd [] []) := h.holds.putConn hq hzero (fun hl => by cases hl) fun _ => ⟨rfl, rfl⟩
  have hmoved := h.moved hfd (s.received (s.number fd)) (s.sent (s.number fd)) [] hholds (.nil _) ?_ ?_
    fun hl => by cases hl
  · rw [Function.update_eq_self, Function.update_eq_self, List.map_nil, List.append_nil] at hmoved
    exact ⟨_, hmoved⟩
  · rw [List.append_nil]
    exact h.asked _
  · rw [List.append_nil]
    exact h.told _

theorem Session.Logged.step (h : s.Logged handleCmd N shared q log) {e : IoEvent} {s' : Session σ}
    (hs : SessionStep handleCmd s e s') : ∃ q' log', s'.Logged handleCmd N shared q' log' := by
  obtain ⟨w, hw, rfl⟩ := hs
  cases e with
  | accept fd => exact ⟨q, log, h.accepted hw⟩
  | input fd recv => exact h.input hw
  | output fd ct => exact (h.output hw).imp fun _ h' => ⟨log, h'⟩
  | hangUp fd => exact (h.hangUp hw).imp fun _ h' => ⟨log, h'⟩

theorem logged_run {nItems : Nat} (hn : 0 < nItems) (scratch : Scratch) {events : List IoEvent}
    (hrun : Run (SessionStep handleCmd) (Session.start nItems scratch shared) events s) :
    ∃ q log, s.Logged handleCmd nItems shared q log :=
  hrun.preserves (I := fun s => ∃ q log, s.Logged handleCmd nItems shared q log)
    (fun _ _ _ ⟨_, _, hi⟩ hs => hi.step hs) ⟨_, _, logged_start hn scratch shared⟩

theorem Session.Logged.complete (h : s.Logged handleCmd N shared q log) {fd : Nat} (hfd : s.worker.live fd = true) :
    (conversation (s.number fd) log).map Exchange.request = (serve [] (s.received (s.number fd))).1 ∧
      ∃ queued, (s.worker.conn fd).outgoing = .ok queued ∧
        s.sent (s.number fd) ++ queued.flatten = replies (conversation (s.number fd) log) := by
  obtain ⟨-, -, hframed, hflows⟩ := h.current fd hfd
  have hself : Queues N (s.worker.conn fd).pool (Function.update s.worker.ioTable fd (s.worker.conn fd).io) q := by
    rw [show (s.worker.conn fd).io = s.worker.ioTable fd from rfl, Function.update_eq_self]
    exact h.holds.queues
  exact ⟨by rw [hframed], _, hself.outgoing_eq, hflows⟩

end Session

/-- On every run of a worker, whatever the order of the events and whichever way the
bytes of its clients are cut, there is one sequence of exchanges with these properties.
`handle_cmd` was called for its requests one after the other and gave its answers.  The
requests of a connection are the first ones of what was read from its bytes, and what
was sent on it are the first bytes of their answers.  While a connection is open nothing
is missing: all requests read are among them, and what was sent and what is queued are
the answers. -/
theorem worker_answers_in_order {σ : Type} (handleCmd : Handler σ) {nItems : Nat} (hn : 0 < nItems) (scratch : Scratch)
    (shared : σ) {events : List IoEvent} {s : Session σ}
    (hrun : Run (SessionStep handleCmd) (Session.start nItems scratch shared) events s) :
    ∃ log : List (Nat × Exchange), Run (Answered handleCmd) shared (log.map Prod.snd) s.worker.shared ∧
      (∀ n, (conversation n log).map Exchange.request <+: (serve [] (s.received n)).1 ∧
        s.sent n <+: replies (conversation n log)) ∧
      ∀ fd, s.worker.live fd = true →
        (conversation (s.number fd) log).map Exchange.request = (serve [] (s.received (s.number fd))).1 ∧
          ∃ queued, (s.worker.conn fd).outgoing = .ok queued ∧
            s.sent (s.number fd) ++ queued.flatten = replies (conversation (s.number fd) log) := by
  obtain ⟨q, log, h⟩ := logged_run hn scratch hrun
  exact ⟨log, h.run, fun n => ⟨h.asked n, h.told n⟩, fun fd hfd => h.complete hfd⟩

/-- Two clients, one of which hangs up before it has got its whole answer; its
descriptor is accepted again. -/
def twoClients : List IoEvent :=
  [.accept 7, .input 7 (.bytes ⟨ascii "no\r\n", by decide, by decide⟩), .accept 8,
    .input 8 (.bytes ⟨ascii "a\r\nb", by decide, by decide⟩), .output 7 3, .hangUp 7, .accept 7]

theorem worker_answers_in_order_twoClients : ∃ s, 0 < 4 ∧
    Run (SessionStep refuse) (Session.start 4 ⟨fun _ => 0, fun _ => 0⟩ ()) twoClients s ∧
    ∃ log : List (Nat × Exchange), ∀ n, s.sent n <+: replies (conversation n log) := by
  have hrun : ∃ s, Run (SessionStep refuse) (Session.start 4 ⟨fun _ => 0, fun _ => 0⟩ ()) twoClients s := by
    refine ⟨_, .cons ⟨_, ⟨rfl, _, _, rfl, rfl⟩, rfl⟩ (.cons ⟨_, ⟨rfl, _, _, rfl, rfl⟩, rfl⟩
      (.cons ⟨_, ⟨rfl, _, _, rfl, rfl⟩, rfl⟩ (.cons ⟨_, ⟨rfl, _, _, rfl, rfl⟩, rfl⟩
      (.cons ⟨_, ⟨⟨rfl, ?_⟩, _, _, rfl, rfl⟩, rfl⟩ (.cons ⟨_, ⟨rfl, _, _, rfl, rfl⟩, rfl⟩
      (.cons ⟨_, ⟨rfl, _, _, rfl, rfl⟩, rfl⟩ (.nil _)))))))⟩
    decide
  obtain ⟨s, hs⟩ := hrun
  obtain ⟨log, -, hall, -⟩ := worker_answers_in_order refuse (by decide : 0 < 4) _ _ hs
  exact ⟨s, by decide, hs, log, fun n => (hall n).2⟩

end Tstdb
