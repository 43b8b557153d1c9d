/-
# `Tstdb.Client.Service` — what the clients of a worker get

Clients send streams of commands to one worker.  Their chunks arrive in any order and
cut anywhere, connections come and go, `handle_cmd` reads the clock for every command.
There is one order of all commands that explains everything they get
(`clients_share_history`): in it the commands of each client come as it sent them, each
is answered from what the ones before it have stored, and the bytes sent to a client
are the answers to its own commands, as far as they have been sent.
-/
import Mathlib
import Tstdb.Lib.Runs
import Tstdb.Lib.CText
import Tstdb.Lib.Bytes
import Tstdb.Lib.Chains
import Tstdb.Lib.Outcome
import Tstdb.Tst.Arena
import Tstdb.Tst.Runs
import Tstdb.Server.Index
import Tstdb.Server.Store
import Tstdb.Server.Sections
import Tstdb.Server.View
import Tstdb.Server.Pool
import Tstdb.Server.Buffers
import Tstdb.Server.Framing
import Tstdb.Server.Output
import Tstdb.Server.Stream
import Tstdb.Server.Commands
import Tstdb.Server.Values
import Tstdb.Server.Replies
import Tstdb.Server.Requests
import Tstdb.Server.History
import Tstdb.Server.Dialogue
import Tstdb.Client.Lines

namespace Tstdb

open CText Bytes Chains Outcome Runs

/-- `handle_cmd` with a clock: the times it is going to read. -/
def clocked {ι : Type} (ix : ScanIndex ι) : Handler (Shared ι × (Nat → Int)) :=
  fun s headerLen bodyLen x =>
    (handleCmd ix (x.2 0) s headerLen bodyLen x.1).map fun r => (r.1, r.2.1, r.2.2, fun i => x.2 (i + 1))

/-- Each answer is the one the history gives that the commands before have made. -/
def History.Explains : History → List Served → Prop
  | _, [] => True
  | h, x :: served => x.answer = .sent (x.command.answer h) ∧ (h.serve x).Explains served

section Explain

variable {ι : Type} {ix : ScanIndex ι} {V : View ix.toIndex} {h : History}

theorem Intact.explains (hw : ix.Works V) {st st' : Store ι} {served : List Served}
    (hrun : Run (Serves ix) st served st') : ∀ {h : History}, Intact V st h → h.Explains served := by
  induction hrun with
  | nil st => exact fun _ => trivial
  | cons hs _ ih =>
      intro h hi
      obtain ⟨hanswer, hi'⟩ := hi.serves hw hs
      exact ⟨hanswer, ih hi'⟩

/-- An exchange whose request is a command serves the command. -/
theorem serves_of_answered {c : Command} (hc : c.Wired) {x : Exchange} (hx : x.request = c.request)
    {sh sh' : Shared ι × (Nat → Int)} (h : Answered (clocked ix) sh x sh') :
    Serves ix sh.1.store ⟨c, sh.1.store.dataFile.length, x.answer⟩ sh'.1.store := by
  obtain ⟨s, s', hlies, he⟩ := h
  obtain ⟨request, answer⟩ := x
  obtain rfl : request = c.request := hx
  obtain ⟨⟨st, valueBuf⟩, times⟩ := sh
  rw [clocked] at he
  cases hh : handleCmd ix (times 0) s c.request.header.length c.request.body.length ⟨st, valueBuf⟩ with
  | error f => rw [hh] at he; cases he
  | ok r =>
      rw [hh] at he
      cases he
      exact ⟨rfl, times 0, s, _, _, valueBuf, _, _, hc.askedBy hlies, hh⟩

/-- Exchanges whose requests are, on each connection, the first commands of its client,
are a run of the commands in the same order. -/
theorem exists_served : ∀ {log : List (Nat × Exchange)} {sh sh' : Shared ι × (Nat → Int)} {commands : Nat → List Command},
    Run (Answered (clocked ix)) sh (log.map Prod.snd) sh' → (∀ n, ∀ c ∈ commands n, c.Wired) →
    (∀ n, (conversation n log).map Exchange.request <+: (commands n).map Command.request) →
    ∃ served : List (Nat × Served), Run (Serves ix) sh.1.store (served.map Prod.snd) sh'.1.store ∧
      (∀ n, (conversation n served).map Served.command <+: commands n) ∧
      ∀ n, (conversation n served).map Served.answer = (conversation n log).map Exchange.answer := by
  intro log
  induction log with
  | nil =>
      intro sh sh' commands hrun _ _
      cases hrun
      exact ⟨[], .nil _, fun _ => List.nil_prefix, fun _ => rfl⟩
  | cons entry log ih =>
      intro sh sh' commands hrun hwired hpre
      obtain ⟨n, x⟩ := entry
      cases hrun with
      | @cons _ sh₁ _ _ _ hx hrun =>
      have hn := hpre n
      rw [conversation_cons, if_pos rfl, List.map_cons] at hn
      cases hc : commands n with
      | nil =>
          rw [hc] at hn
          exact absurd (List.prefix_nil.mp hn) (List.cons_ne_nil _ _)
      | cons c rest =>
          rw [hc, List.map_cons, List.cons_prefix_cons] at hn
          have hc' : c ∈ commands n := by rw [hc]; exact List.mem_cons_self
          have hwired' : ∀ m, ∀ c' ∈ Function.update commands n rest m, c'.Wired := by
            intro m c' hm
            rcases eq_or_ne m n with rfl | hne
            · rw [Function.update_self] at hm
              exact hwired m c' (by rw [hc]; exact List.mem_cons_of_mem _ hm)
            · rw [Function.update_of_ne hne] at hm
              exact hwired m c' hm
          have hpre' : ∀ m, (conversation m log).map Exchange.request
              <+: (Function.update commands n rest m).map Command.request := by
            intro m
            rcases eq_or_ne m n with rfl | hne
            · rw [Function.update_self]
              exact hn.2
            · have hm := hpre m
              rw [conversation_cons, if_neg hne.symm] at hm
              rwa [Function.update_of_ne hne]
          obtain ⟨served, hserved, hcommands, hanswers⟩ := ih hrun hwired' hpre'
          refine ⟨(n, ⟨c, sh.1.store.dataFile.length, x.answer⟩) :: served,
            .cons (serves_of_answered (hwired n c hc') hn.1 hx) hserved, fun m => ?_, fun m => ?_⟩
          · have hm := hcommands m
            rw [conversation_cons]
            rcases eq_or_ne n m with rfl | hne
            · rw [if_pos rfl, List.map_cons, hc]
              rw [Function.update_self] at hm
              exact List.cons_prefix_cons.mpr ⟨rfl, hm⟩
            · rw [if_neg hne]
              rwa [Function.update_of_ne hne.symm] at hm
          · rw [conversation_cons, conversation_cons]
            rcases eq_or_ne n m with rfl | hne
            · rw [if_pos rfl, if_pos rfl, List.map_cons, List.map_cons, hanswers]
            · rw [if_neg hne, if_neg hne, hanswers]

end Explain

/-- What some answers put into the output. -/
def answersOf (l : List Served) : List UInt8 := l.flatMap fun x => x.answer.bytes

theorem answersOf_eq {l : List Served} {l' : List Exchange} (h : l.map Served.answer = l'.map Exchange.answer) :
    answersOf l = replies l' := by
  have hmap := congrArg (List.flatMap Answer.bytes) h
  rwa [List.flatMap_map, List.flatMap_map] at hmap

section Logged

variable {ι : Type} {ix : ScanIndex ι} {N : Nat} {sh : Shared ι × (Nat → Int)} {s : Session (Shared ι × (Nat → Int))}
  {q : Owner → List (List UInt8)} {log : List (Nat × Exchange)} {commands : Nat → List Command}

/-- The exchanges are a run of the clients' commands. -/
theorem Session.Logged.served (h : s.Logged (clocked ix) N sh q log) (hwired : ∀ n, ∀ c ∈ commands n, c.Wired)
    (hsent : ∀ n, (s.received n).flatten <+: (commands n).flatMap Command.wire)
    (hchunks : ∀ n, Chunks BUF_UNIT_SIZE (s.received n)) :
    ∃ served : List (Nat × Served), Run (Serves ix) sh.1.store (served.map Prod.snd) s.worker.shared.1.store ∧
      (∀ n, (conversation n served).map Served.command <+: commands n) ∧
      ∀ n, (conversation n served).map Served.answer = (conversation n log).map Exchange.answer :=
  exists_served h.run hwired fun n =>
    (h.asked n).trans (serve_initial (hchunks n) (frames_commands (hwired n)) (hsent n))

/-- Where the whole stream has arrived, no command is left to serve. -/
theorem Session.Logged.served_whole (h : s.Logged (clocked ix) N sh q log) {fd : Nat} (hfd : s.worker.live fd = true)
    {cs : List Command} (hwired : ∀ c ∈ cs, c.Wired) (hchunks : Chunks BUF_UNIT_SIZE (s.received (s.number fd)))
    (hwhole : (s.received (s.number fd)).flatten = cs.flatMap Command.wire) {l : List Served}
    (hcommands : l.map Served.command <+: cs)
    (hanswers : l.map Served.answer = (conversation (s.number fd) log).map Exchange.answer) :
    l.map Served.command = cs := by
  have hrequests := (h.complete hfd).1
  have hframes := frames_commands hwired
  rw [← hwhole] at hframes
  rw [serve_exact hchunks hframes] at hrequests
  refine hcommands.eq_of_length ?_
  have hlen := congrArg List.length hrequests
  have hlen' := congrArg List.length hanswers
  simp only [List.length_map] at hlen hlen' ⊢
  exact hlen'.trans hlen

end Logged

/-- On every run of a worker whose clients send commands, one order of the commands
explains what all clients get.  Each client's commands come in it as they were sent, each
is answered from the history of the ones before, and what was sent to a client are the
first bytes of the answers to its own.  While a connection is open nothing is lost: what
was sent and what is queued are all those answers, and once the client's whole stream has
arrived every command of it has been served. -/
theorem clients_share_history {ι : Type} {ix : ScanIndex ι} {V : View ix.toIndex} (hw : ix.Works V) {nItems : Nat}
    (hn : 0 < nItems) (scratch : Scratch) {sh : Shared ι} {h : History} (hi : Intact V sh.store h) (times : Nat → Int)
    {events : List IoEvent} {s : Session (Shared ι × (Nat → Int))}
    (hrun : Run (SessionStep (clocked ix)) (Session.start nItems scratch (sh, times)) events s)
    (commands : Nat → List Command) (hwired : ∀ n, ∀ c ∈ commands n, c.Wired)
    (hsent : ∀ n, (s.received n).flatten <+: (commands n).flatMap Command.wire)
    (hchunks : ∀ n, Chunks BUF_UNIT_SIZE (s.received n)) :
    ∃ served : List (Nat × Served),
      Run (Serves ix) sh.store (served.map Prod.snd) s.worker.shared.1.store ∧ h.Explains (served.map Prod.snd) ∧
      (∀ n, (conversation n served).map Served.command <+: commands n ∧
        s.sent n <+: answersOf (conversation n served)) ∧
      ∀ fd, s.worker.live fd = true →
        (∃ queued, (s.worker.conn fd).outgoing = .ok queued ∧
          s.sent (s.number fd) ++ queued.flatten = answersOf (conversation (s.number fd) served)) ∧
        ((s.received (s.number fd)).flatten = (commands (s.number fd)).flatMap Command.wire →
          (conversation (s.number fd) served).map Served.command = commands (s.number fd)) := by
  obtain ⟨q, log, hlog⟩ := logged_run hn scratch hrun
  obtain ⟨served, hserved, hcommands, hanswers⟩ := hlog.served hwired hsent hchunks
  refine ⟨served, hserved, Intact.explains hw hserved hi, fun n => ⟨hcommands n, ?_⟩,
    fun fd hfd => ⟨?_, fun hwhole => ?_⟩⟩
  · rw [answersOf_eq (hanswers n)]
    exact hlog.told n
  · rw [answersOf_eq (hanswers _)]
    exact (hlog.complete hfd).2
  · exact hlog.served_whole hfd (hwired _) (hchunks _) hwhole (hcommands _) (hanswers _)

/-- One client stores under a key, another deletes it in between. -/
def storedAndDeleted : List IoEvent :=
  [.accept 7, .accept 8, .input 7 (.bytes ⟨ascii "set k 5 0 1\r\nv", by decide, by decide⟩),
    .input 8 (.bytes ⟨ascii "delete k\r\n", by decide, by decide⟩),
    .input 7 (.bytes ⟨ascii "\r\n", by decide, by decide⟩), .output 8 4]

def storedAndDeletedCommands : Nat → List Command
  | 0 => [.set (.letter 107 (by decide)) 5 ⟨[118], by decide⟩ false]
  | 1 => [.delete (.letter 107 (by decide))]
  | _ => []

theorem clients_share_history_storedAndDeleted : ∃ s, 0 < 4 ∧ Run (SessionStep (clocked ScanIndex.map))
      (Session.start 4 ⟨fun _ => 0, fun _ => 0⟩ (⟨Store.fresh, fun _ => 0⟩, fun _ => 0)) storedAndDeleted s ∧
    ∃ served : List (Nat × Served), History.empty.Explains (served.map Prod.snd) ∧
      (conversation 0 served).map Served.command = storedAndDeletedCommands 0 := by
  have hrun : ∃ s, Run (SessionStep (clocked ScanIndex.map))
      (Session.start 4 ⟨fun _ => 0, fun _ => 0⟩ (⟨Store.fresh, fun _ => 0⟩, fun _ => 0)) storedAndDeleted s ∧
      s.received 0 = [ascii "set k 5 0 1\r\nv", ascii "\r\n"] ∧ s.received 1 = [ascii "delete k\r\n"] ∧
      (∀ n, s.received (n + 2) = []) ∧ s.worker.live 7 = true ∧ s.number 7 = 0 := by
    refine ⟨_, .cons ⟨_, ⟨rfl, _, _, rfl, rfl⟩, rfl⟩ (.cons ⟨_, ⟨rfl, _, _, rfl, rfl⟩, rfl⟩
      (.cons ⟨_, ⟨rfl, _, _, rfl, rfl⟩, rfl⟩ (.cons ⟨_, ⟨rfl, _, _, rfl, rfl⟩, rfl⟩
      (.cons ⟨_, ⟨rfl, _, _, rfl, rfl⟩, rfl⟩ (.cons ⟨_, ⟨⟨rfl, ?_⟩, _, _, rfl, rfl⟩, rfl⟩ (.nil _)))))),
      rfl, rfl, fun n => rfl, rfl, rfl⟩
    decide +kernel
  obtain ⟨s, hs, h0, h1, hrest, hlive, hnum⟩ := hrun
  have hi : @Intact _ ScanIndex.map View.map (Shared.mk Store.fresh fun _ => 0).store .empty :=
    Intact.start rfl (by decide)
  have hwired : ∀ n, ∀ c ∈ storedAndDeletedCommands n, c.Wired := by
    intro n c hc
    match n with
    | 0 =>
        obtain rfl := List.mem_singleton.mp hc
        exact ⟨by decide +kernel, show wrap32 5 = 5 by decide⟩
    | 1 =>
        obtain rfl := List.mem_singleton.mp hc
        exact ⟨by decide +kernel, trivial⟩
    | n + 2 => cases hc
  have hwire0 : (s.received 0).flatten = (storedAndDeletedCommands 0).flatMap Command.wire := by
    rw [h0]
    decide +kernel
  have hwire1 : (s.received 1).flatten = (storedAndDeletedCommands 1).flatMap Command.wire := by
    rw [h1]
    decide +kernel
  have hsent : ∀ n, (s.received n).flatten <+: (storedAndDeletedCommands n).flatMap Command.wire := by
    intro n
    match n with
    | 0 => rw [hwire0]
    | 1 => rw [hwire1]
    | n + 2 => rw [hrest]; exact List.nil_prefix
  have hchunks : ∀ n, Chunks BUF_UNIT_SIZE (s.received n) := by
    intro n
    match n with
    | 0 => rw [h0]; decide +kernel
    | 1 => rw [h1]; decide +kernel
    | n + 2 => rw [hrest]; decide +kernel
  obtain ⟨served, -, hexplains, -, hopen⟩ := clients_share_history ScanIndex.map_works (by decide : 0 < 4) _ hi _ hs
    storedAndDeletedCommands hwired hsent hchunks
  have hall := (hopen 7 hlive).2
  rw [hnum] at hall
  exact ⟨s, by decide, hs, served, hexplains, hall hwire0⟩
end Tstdb
