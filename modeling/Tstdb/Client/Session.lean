/-
# `Tstdb.Client.Session` — clients and worker put together

Clients call `set`, `get`, `delete`, `incr` and `decr`, each on a connection of its own
to one worker.  What they send reaches the worker in chunks of any size and in any order
between the connections; what the worker sends reaches them in pieces of any size.  All
calls then return what one history of their commands says, in an order that keeps the
order of each client (`calls_share_history`), and a value that a client has set is the
one any client gets, until somebody changes the key (`set_value_is_got`).
-/
import Mathlib
import Tstdb.Lib.Runs
import Tstdb.Lib.CText
import Tstdb.Lib.PyText
import Tstdb.Lib.Bytes
import Tstdb.Lib.Chains
import Tstdb.Lib.Outcome
import Tstdb.Tst.Arena
import Tstdb.Tst.Runs
import Tstdb.Server.Index
import Tstdb.Server.Store
import Tstdb.Server.Sections
import Tstdb.Server.View
import Tstdb.Server.Pool
import Tstdb.Server.Buffers
import Tstdb.Server.Framing
import Tstdb.Server.Output
import Tstdb.Server.Stream
import Tstdb.Server.Commands
import Tstdb.Server.Values
import Tstdb.Server.Replies
import Tstdb.Server.Requests
import Tstdb.Server.History
import Tstdb.Server.Dialogue
import Tstdb.Client.Host
import Tstdb.Client.Keys
import Tstdb.Client.Values
import Tstdb.Client.Lines
import Tstdb.Client.Service
import Tstdb.Client.Calls

namespace Tstdb

open CText Bytes Chains Outcome Runs

/-- The commands, each with the history it is answered from. -/
def History.annotate : History → List (Nat × Served) → List (Nat × (Command × History))
  | _, [] => []
  | h, (n, x) :: served => (n, (x.command, h)) :: (h.serve x).annotate served

section Annotate

variable {h : History}

theorem annotate_commands (n : Nat) : ∀ (served : List (Nat × Served)) (h : History),
    (conversation n (h.annotate served)).map Prod.fst = (conversation n served).map Served.command := by
  intro served
  induction served with
  | nil => exact fun _ => rfl
  | cons entry served ih =>
      intro h
      obtain ⟨m, x⟩ := entry
      rw [History.annotate, conversation_cons, conversation_cons]
      rcases eq_or_ne m n with rfl | hne
      · rw [if_pos rfl, if_pos rfl, List.map_cons, List.map_cons, ih]
      · rw [if_neg hne, if_neg hne, ih]

theorem annotate_answers (n : Nat) : ∀ {served : List (Nat × Served)} {h : History},
    h.Explains (served.map Prod.snd) →
    answersOf (conversation n served) = (conversation n (h.annotate served)).flatMap fun x => (x.1.answer x.2).flatten := by
  intro served
  induction served with
  | nil => exact fun _ => rfl
  | cons entry served ih =>
      intro h hexplains
      obtain ⟨m, x⟩ := entry
      obtain ⟨hanswer, hrest⟩ : x.answer = .sent (x.command.answer h) ∧ (h.serve x).Explains (served.map Prod.snd) :=
        hexplains
      rw [History.annotate, conversation_cons, conversation_cons]
      rcases eq_or_ne m n with rfl | hne
      · rw [if_pos rfl, if_pos rfl, answersOf, List.flatMap_cons, List.flatMap_cons, ← ih hrest, hanswer]
        rfl
      · rw [if_neg hne, if_neg hne, ih hrest]

end Annotate

theorem mem_of_forall₂ {α β : Type} {R : α → β → Prop} {l : List α} {l' : List β} (h : List.Forall₂ R l l') {b : β}
    (hb : b ∈ l') : ∃ a ∈ l, R a b := by
  induction h with
  | nil => cases hb
  | cons hr _ ih =>
      rcases List.mem_cons.mp hb with rfl | hb
      · exact ⟨_, List.mem_cons_self, hr⟩
      · obtain ⟨a, ha, hr'⟩ := ih hb
        exact ⟨a, List.mem_cons_of_mem _ ha, hr'⟩

/-- Nothing is queued without a chain. -/
theorem Conn.outgoing_none {σ : Type} {c : Conn σ} (h : c.io.outBufHead = none) : c.outgoing = .ok [] := by
  rw [Conn.outgoing, h]
  cases c.pool.nItems <;> rfl

/-- What an open connection has been sent when its client's whole stream has arrived and no
output is queued: the answers to its commands, each from the history at its moment. -/
theorem sent_answers {ι : Type} {ix : ScanIndex ι} {V : View ix.toIndex} (hw : ix.Works V) {nItems : Nat}
    (hn : 0 < nItems) (scratch : Scratch) {sh : Shared ι} {h : History} (hi : Intact V sh.store h) (times : Nat → Int)
    {events : List IoEvent} {s : Session (Shared ι × (Nat → Int))}
    (hrun : Run (SessionStep (clocked ix)) (Session.start nItems scratch (sh, times)) events s)
    (commands : Nat → List Command) (hwired : ∀ n, ∀ c ∈ commands n, c.Wired)
    (hsent : ∀ n, (s.received n).flatten <+: (commands n).flatMap Command.wire)
    (hchunks : ∀ n, Chunks BUF_UNIT_SIZE (s.received n)) :
    ∃ served : List (Nat × Served), h.Explains (served.map Prod.snd) ∧
      (∀ n, (conversation n served).map Served.command <+: commands n) ∧
      ∀ fd n, s.worker.live fd = true → s.number fd = n → (s.worker.ioTable fd).outBufHead = none →
        (s.received n).flatten = (commands n).flatMap Command.wire →
        (conversation n (h.annotate served)).map Prod.fst = commands n ∧
          s.sent n = (conversation n (h.annotate served)).flatMap fun x => (x.1.answer x.2).flatten := by
  obtain ⟨q, log, hlog⟩ := logged_run hn scratch hrun
  obtain ⟨served, hserved, hcommands, hanswers⟩ := hlog.served hwired hsent hchunks
  have hexplains := Intact.explains hw hserved hi
  refine ⟨served, hexplains, hcommands, ?_⟩
  rintro fd n hlive rfl hempty hwhole
  obtain ⟨-, queued, hqueued, hflows⟩ := hlog.complete hlive
  obtain rfl : [] = queued := Except.ok.inj ((Conn.outgoing_none hempty).symm.trans hqueued)
  refine ⟨(annotate_commands (s.number fd) served h).trans
    (hlog.served_whole hlive (hwired _) (hchunks _) hwhole (hcommands _) (hanswers _)), ?_⟩
  rw [List.flatten_nil, List.append_nil, ← answersOf_eq (hanswers _), annotate_answers _ hexplains] at hflows
  exact hflows

/-- The calls of all clients return what one history of their commands says.  `calls n`
is what the client of the connection `n` does; its stream may have arrived in part.
Where it has arrived as a whole and all output has been sent, the client has sent exactly
what the worker received, each of its calls has returned what the history says at the
moment of the command, and no byte is left over. -/
theorem calls_share_history {ι Ω : Type} {ix : ScanIndex ι} {V : View ix.toIndex} (hw : ix.Works V) {nItems : Nat}
    (hn : 0 < nItems) (scratch : Scratch) {sh : Shared ι} {h : History} (hi : Intact V sh.store h) (times : Nat → Int)
    {events : List IoEvent} {s : Session (Shared ι × (Nat → Int))}
    (hrun : Run (SessionStep (clocked ix)) (Session.start nItems scratch (sh, times)) events s)
    (codec : Codec Ω) (calls : Nat → List (ApiCall Ω)) (commands : Nat → List Command)
    (hsends : ∀ n, List.Forall₂ (ApiCall.Sends codec) (calls n) (commands n))
    (hsent : ∀ n, (s.received n).flatten <+: (commands n).flatMap Command.wire)
    (hchunks : ∀ n, Chunks BUF_UNIT_SIZE (s.received n)) :
    ∃ served : List (Nat × Served), h.Explains (served.map Prod.snd) ∧
      (∀ n, (conversation n served).map Served.command <+: commands n) ∧
      ∀ fd n, s.worker.live fd = true → s.number fd = n → (s.worker.ioTable fd).outBufHead = none →
        (s.received n).flatten = (commands n).flatMap Command.wire →
        ∀ host : Host, host.Holds (s.sent n) →
          ∃ host', runCalls codec host (calls n) =
              .ok ((conversation n (h.annotate served)).map fun x => x.1.result codec x.2, host') ∧
            host'.buffer = [] ∧ host'.socket = [] ∧ host'.sent = host.sent ++ (s.received n).flatten := by
  have hwired : ∀ n, ∀ c ∈ commands n, c.Wired := by
    intro n c hc
    obtain ⟨a, -, hs⟩ := mem_of_forall₂ (hsends n) hc
    exact hs.wired
  obtain ⟨served, hexplains, hall, hopen⟩ := sent_answers hw hn scratch hi times hrun commands hwired hsent hchunks
  refine ⟨served, hexplains, hall, fun fd n hlive hnum hempty hwhole host hhost => ?_⟩
  obtain ⟨hcommands, hanswers⟩ := hopen fd n hlive hnum hempty hwhole
  have hforall : List.Forall₂ (fun a x => ApiCall.Sends codec a x.1) (calls n)
      (conversation n (h.annotate served)) := by
    have hs := hsends n
    rw [← hcommands] at hs
    exact List.forall₂_map_right_iff.mp hs
  rw [hanswers, ← List.append_nil (List.flatMap _ _)] at hhost
  obtain ⟨host', hruns, hholds, hsent'⟩ := runCalls_spec hforall hhost
  obtain ⟨hbuffer, hsocket⟩ := hholds.empty
  refine ⟨host', hruns, hbuffer, hsocket, ?_⟩
  rw [hsent', hwhole, ← hcommands, List.flatMap_map]

theorem letter_n_ne : (110 : UInt8) ≠ 0 := by decide

/-- One client sets `None`, another deletes it in between. -/
def noneStored : List IoEvent :=
  [.accept 7, .accept 8, .input 7 (.bytes ⟨ascii "set n 1 0 2\r\nN", by decide, by decide⟩),
    .input 8 (.bytes ⟨ascii "delete n\r\n", by decide, by decide⟩),
    .input 7 (.bytes ⟨ascii ".\r\n", by decide, by decide⟩), .output 7 8]

def noneStoredCalls : Nat → List (ApiCall Unit)
  | 0 => [.set [110] (.object ()) 0]
  | 1 => [.delete [110]]
  | _ => []

def noneStoredCommands : Nat → List Command
  | 0 => [.set (.letter 110 letter_n_ne) 1 ⟨ascii "N.", by decide⟩ false]
  | 1 => [.delete (.letter 110 letter_n_ne)]
  | _ => []

theorem calls_share_history_noneStored : ∃ s, 0 < 4 ∧ Run (SessionStep (clocked ScanIndex.map))
      (Session.start 4 ⟨fun _ => 0, fun _ => 0⟩ (⟨Store.fresh, fun _ => 0⟩, fun _ => 0)) noneStored s ∧
    ∃ results host', runCalls Codec.noneOnly ⟨[], [s.sent 0], []⟩ (noneStoredCalls 0) = .ok (results, host') ∧
      host'.buffer = [] := by
  have hrun : ∃ s, Run (SessionStep (clocked ScanIndex.map))
      (Session.start 4 ⟨fun _ => 0, fun _ => 0⟩ (⟨Store.fresh, fun _ => 0⟩, fun _ => 0)) noneStored s ∧
      s.received 0 = [ascii "set n 1 0 2\r\nN", ascii ".\r\n"] ∧ s.received 1 = [ascii "delete n\r\n"] ∧
      (∀ n, s.received (n + 2) = []) ∧ s.worker.live 7 = true ∧ s.number 7 = 0 ∧
      (s.worker.ioTable 7).outBufHead = none ∧ s.sent 0 ≠ [] := by
    refine ⟨_, .cons ⟨_, ⟨rfl, _, _, rfl, rfl⟩, rfl⟩ (.cons ⟨_, ⟨rfl, _, _, rfl, rfl⟩, rfl⟩
      (.cons ⟨_, ⟨rfl, _, _, rfl, rfl⟩, rfl⟩ (.cons ⟨_, ⟨rfl, _, _, rfl, rfl⟩, rfl⟩
      (.cons ⟨_, ⟨rfl, _, _, rfl, rfl⟩, rfl⟩ (.cons ⟨_, ⟨⟨rfl, ?_⟩, _, _, rfl, rfl⟩, rfl⟩ (.nil _)))))),
      rfl, rfl, fun n => rfl, rfl, rfl, rfl, ?_⟩
    · decide +kernel
    · decide +kernel
  obtain ⟨s, hs, h0, h1, hrest, hlive, hnum, hempty, hne⟩ := hrun
  have hi : @Intact _ ScanIndex.map View.map (Shared.mk Store.fresh fun _ => 0).store .empty :=
    Intact.start rfl (by decide)
  have hkey : checkKey (WireKey.letter 110 letter_n_ne).bytes = .ok () := by decide +kernel
  have hsends : ∀ n, List.Forall₂ (ApiCall.Sends Codec.noneOnly) (noneStoredCalls n) (noneStoredCommands n) := by
    intro n
    match n with
    | 0 => exact .cons (.set hkey rfl) .nil
    | 1 => exact .cons (.delete hkey) .nil
    | n + 2 => exact .nil
  have hwire0 : (s.received 0).flatten = (noneStoredCommands 0).flatMap Command.wire := by
    rw [h0]
    decide +kernel
  have hwire1 : (s.received 1).flatten = (noneStoredCommands 1).flatMap Command.wire := by
    rw [h1]
    decide +kernel
  have hsent : ∀ n, (s.received n).flatten <+: (noneStoredCommands n).flatMap Command.wire := by
    intro n
    match n with
    | 0 => rw [hwire0]
    | 1 => rw [hwire1]
    | n + 2 => rw [hrest]; exact List.nil_prefix
  have hchunks : ∀ n, Chunks BUF_UNIT_SIZE (s.received n) := by
    intro n
    match n with
    | 0 => rw [h0]; decide +kernel
    | 1 => rw [h1]; decide +kernel
    | n + 2 => rw [hrest]; decide +kernel
  obtain ⟨served, -, -, hreturns⟩ := calls_share_history ScanIndex.map_works (by decide : 0 < 4) _ hi _ hs
    Codec.noneOnly noneStoredCalls noneStoredCommands hsends hsent hchunks
  obtain ⟨host', hruns, hbuffer, -⟩ := hreturns 7 0 hlive hnum hempty hwire0 ⟨[], [s.sent 0], []⟩
    ⟨by simp, by simpa using hne⟩
  exact ⟨s, by decide, hs, _, host', hruns, hbuffer⟩

/-! ## A stored value -/

/-- The command does not change the key. -/
def Command.Spares (key : Key) (c : Command) : Prop := c.key.toKey = key → ∃ k, c = .get k

theorem Command.Spares.last {key : Key} {c : Command} (hc : c.Spares key) (offset : Nat) (h : History) :
    (c.after offset h).last key = h.last key := by
  rcases Classical.em (c.key.toKey = key) with hk | hk
  · obtain ⟨k, rfl⟩ := hc hk
    rfl
  · exact c.after_other offset h fun e => hk e.symm

theorem spared_last {key : Key} : ∀ {between : List Served} {h : History}, (∀ z ∈ between, z.command.Spares key) →
    (between.foldl History.serve h).last key = h.last key := by
  intro between
  induction between with
  | nil => exact fun _ => rfl
  | cons z between ih =>
      intro h hspares
      obtain ⟨hz, hrest⟩ := List.forall_mem_cons.mp hspares
      rw [List.foldl_cons, ih hrest]
      exact hz.last z.offset h

section Sends

variable {Ω : Type} {codec : Codec Ω} {key : List UInt8} {c : Command}

theorem ApiCall.Sends.of_get (h : (ApiCall.get key).Sends codec c) : ∃ k : WireKey, k.bytes = key ∧ c = .get k := by
  cases h with
  | get hkey => exact ⟨_, rfl, rfl⟩

theorem ApiCall.Sends.of_set {val : PyValue Ω} {minCompressLen : Int}
    (h : (ApiCall.set key val minCompressLen).Sends codec c) : ∃ (k : WireKey) (flags : Int) (body : Body),
      k.bytes = key ∧ valToStoreInfo codec val minCompressLen = some (flags, body.bytes.length, body.bytes) ∧
      c = .set k flags body false := by
  cases h with
  | set hkey h => exact ⟨_, _, _, rfl, h, rfl⟩

end Sends

/-- A client that gets a key reads the very value that some client has set, of whatever
type it was, when no command in between has changed the key. -/
theorem set_value_is_got {ι Ω : Type} {ix : ScanIndex ι} {V : View ix.toIndex} (hw : ix.Works V) {codec : Codec Ω}
    (hc : codec.Lawful) {st st' : Store ι} {h : History} (hi : Intact V st h) {key : List UInt8} {val : PyValue Ω}
    {minCompressLen : Int} {x y : Served} (hx : (ApiCall.set key val minCompressLen).Sends codec x.command)
    (hy : (ApiCall.get key).Sends codec y.command) {between : List Served}
    (hbetween : ∀ z ∈ between, z.command.Spares x.command.key.toKey)
    (hrun : Run (Serves ix) st (x :: (between ++ [y])) st') {server : Host} {rest : List UInt8}
    (hserver : server.Holds (y.answer.bytes ++ rest)) :
    ∃ server', (ApiCall.get key).run codec server = .ok (.got (.value val), server') ∧ server'.Holds rest := by
  obtain ⟨k, flags, body, hkey, hinfo, hsetCommand⟩ := hx.of_set
  obtain ⟨k', hkey', hgetCommand⟩ := hy.of_get
  have hkeys : k'.toKey = x.command.key.toKey := by
    rw [hsetCommand]
    exact Key.ext (hkey'.trans hkey.symm)
  cases hrun with
  | cons hset hrun =>
  obtain ⟨st₁, hmid, hlast⟩ := hrun.split
  cases hlast with
  | cons hget _ =>
  have hi₁ := (hi.serves hw hset).2.run hw hmid
  have hanswer := (hi₁.serves hw hget).1
  rw [hanswer] at hserver
  obtain ⟨server', hruns, hrest, -⟩ := hy.run hserver
  refine ⟨server', ?_, hrest⟩
  have hlast : (h.serve x).last x.command.key.toKey = some ⟨x.offset, ⟨flags, 0, body.bytes⟩⟩ := by
    rw [History.serve, hsetCommand]
    exact Function.update_self _ _ _
  rw [hruns, hgetCommand]
  simp only [Command.result, hkeys, spared_last hbetween, hlast, (value_roundtrip hc hinfo).1]

/-- `None` is stored as `N.` under the flags of a pickled value. -/
theorem set_value_is_got_none : ∃ (x y : Served) (st : Store KeyMap), Run (Serves ScanIndex.map) .fresh [x, y] st ∧
    ∃ server', (ApiCall.get [107]).run Codec.noneOnly ⟨[], y.answer.bytes.map fun b => [b], []⟩ =
      .ok (.got (.value (.object ())), server') ∧ server'.Holds [] := by
  obtain ⟨a₁, s₁, st₁, vb₁, a₂, s₂, st₂, vb₂, h₁, h₂⟩ : ∃ a₁ s₁ st₁ vb₁ a₂ s₂ st₂ vb₂,
      handleCmd ScanIndex.map 0 ⟨fun j => (ascii "set k 1 0 2").getD j 0, fun j => (ascii "N.").getD j 0⟩ 11 2
        ⟨.fresh, fun _ => 0⟩ = .ok (a₁, s₁, ⟨st₁, vb₁⟩) ∧
      handleCmd ScanIndex.map 0 ⟨fun j => (ascii "get k").getD j 0, fun _ => 0⟩ 5 0 ⟨st₁, fun _ => 0⟩
        = .ok (a₂, s₂, ⟨st₂, vb₂⟩) := ⟨_, _, _, _, _, _, _, _, rfl, rfl⟩
  have hkey : checkKey (WireKey.letter 107 (by decide)).bytes = .ok () := by decide +kernel
  have hset : (Command.set (.letter 107 (by decide)) 1 ⟨ascii "N.", by decide⟩ false).AskedBy
      ⟨fun j => (ascii "set k 1 0 2").getD j 0, fun j => (ascii "N.").getD j 0⟩ 11 2 :=
    ⟨by decide, by decide +kernel, by decide +kernel, by decide +kernel, rfl, by decide +kernel⟩
  have hget : (Command.get (.letter 107 (by decide))).AskedBy ⟨fun j => (ascii "get k").getD j 0, fun _ => 0⟩ 5 0 :=
    ⟨by decide, by decide +kernel, by decide +kernel, rfl⟩
  have hrun : Run (Serves ScanIndex.map) .fresh
      (⟨_, Store.fresh.dataFile.length, a₁⟩ :: ([] ++ [⟨_, st₁.dataFile.length, a₂⟩])) st₂ :=
    .cons ⟨rfl, 0, _, 11, 2, _, s₁, vb₁, hset, h₁⟩ (.cons ⟨rfl, 0, _, 5, 0, _, s₂, vb₂, hget, h₂⟩ (.nil st₂))
  have hi : @Intact _ ScanIndex.map View.map Store.fresh .empty := Intact.start rfl (by decide)
  have hx : (ApiCall.set [107] (.object ()) 0).Sends Codec.noneOnly
      (.set (.letter 107 (by decide)) 1 ⟨ascii "N.", by decide⟩ false) := .set hkey rfl
  have hserver : Host.Holds ⟨[], a₂.bytes.map fun b => [b], []⟩ (a₂.bytes ++ []) :=
    ⟨by rw [← List.flatMap_def, List.flatMap_singleton', List.append_nil]; rfl, by simp⟩
  have hgot := set_value_is_got ScanIndex.map_works Codec.noneOnly_lawful hi hx (.get hkey) (fun z hz => by cases hz)
    hrun hserver
  exact ⟨_, _, _, hrun, hgot⟩

end Tstdb
