/-
# `Tstdb.Server.Exhaustion` — how many chunks a request may come in

Every `recv` takes a buffer of its own, however little it brings, and the buffers of a
request are given back only when it is complete.  So what a pool can take is a number of
chunks and not a number of bytes: on a worker whose other connections hold nothing, a
`set` is received and handled if and only if its chunks, and what the connection still
has to send, are fewer than the buffers of the pool (`set_fits_pool_iff`).

* `handleInput_waits`: a chunk that completes no request stays queued.
* `handleInput_scarce`: with one buffer left `alloc_buf` fails.
* `handleInput_completes`: the answer fits, since the chunks of the request are free again.
-/
import Mathlib
import Tstdb.Lib.Runs
import Tstdb.Lib.CText
import Tstdb.Lib.Bytes
import Tstdb.Lib.Chains
import Tstdb.Lib.Outcome
import Tstdb.Tst.Arena
import Tstdb.Tst.Runs
import Tstdb.Tst.Scan
import Tstdb.Server.Index
import Tstdb.Server.Store
import Tstdb.Server.Sections
import Tstdb.Server.Pool
import Tstdb.Server.Buffers
import Tstdb.Server.Framing
import Tstdb.Server.Stream
import Tstdb.Server.Commands
import Tstdb.Server.Replies
import Tstdb.Server.Requests

namespace Tstdb

open CText Bytes Chains Outcome Runs

def BUF_POOL_SIZE : Nat := 20000

/-! ## Sending little -/

section Send

variable {N : Nat} {bp : Pool} {io : Nat → IoData} {fd : Nat} {p : IoData} {q : Owner → List (List UInt8)}

/-- A round of `append_send_data` in a new buffer is the last one. -/
theorem appendLoop_short (h : Queues N bp (Function.update io fd p) q) (hfree : ¬Scarce N bp (Function.update io fd p) q)
    (fuel : Nat) {data : List UInt8} (hdata : data.length ≤ BUF_UNIT_SIZE) :
    ∃ r, appendLoop (fuel + 1) bp p none data = .ok r := by
  have hlink := linkOutBuf_ends h
  unfold appendLoop outBuf
  cases he : linkOutBuf bp p with
  | error e =>
      rw [he] at hlink
      exact absurd hlink.2 hfree
  | ok r =>
      obtain ⟨a, bp₂, p₂⟩ := r
      rw [he] at hlink
      have hempty : (bp₂.base a).data = [] := hlink.2.1
      simp only [bind, Except.bind]
      rw [if_pos (by rw [Buffer.size, hempty]; simpa using hdata)]
      exact ⟨_, rfl⟩

/-- What fits a buffer is sent with one more buffer at most. -/
theorem appendSendData_short (h : Queues N bp (Function.update io fd p) q) (ha : Alone fd q)
    (hn : (q (.input fd)).length + (q (.output fd)).length + 1 < N) {data : List UInt8}
    (hdata : data.length ≤ BUF_UNIT_SIZE) : ∃ r, appendSendData bp p data = .ok r := by
  unfold appendSendData
  cases ht : p.outBufTail with
  | none => exact appendLoop_short h (fun hs => absurd (hs.count ha) (by omega)) _ hdata
  | some c =>
      obtain ⟨own, hl, hq⟩ := h
      have hlast : (own (.output fd)).getLast? = some c := hl.tail_output.symm.trans ht
      obtain ⟨l, hx⟩ := List.getLast?_eq_some_iff.mp hlast
      have hout : q (.output fd) = bp.chunks l ++ [(bp.base c).data] := by
        rw [← hq _ (by simp), hx]
        simp [Pool.chunks]
      rw [appendLoop, outBuf]
      simp only [bind, Except.bind]
      rcases Classical.em (data.length ≤ BUF_UNIT_SIZE - (bp.base c).size) with hfit | hlong
      · rw [if_pos hfit]
        exact ⟨_, rfl⟩
      · rw [if_neg hlong]
        have hlast' : LastOut N bp (Function.update io fd p) fd q c (bp.chunks l) := ⟨own, l, hx, rfl, hl, hq⟩
        obtain ⟨hfill, -⟩ := hlast'.fill (data.take (BUF_UNIT_SIZE - (bp.base c).size))
        refine appendLoop_short hfill (fun hs => ?_) _ (by rw [List.length_drop]; omega)
        have hcount := hs.count (show Alone fd _ from fun y h₁ h₂ h₃ => by
          rw [Function.update_of_ne h₃]
          exact ha y h₁ h₂ h₃)
        rw [Function.update_self, Function.update_of_ne (by simp), List.length_append, List.length_singleton] at hcount
        rw [hout, List.length_append, List.length_singleton] at hn
        omega

end Send

/-! ## One call of `handle_input` -/

/-- A handler that answers the request with one short message at most. -/
def Brief {σ : Type} (handleCmd : Handler σ) (request : Request) : Prop :=
  ∀ s headerLen bodyLen shared, s.headBuf.read 0 headerLen = request.header →
    Ends (fun _ => True) (fun r => r.1 = .sent [] ∨ ∃ data, r.1 = .sent [data] ∧ data.length ≤ BUF_UNIT_SIZE)
      (handleCmd s headerLen bodyLen shared)

section Input

variable {σ : Type} {N : Nat} {handleCmd : Handler σ} {io : Nat → IoData} {fd : Nat} {c : Conn σ}
  {q : Owner → List (List UInt8)} {request : Request}

/-- The chunk has a buffer exactly if one more would be left. -/
theorem appendRecvData_fits (h : c.Good N io fd q) (ha : Alone fd q) (recv : Recv)
    (hn : (q (.input fd)).length + (q (.output fd)).length + 1 < N) :
    ∃ bp p, appendRecvData c.pool c.io recv = .ok (bp, p) ∧ p.framing = c.io.framing ∧
      Conn.Good N io fd { c with pool := bp, io := p } (Function.update q (.input fd) (q (.input fd) ++ [recv.got])) := by
  have hreceived := h.received recv
  cases he : appendRecvData c.pool c.io recv with
  | error e =>
      rw [he] at hreceived
      have := hreceived.2.count ha
      omega
  | ok r =>
      rw [he] at hreceived
      exact ⟨r.1, r.2, rfl, hreceived.2, hreceived.1⟩

/-- With the last buffer alone `alloc_buf` fails. -/
theorem handleInput_scarce (h : c.Good N io fd q) (ha : Alone fd q) (recv : Recv)
    (hn : N ≤ (q (.input fd)).length + (q (.output fd)).length + 1) :
    handleInput handleCmd c recv = .error .exhausted := by
  have hreceived := h.received recv
  rw [handleInput]
  cases he : appendRecvData c.pool c.io recv with
  | error e =>
      rw [he] at hreceived
      rw [show e = .exhausted from hreceived.1]
      rfl
  | ok r =>
      rw [he] at hreceived
      have ha' : Alone fd (Function.update q (.input fd) (q (.input fd) ++ [recv.got])) := by
        intro y h₁ h₂ h₃
        rw [Function.update_of_ne h₂]
        exact ha y h₁ h₂ h₃
      have hcount := hreceived.1.queues.count ha'
      rw [Function.update_self, Function.update_of_ne (by simp), List.length_append, List.length_singleton] at hcount
      omega

/-- A chunk that completes no request is queued behind the others. -/
theorem handleInput_waits (h : c.Good N io fd q) (hk : c.io.framing.Kept (q (.input fd))) (ha : Alone fd q) (chunk : Chunk)
    (hfront : frontRequest (q (.input fd) ++ [chunk.bytes]) = none)
    (hn : (q (.input fd)).length + (q (.output fd)).length + 1 < N) :
    ∃ c', handleInput handleCmd c (.bytes chunk) = .ok ([], c') ∧ c'.live = c.live ∧
      c'.Good N io fd (Function.update q (.input fd) (q (.input fd) ++ [chunk.bytes])) ∧
      c'.io.framing.Kept (q (.input fd) ++ [chunk.bytes]) := by
  obtain ⟨bp, p, he, hframe, hgood⟩ := appendRecvData_fits h ha (.bytes chunk) hn
  have hnext := (hk.append chunk.bytes).next
  rw [hfront, ← hframe] at hnext
  obtain ⟨f', hnext, hk'⟩ := hnext
  obtain ⟨bp', p', s', hreads⟩ := @dispatch_reads σ N handleCmd io fd _ _ hgood none f'
    (q (.input fd) ++ [chunk.bytes]) (by rw [Function.update_self]; exact hnext)
  obtain ⟨hdispatch, hf', -, hgood'⟩ := hreads
  refine ⟨{ c with pool := bp, io := p', scratch := s' }, ?_, rfl, hgood', by rwa [← hf'] at hk'⟩
  rw [handleInput_loop hgood he (by simp), Function.update_self, dispatchLoop, hdispatch]
  rfl

/-- The chunk that completes the request is received and the request handled. -/
theorem handleInput_completes (h : c.Good N io fd q) (hk : c.io.framing.Kept (q (.input fd))) (ha : Alone fd q)
    (chunk : Chunk) (hfront : frontRequest (q (.input fd) ++ [chunk.bytes]) = some (request, []))
    (hbrief : Brief handleCmd request) (hn : (q (.input fd)).length + (q (.output fd)).length + 1 < N) :
    handleInput handleCmd c (.bytes chunk) ≠ .error .exhausted := by
  obtain ⟨bp, p, he, hframe, hgood⟩ := appendRecvData_fits h ha (.bytes chunk) hn
  have hnext := (hk.append chunk.bytes).next
  rw [hfront, ← hframe] at hnext
  obtain ⟨w, hnext⟩ := hnext
  obtain ⟨bp', p', s', hreads⟩ := @dispatch_reads σ N handleCmd io fd _ _ hgood (some request) ⟨0, -1, w⟩
    [] (by rw [Function.update_self]; exact hnext)
  obtain ⟨hdispatch, -, hready⟩ := hreads
  rw [Function.update_idem] at hready
  have hsent := hbrief s' p'.headerLen p'.bodyLen c.shared hready.header
  have hends : Ends (Stops handleCmd) _ _ := passOn_ends hready
  rw [handleInput_loop hgood he (by simp), Function.update_self, dispatchLoop, hdispatch]
  cases hp : passOn handleCmd { c with pool := bp', io := p', scratch := s' } request with
  | ok r =>
      rw [hp] at hends
      obtain ⟨cs, os, hgood₂, hr, -, -, hcase⟩ := hends
      obtain ⟨r₁, c₂⟩ := r
      obtain rfl : r₁ = some request := hr
      have hcs : cs = [] := by
        rcases hcase with ⟨-, hcs⟩ | ⟨-, -, hcs, -⟩
        · rw [hcs, Function.update_self]
        · exact hcs
      have hpos : 0 < (q (.input fd) ++ [chunk.bytes]).flatten.length := by
        have := List.length_pos_of_ne_nil chunk.pos
        rw [List.flatten_append, List.length_append]
        simp only [List.flatten_cons, List.flatten_nil, List.append_nil]
        omega
      obtain ⟨n, hlen⟩ := Nat.exists_eq_succ_of_ne_zero (Nat.pos_iff_ne_zero.mp hpos)
      have hloop : dispatchLoop handleCmd (n + 1) c₂ = .ok ([], c₂) :=
        dispatchLoop_nil hgood₂.queues (by rw [withQueues_input, hcs]) n
      simp only [bind, Except.bind, show (Recv.bytes chunk).got = chunk.bytes from rfl, hlen]
      rw [show n.succ = n + 1 from rfl, hloop]
      exact fun e => by cases e
  | error e =>
      intro hbad
      have hexh : e = .exhausted := Except.error.inj (show Except.error e = _ from hbad)
      subst hexh
      rw [passOn] at hp
      cases hh : handleCmd s' p'.headerLen p'.bodyLen c.shared with
      | error f => simp only [hh] at hp; cases hp
      | ok a =>
          obtain ⟨answer, s₂, shared⟩ := a
          rw [hh] at hsent
          simp only [hh] at hp
          rcases hsent with hans | ⟨data, hans, hdata⟩
          · obtain rfl : answer = .sent [] := hans
            cases hp
          · obtain rfl : answer = .sent [data] := hans
            have ha' : Alone fd (Function.update q (.input fd) []) := by
              intro y h₁ h₂ h₃
              rw [Function.update_of_ne h₂]
              exact ha y h₁ h₂ h₃
            obtain ⟨r, hr⟩ := appendSendData_short hready.queues ha'
              (by rw [Function.update_self, Function.update_of_ne (by simp), List.length_nil]; omega) hdata
            simp only [Answer.perform, appendAll, show appendSendData bp' p' data = .ok r from hr, bind, Except.bind] at hp
            cases hp

end Input

/-! ## A request in chunks -/

section Feed

variable {σ : Type} {N : Nat} {handleCmd : Handler σ} {io : Nat → IoData} {fd : Nat} {c : Conn σ}
  {q : Owner → List (List UInt8)} {request : Request}

/-- Before its last byte a request is not complete, and with it nothing is left. -/
theorem frontRequest_single {size : Nat} {cs : List (List UInt8)} {future : List UInt8} (hc : Chunks size cs)
    (h : Frames size AtEnd (cs.flatten ++ future) [request]) :
    (future ≠ [] → frontRequest cs = none) ∧ (future = [] → frontRequest cs = some (request, [])) := by
  rcases h.front stable_atEnd hc with ⟨hnone, hend⟩ | ⟨request', rest, more, hsome, he, hrest⟩
  · exact ⟨fun _ => hnone, fun hf => absurd (hend hf) (by simp)⟩
  · obtain ⟨rfl, rfl⟩ := List.cons.inj he
    obtain ⟨hflat, hfut⟩ := List.append_eq_nil_iff.mp hrest.nil.1
    refine ⟨fun hf => absurd hfut hf, fun _ => ?_⟩
    obtain ⟨hchunks, -⟩ := hc.front hsome
    cases rest with
    | nil => exact hsome
    | cons d ds => exact absurd (List.append_eq_nil_iff.mp hflat).1 (hchunks d List.mem_cons_self).1

/-- The chunks of one request fit as long as there are buffers for all of them but one. -/
theorem feed_single (hbrief : Brief handleCmd request) : ∀ (chunks : List Chunk) {c : Conn σ} {q : Owner → List (List UInt8)},
    c.Good N io fd q → c.io.framing.Kept (q (.input fd)) → c.live = true → Alone fd q → Chunks BUF_UNIT_SIZE (q (.input fd)) →
    chunks ≠ [] → Frames BUF_UNIT_SIZE AtEnd ((q (.input fd)).flatten ++ (chunks.map Chunk.bytes).flatten) [request] →
    (feed handleCmd c chunks ≠ .error .exhausted ↔
      (q (.input fd)).length + (q (.output fd)).length + chunks.length < N) := by
  intro chunks
  induction chunks with
  | nil => intro c q _ _ _ _ _ hne; exact absurd rfl hne
  | cons chunk chunks ih =>
      intro c q h hk hlive ha hc _ hframes
      have hc' : Chunks BUF_UNIT_SIZE (q (.input fd) ++ [chunk.bytes]) := hc.append ⟨chunk.pos, chunk.fits⟩
      rw [List.map_cons, List.flatten_cons, ← List.append_assoc,
        show (q (.input fd)).flatten ++ chunk.bytes = (q (.input fd) ++ [chunk.bytes]).flatten by simp] at hframes
      obtain ⟨hwait, hlast⟩ := frontRequest_single hc' hframes
      rw [feed, if_pos hlive, List.length_cons]
      rcases Nat.lt_or_ge ((q (.input fd)).length + (q (.output fd)).length + 1) N with hn | hn
      · cases chunks with
        | nil =>
            have hfits := handleInput_completes h hk ha chunk (hlast rfl) hbrief hn
            refine iff_of_true ?_ (by simpa using hn)
            cases he : handleInput handleCmd c (.bytes chunk) with
            | error e =>
                intro hbad
                obtain rfl : e = .exhausted := Except.error.inj (show Except.error e = _ from hbad)
                exact hfits he
            | ok r => exact fun e => by cases e
        | cons chunk' chunks' =>
            have hne : ((chunk' :: chunks').map Chunk.bytes).flatten ≠ [] := fun e =>
              chunk'.pos (List.append_eq_nil_iff.mp e).1
            obtain ⟨c', he, hlive', hgood', hk'⟩ := @handleInput_waits σ N handleCmd io fd c q h hk ha chunk (hwait hne) hn
            have hin : Function.update q (.input fd) (q (.input fd) ++ [chunk.bytes]) (.input fd)
                = q (.input fd) ++ [chunk.bytes] := Function.update_self _ _ _
            have hout : Function.update q (.input fd) (q (.input fd) ++ [chunk.bytes]) (.output fd) = q (.output fd) :=
              Function.update_of_ne (by simp) _ _
            have ha' : Alone fd (Function.update q (.input fd) (q (.input fd) ++ [chunk.bytes])) := by
              intro y h₁ h₂ h₃
              rw [Function.update_of_ne h₂]
              exact ha y h₁ h₂ h₃
            have hrest := ih hgood' (by rwa [hin]) (hlive'.trans hlive) ha' (by rwa [hin]) (List.cons_ne_nil _ _)
              (by rwa [hin])
            rw [hin, hout, List.length_append, List.length_singleton] at hrest
            rw [he, show (q (.input fd)).length + (q (.output fd)).length + ((chunk' :: chunks').length + 1)
              = (q (.input fd)).length + 1 + (q (.output fd)).length + (chunk' :: chunks').length by omega, ← hrest]
            refine not_congr ?_
            simp only [bind, Except.bind]
            cases feed handleCmd c' (chunk' :: chunks') with
            | error e => exact Iff.rfl
            | ok r => exact iff_of_false (fun e => by cases e) (fun e => by cases e)
      · refine iff_of_false (not_not_intro ?_) (by omega)
        rw [handleInput_scarce h ha (.bytes chunk) hn]
        rfl

end Feed

/-! ## `set` requests -/

/-- A line that `get_body_len` takes for a `set`, and the body it declares. -/
structure SetRequest where
  header : List UInt8
  body : List UInt8
  nul : 0 ∉ header
  lf : 10 ∉ header
  method : startsWith header (ascii "set") = true
  declared : declaredLen header = some body.length
  limit : body.length ≤ VALUE_LIMIT

namespace SetRequest

def wire (r : SetRequest) : List UInt8 := r.header ++ crlf ++ r.body ++ crlf

def request (r : SetRequest) : Request := ⟨r.header, r.body⟩

theorem frames (r : SetRequest) : Frames BUF_UNIT_SIZE AtEnd r.wire [r.request] := by
  have hl : Visible BUF_UNIT_SIZE (r.header ++ [13]) :=
    visible_crlf fun b hb => ⟨fun e => r.nul (e ▸ hb), fun e => r.lf (e ▸ hb)⟩
  have hdrop : (r.header ++ [13]).dropLast = r.header := List.dropLast_concat
  have hd : declaredLen (cstr (r.header ++ [13]).dropLast) = some (r.body.length : Int) := by
    rw [hdrop, cstr_of_nul_free r.nul]
    exact r.declared
  have hclamp : (clampLen (r.body.length : Int)).toNat = r.body.length := by
    have hlimit := r.limit
    rw [clampLen, if_neg (by omega), if_neg (by omega), Int.toNat_natCast]
  have htail : (r.body ++ crlf).drop (r.body.length + 2) = [] := by
    rw [show r.body.length + 2 = (r.body ++ crlf).length by simp [crlf], List.drop_length]
  have hframes := Frames.body (t := r.body ++ crlf) hl hd (by rw [hclamp]; simp [crlf])
    (by rw [hclamp, htail]; exact .rest (show AtEnd [] [] from ⟨rfl, rfl⟩))
  rwa [hdrop, hclamp, List.take_left, show (r.header ++ [13]) ++ 10 :: (r.body ++ crlf) = r.wire by
    simp [wire, crlf]] at hframes

end SetRequest

/-- Whatever becomes of a `set`, it is answered with `STORED` or with nothing. -/
theorem cmdDoSet_brief {ι : Type} (ix : ScanIndex ι) (now : Int) (line : List UInt8) (body : Buf) (st : Store ι) :
    Ends (fun _ => True) (fun r => r.1 = [] ∨ ∃ data, r.1 = [data] ∧ data.length ≤ BUF_UNIT_SIZE)
      (cmdDoSet ix now line body st) := by
  refine Ends.bind (ends_trivial _) fun args _ => ?_
  rcases args with - | ⟨key, flag, expire, bodyLen⟩
  · exact ends_pure.mpr (Or.inl rfl)
  · simp only
    rcases Classical.em (bodyLen < 0) with hneg | hneg
    · rw [if_pos hneg]
      exact ends_pure.mpr (Or.inl rfl)
    · rw [if_neg hneg]
      refine Ends.bind (ends_trivial _) fun bytes _ => ?_
      have hreply : Ends (fun _ => True) (fun r => r.1 = Reply.stored)
          (perform ix st (.ok (.stored, setPlan now st key bodyLen flag expire bytes))) := by
        refine Ends.bind (show Ends (fun _ => True) (fun r : Reply × List Act => r.1 = .stored) (.ok _) from rfl) ?_
        rintro ⟨reply, acts⟩ rfl
        exact Ends.bind (ends_trivial _) fun _ _ => ends_pure.mpr rfl
      refine Ends.bind hreply ?_
      rintro ⟨reply, st'⟩ rfl
      refine ends_pure.mpr ?_
      rw [sendUnlessNoreply]
      split_ifs
      · exact Or.inl rfl
      · exact Or.inr ⟨_, rfl, show (ascii "STORED\r\n").length ≤ BUF_UNIT_SIZE by decide⟩

theorem brief_set {ι : Type} (ix : ScanIndex ι) (now : Int) (r : SetRequest) : Brief (handleCmd ix now) r.request := by
  intro s headerLen bodyLen shared hheader
  refine Ends.bind (Ends.excuse (terminate_ends s headerLen bodyLen) fun _ _ => trivial) ?_
  rintro s₁ ⟨-, -, hline⟩
  have hset : methodOf (lineOf s₁ headerLen) = .set := by
    rw [hline, Scratch.line, show s.headBuf.read 0 headerLen = r.header from hheader, cstr_of_nul_free r.nul, methodOf,
      if_pos r.method]
  have hrun : Ends (fun _ => True) (fun a => a.1 = .sent [] ∨ ∃ data, a.1 = .sent [data] ∧ data.length ≤ BUF_UNIT_SIZE)
      (runCmd ix now (lineOf s₁ headerLen) s₁ shared) := by
    unfold runCmd
    rw [hset]
    refine Ends.map (cmdDoSet_brief ix now _ _ _) ?_
    rintro ⟨chunks, st⟩ (h | ⟨data, h, hdata⟩)
    · exact Or.inl (congrArg Answer.sent h)
    · exact Or.inr ⟨data, congrArg Answer.sent h, hdata⟩
  exact Ends.bind hrun fun a ha => ends_pure.mpr ha

/-- A connection that waits for its next request, with `held` buffers still to be sent,
on a worker with `nItems` buffers whose other connections hold none. -/
structure Conn.Waiting {σ : Type} (nItems held : Nat) (c : Conn σ) : Prop where
  pool : ∃ io fd q, c.Good nItems io fd q ∧ Alone fd q ∧ q (.input fd) = [] ∧ (q (.output fd)).length = held
  headerLen : c.io.headerLen = 0
  bodyLen : c.io.bodyLen = -1
  live : c.live = true

theorem feed_set {ι : Type} (ix : ScanIndex ι) (now : Int) {N : Nat} {io : Nat → IoData} {fd : Nat}
    {q : Owner → List (List UInt8)} {c : Conn (Shared ι)} (h : c.Good N io fd q) (ha : Alone fd q) (hin : q (.input fd) = [])
    (hhl : c.io.headerLen = 0) (hbl : c.io.bodyLen = -1) (hlive : c.live = true) (r : SetRequest) (chunks : List Chunk)
    (hcut : (chunks.map Chunk.bytes).flatten = r.wire) :
    feed (handleCmd ix now) c chunks ≠ .error .exhausted ↔ (q (.output fd)).length + chunks.length < N := by
  have hk : c.io.framing.Kept (q (.input fd)) := by
    rw [IoData.framing, hhl, hbl]
    exact Framing.kept_fresh _ _
  have hne : chunks ≠ [] := by
    rintro rfl
    exact absurd (congrArg List.length hcut) (by simp [SetRequest.wire, crlf])
  have hfeed := feed_single (brief_set ix now r) chunks h hk hlive ha
    (by rw [hin]; exact fun _ hm => absurd hm List.not_mem_nil) hne (by rw [hin, hcut]; exact r.frames)
  rwa [hin, List.length_nil, Nat.zero_add] at hfeed

/-- The connection a worker accepts first waits for its first request. -/
theorem waiting_first {σ : Type} {nItems : Nat} (hn : 0 < nItems) (scratch : Scratch) (shared : σ) :
    (Conn.first nItems scratch shared).Waiting nItems 0 :=
  ⟨⟨_, 0, _, good_first hn scratch shared, fun _ _ _ _ => rfl, rfl, rfl⟩, rfl, rfl, rfl⟩

/-- A `set` is received and handled without a failure of `alloc_buf` exactly if its
chunks and what the connection still has to send leave one buffer of the pool. -/
theorem set_fits_pool_iff {ι : Type} (ix : ScanIndex ι) (now : Int) {nItems held : Nat} {c : Conn (Shared ι)}
    (hc : c.Waiting nItems held) (r : SetRequest) (chunks : List Chunk)
    (hcut : (chunks.map Chunk.bytes).flatten = r.wire) :
    feed (handleCmd ix now) c chunks ≠ .error .exhausted ↔ held + chunks.length < nItems := by
  obtain ⟨io, fd, q, hgood, ha, hin, rfl⟩ := hc.pool
  exact feed_set ix now hgood ha hin hc.headerLen hc.bodyLen hc.live r chunks hcut

/-- `set k 0 0 20000` and as many letters, which is far below `VALUE_LIMIT`. -/
def manyLetters : SetRequest where
  header := ascii "set k 0 0 20000"
  body := List.replicate 20000 97
  nul := by decide
  lf := by decide
  method := by decide
  declared := by
    rw [List.length_replicate]
    decide
  limit := by
    rw [List.length_replicate]
    decide

/-- The same request as the segments of a client that sends byte by byte. -/
def byteByByte (bytes : List UInt8) : List Chunk :=
  bytes.map fun b => ⟨[b], List.cons_ne_nil b [], show 1 ≤ BUF_UNIT_SIZE by decide⟩

theorem byteByByte_flatten (bytes : List UInt8) : ((byteByByte bytes).map Chunk.bytes).flatten = bytes := by
  induction bytes with
  | nil => rfl
  | cons b bytes ih => exact congrArg (b :: ·) ih

theorem set_fits_pool_iff_manyLetters :
    (Conn.first 8 ⟨fun _ => 0, fun _ => 0⟩ Shared.empty).Waiting 8 0 ∧
    ((byteByByte manyLetters.wire).map Chunk.bytes).flatten = manyLetters.wire ∧
    (feed (handleCmd ScanIndex.map 0) (Conn.first 8 ⟨fun _ => 0, fun _ => 0⟩ Shared.empty) (byteByByte manyLetters.wire)
        ≠ .error .exhausted ↔ 0 + (byteByByte manyLetters.wire).length < 8) :=
  have hc := waiting_first (show 0 < 8 by decide) ⟨fun _ => 0, fun _ => 0⟩ Shared.empty
  ⟨hc, byteByByte_flatten _, set_fits_pool_iff ScanIndex.map 0 hc manyLetters _ (byteByByte_flatten _)⟩

/-- Sent byte by byte, twenty thousand letters take all buffers of a worker and more. -/
theorem manyLetters_exhaust_pool : ∃ (c : Conn (Shared KeyMap)) (chunks : List Chunk), c.Waiting BUF_POOL_SIZE 0 ∧
    (chunks.map Chunk.bytes).flatten = manyLetters.wire ∧ manyLetters.body.length ≤ VALUE_LIMIT ∧
    feed (handleCmd ScanIndex.map 0) c chunks = .error .exhausted := by
  have hn : 0 < BUF_POOL_SIZE := by norm_num [BUF_POOL_SIZE]
  refine ⟨Conn.first BUF_POOL_SIZE ⟨fun _ => 0, fun _ => 0⟩ Shared.empty, byteByByte manyLetters.wire, waiting_first hn _ _,
    byteByByte_flatten _, manyLetters.limit, ?_⟩
  by_contra hfits
  have hlt := (feed_set ScanIndex.map 0 (good_first hn _ _) (fun _ _ _ _ => rfl) rfl rfl rfl rfl manyLetters _
    (byteByByte_flatten _)).mp hfits
  have hlen : manyLetters.body.length = 20000 := List.length_replicate
  rw [byteByByte, List.length_map, SetRequest.wire] at hlt
  simp only [List.length_append, hlen, BUF_POOL_SIZE, List.length_nil] at hlt
  omega

end Tstdb
