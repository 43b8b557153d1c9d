/-
# `Tstdb.Server.Stream` — requests cut from a stream of bytes

What `handle_input` keeps of a request that is not complete (`header_len`, `body_len`,
`is_write_cmd`) is what it would find again: the next request is given by the queued
chunks alone (`frontRequest`).  So a connection that is fed chunk by chunk passes on what
`serve` takes off the queue (`feed_ends`).

`Frames Q` reads a stream without looking at the chunks: lines, each ending in a line
feed that is found however the stream is cut, bodies behind the lines that declare one,
and at the end what `Q` knows how to go on with.  A cut does not change what is read that
way (`serve_frames`).
-/
import Mathlib
import Tstdb.Lib.Runs
import Tstdb.Lib.CText
import Tstdb.Lib.Bytes
import Tstdb.Lib.Chains
import Tstdb.Lib.Outcome
import Tstdb.Tst.Arena
import Tstdb.Tst.Runs
import Tstdb.Server.Index
import Tstdb.Server.Store
import Tstdb.Server.Pool
import Tstdb.Server.Buffers
import Tstdb.Server.Framing

namespace Tstdb

open CText Bytes Chains Outcome Runs

/-- The request a queue starts with, and what is queued behind it. -/
def frontRequest (cs : List (List UInt8)) : Option (Request × List (List UInt8)) :=
  match findHeader cs 0 with
  | none => none
  | some hdLen =>
      let header := cs.flatten.take (hdLen - 1)
      match declaredLen (cstr header) with
      | none => some (⟨header, []⟩, dropBytes (hdLen - 1 + 2) cs)
      | some valueLen =>
          let bodyLen := (clampLen valueLen).toNat
          if hdLen - 1 + 4 + bodyLen ≤ cs.flatten.length then
            some (⟨header, (cs.flatten.drop (hdLen - 1 + 2)).take bodyLen⟩,
              dropBytes (bodyLen + 2) (dropBytes (hdLen - 1 + 2) cs))
          else none

/-- All requests of a queue, at most as many as the first argument says. -/
def drain : Nat → List (List UInt8) → List Request × List (List UInt8)
  | 0, cs => ([], cs)
  | n + 1, cs =>
      match frontRequest cs with
      | none => ([], cs)
      | some (request, rest) =>
          let (requests, rest) := drain n rest
          (request :: requests, rest)

/-- All requests of a queue behind which chunks come in one by one. -/
def serve : List (List UInt8) → List (List UInt8) → List Request × List (List UInt8)
  | cs, [] => ([], cs)
  | cs, chunk :: chunks =>
      let (requests, cs) := drain ((cs ++ [chunk]).flatten.length + 1) (cs ++ [chunk])
      let (more, cs) := serve cs chunks
      (requests ++ more, cs)

/-- A connection that is fed chunk by chunk; one that is gone is fed no more. -/
def feed {σ : Type} (handleCmd : Handler σ) : Conn σ → List Chunk → Except Halt (List Request × Conn σ)
  | c, [] => .ok ([], c)
  | c, chunk :: chunks =>
      if c.live = true then do
        let (requests, c) ← handleInput handleCmd c (.bytes chunk)
        let (more, c) ← feed handleCmd c chunks
        return (requests ++ more, c)
      else .ok ([], c)

/-! ## Line feeds in a queue -/

section Find

variable {cs ds : List (List UInt8)} {n hdLen : Nat}

theorem findHeader_append : ∀ {cs : List (List UInt8)} {n : Nat}, findHeader (cs ++ ds) n
    = (findHeader cs n).or (findHeader ds (n + cs.flatten.length)) := by
  intro cs
  induction cs with
  | nil => intro n; rfl
  | cons q qs ih =>
      intro n
      rw [List.cons_append, findHeader, findHeader]
      cases (cstr q).findIdx? (· = 10) with
      | none => simp only [ih, List.flatten_cons, List.length_append, Nat.add_assoc]
      | some pos => rfl

theorem le_findHeader : ∀ {cs : List (List UInt8)} {n : Nat}, findHeader cs n = some hdLen → n ≤ hdLen := by
  intro cs
  induction cs with
  | nil => intro n h; cases h
  | cons q qs ih =>
      intro n h
      rw [findHeader] at h
      cases hf : (cstr q).findIdx? (· = 10) with
      | none =>
          rw [hf] at h
          have := ih h
          omega
      | some pos =>
          rw [hf] at h
          cases h
          omega

/-- What is found is a line feed. -/
theorem getElem?_findHeader : ∀ {cs : List (List UInt8)} {n : Nat}, findHeader cs n = some hdLen →
    cs.flatten[hdLen - n]? = some 10 := by
  intro cs
  induction cs with
  | nil => intro n h; cases h
  | cons q qs ih =>
      intro n h
      rw [findHeader] at h
      rw [List.flatten_cons]
      cases hf : (cstr q).findIdx? (· = 10) with
      | none =>
          rw [hf] at h
          have hle := le_findHeader h
          rw [List.getElem?_append_right (by omega), Nat.sub_sub]
          exact ih h
      | some pos =>
          rw [hf] at h
          cases h
          obtain ⟨hlt, hpos, -⟩ := List.findIdx?_eq_some_iff_getElem.mp hf
          have hle : (cstr q).length ≤ q.length := (List.takeWhile_sublist _).length_le
          have hpre : cstr q <+: q := List.takeWhile_prefix _
          rw [Nat.add_sub_cancel_left, List.getElem?_append_left (by omega), List.getElem?_eq_getElem (by omega),
            ← hpre.getElem hlt]
          exact congrArg some (by simpa using hpos)

/-- Without a line feed nothing is found. -/
theorem findHeader_eq_none (h : 10 ∉ cs.flatten) : findHeader cs n = none := by
  cases hf : findHeader cs n with
  | none => rfl
  | some hdLen => exact absurd (List.mem_of_getElem? (getElem?_findHeader hf)) h

/-- A line feed is found unless a NUL comes before it in its chunk. -/
theorem findHeader_line {size : Nat} : ∀ {cs : List (List UInt8)} {n : Nat} {l u : List UInt8},
    (∀ c ∈ cs, c.length ≤ size) → cs.flatten = l ++ 10 :: u → 10 ∉ l → 0 ∉ l.drop (l.length + 1 - size) →
    findHeader cs n = some (n + l.length) := by
  intro cs
  induction cs with
  | nil => intro n l u _ h; exact absurd (congrArg List.length h) (by simp)
  | cons q qs ih =>
      intro n l u hsize h hlf hnul
      rw [List.flatten_cons] at h
      rcases Nat.lt_or_ge l.length q.length with hlt | hge
      · -- the line feed lies in the first chunk
        obtain ⟨m, hq⟩ : l ++ [10] <+: q :=
          List.prefix_of_prefix_length_le ⟨u, by rw [h]; simp⟩ (List.prefix_append q qs.flatten) (by simpa using hlt)
        have hfree : 0 ∉ l := by
          have hlen := hsize q List.mem_cons_self
          rw [← hq, List.length_append, List.length_append, List.length_singleton] at hlen
          rwa [show l.length + 1 - size = 0 by omega, List.drop_zero] at hnul
        have hcstr : cstr q = l ++ cstr (10 :: m) := by
          rw [← hq, List.append_assoc, cstr,
            List.takeWhile_append_of_pos fun b hb => by simpa using fun e : b = 0 => hfree (e ▸ hb)]
          rfl
        have hfind : (cstr q).findIdx? (· = 10) = some l.length := by
          rw [hcstr, List.findIdx?_append, List.findIdx?_eq_none_iff.mpr fun b hb => by
            simpa using fun e : b = 10 => hlf (e ▸ hb)]
          simp [cstr, List.findIdx?_cons]
        rw [findHeader, hfind]
      · -- the line goes on behind it
        obtain ⟨m, hl⟩ : q <+: l :=
          List.prefix_of_prefix_length_le (List.prefix_append q qs.flatten) ⟨10 :: u, h.symm⟩ hge
        have hfind : (cstr q).findIdx? (· = 10) = none := by
          refine List.findIdx?_eq_none_iff.mpr fun b hb => ?_
          have hbq : b ∈ q := (List.takeWhile_prefix _).subset hb
          simpa using fun e : b = 10 => hlf (by rw [← hl, ← e]; exact List.mem_append_left _ hbq)
        have htail : 0 ∉ m.drop (m.length + 1 - size) := by
          refine fun hm => hnul ?_
          rw [← hl, List.drop_append, List.length_append]
          refine List.mem_append_right _ ?_
          rwa [show q.length + m.length + 1 - size - q.length = m.length + 1 - size by omega]
        have hrest : qs.flatten = m ++ 10 :: u := by
          rw [← hl, List.append_assoc] at h
          exact List.append_cancel_left h
        rw [findHeader, hfind]
        simp only
        rw [ih (fun c hc => hsize c (List.mem_cons_of_mem _ hc)) hrest
          (fun hm => hlf (by rw [← hl]; exact List.mem_append_right _ hm)) htail, ← hl, List.length_append,
          Nat.add_assoc]

end Find

theorem format_set : format "set %s %d %d %d".toList = (ascii "set").map Dir.lit ++
    [.space, .str, .space, .int, .space, .int, .space, .int] := by decide

theorem format_cas : format "cas %s %d %d %d %llu".toList = (ascii "cas").map Dir.lit ++
    [.space, .str, .space, .int, .space, .int, .space, .int, .space, .ull] := by decide

/-- Only lines that start with `set` or `cas` declare a body. -/
theorem declaredLen_method {line : List UInt8} {valueLen : Int} (h : declaredLen line = some valueLen) :
    ascii "set" <+: line ∨ ascii "cas" <+: line := by
  by_contra hno
  obtain ⟨hset, hcas⟩ := not_or.mp hno
  rw [declaredLen, sscanf, sscanf, format_set, format_cas, scan_lits_nil _ hset, scan_lits_nil _ hcas] at h
  cases h

/-! ## What is kept of a request -/

/-- What is kept is what would be found again. -/
structure Framing.Kept (f : Framing) (cs : List (List UInt8)) : Prop where
  header : 0 < f.headerLen → ∃ hdLen, findHeader cs 0 = some hdLen ∧ hdLen - 1 = f.headerLen
  body : 0 ≤ f.bodyLen → 0 < f.headerLen ∧ f.isWriteCmd = true ∧
    ∃ valueLen, declaredLen (cstr (cs.flatten.take f.headerLen)) = some valueLen ∧ f.bodyLen = clampLen valueLen

section Kept

variable {f : Framing} {cs : List (List UInt8)}

theorem Framing.kept_fresh (w : Bool) (cs : List (List UInt8)) : Framing.Kept ⟨0, -1, w⟩ cs :=
  ⟨fun h => absurd h (by simp), fun h => absurd h (by simp)⟩

theorem Framing.Kept.header? (h : f.Kept cs) : f.header? cs = (findHeader cs 0).map (· - 1) := by
  unfold Framing.header?
  split_ifs with h₁ h₂
  · rw [h₁]
    rfl
  · obtain ⟨hdLen, hf, he⟩ := h.header h₂
    rw [hf, ← he]
    rfl
  · rfl

/-- A header that has been found stays found. -/
theorem Framing.Kept.append (h : f.Kept cs) (chunk : List UInt8) : f.Kept (cs ++ [chunk]) := by
  refine ⟨fun hpos => ?_, fun hbody => ?_⟩
  · obtain ⟨hdLen, hf, he⟩ := h.header hpos
    exact ⟨hdLen, by rw [findHeader_append, hf]; rfl, he⟩
  · obtain ⟨hpos, hw, v, hv, he⟩ := h.body hbody
    obtain ⟨hdLen, hf, hhl⟩ := h.header hpos
    have hlt := findHeader_lt hf
    refine ⟨hpos, hw, v, ?_, he⟩
    rwa [List.flatten_append, List.take_append_of_le_length (by omega)]

/-- The next request depends on the queue alone. -/
theorem Framing.Kept.next (h : f.Kept cs) :
    match frontRequest cs with
    | none => ∃ f', f.next cs = (none, f', cs) ∧ f'.Kept cs
    | some (request, rest) => ∃ w, f.next cs = (some request, ⟨0, -1, w⟩, rest) := by
  unfold Framing.next frontRequest
  rw [h.header?]
  cases hf : findHeader cs 0 with
  | none => exact ⟨f, rfl, h⟩
  | some hdLen =>
      have hclass : { f with headerLen := hdLen - 1 }.classify (cs.flatten.take (hdLen - 1))
          = match declaredLen (cstr (cs.flatten.take (hdLen - 1))) with
            | none => ⟨hdLen - 1, 0, false⟩
            | some v => ⟨hdLen - 1, clampLen v, true⟩ := by
        unfold Framing.classify
        rcases lt_or_ge f.bodyLen 0 with hb | hb
        · rw [if_neg (not_le.mpr hb)]
          cases declaredLen (cstr (cs.flatten.take (hdLen - 1))) <;> rfl
        · obtain ⟨hpos, hw, v, hv, he⟩ := h.body hb
          obtain ⟨hdLen', hf', hhl⟩ := h.header hpos
          obtain rfl : hdLen = hdLen' := Option.some.inj (hf.symm.trans hf')
          rw [if_pos hb, hhl, hv, hw, he]
      simp only [Option.map_some, hclass]
      cases hd : declaredLen (cstr (cs.flatten.take (hdLen - 1))) with
      | none => exact ⟨false, rfl⟩
      | some v =>
          have hv := clampLen_nonneg v
          simp only [Bool.true_eq_false, if_false]
          rcases Classical.em (hdLen - 1 + 4 + (clampLen v).toNat ≤ cs.flatten.length) with hall | hall
          · rw [if_pos hall, if_pos ⟨hv, by omega⟩]
            exact ⟨true, rfl⟩
          · rw [if_neg hall, if_neg fun e => hall (by have := e.2; omega)]
            refine ⟨_, rfl, fun hpos => ⟨hdLen, hf, rfl⟩, fun _ => ⟨?_, rfl, v, hd, rfl⟩⟩
            rcases Nat.eq_zero_or_pos (hdLen - 1) with hz | hpos
            · rw [hz, List.take_zero, show declaredLen (cstr []) = none by decide] at hd
              cases hd
            · exact hpos

theorem Framing.Kept.run : ∀ (n : Nat) {f : Framing} {cs : List (List UInt8)}, f.Kept cs →
    ∃ f', f.run n cs = ((drain n cs).1, f', (drain n cs).2) ∧ f'.Kept (drain n cs).2 := by
  intro n
  induction n with
  | zero => intro f cs h; exact ⟨f, rfl, h⟩
  | succ n ih =>
      intro f cs h
      have hnext := h.next
      unfold Framing.run drain
      cases hfront : frontRequest cs with
      | none =>
          rw [hfront] at hnext
          obtain ⟨f', he, hk⟩ := hnext
          rw [he]
          exact ⟨f', rfl, hk⟩
      | some r =>
          obtain ⟨request, rest⟩ := r
          rw [hfront] at hnext
          obtain ⟨w, he⟩ := hnext
          obtain ⟨f', hrun, hk⟩ := ih (Framing.kept_fresh w rest)
          rw [he]
          simp only [hrun]
          exact ⟨f', rfl, hk⟩

end Kept

/-! ## Reading a stream -/

/-- The line ends in a line feed that is found whatever chunks it comes in, and not at once. -/
structure Visible (size : Nat) (l : List UInt8) : Prop where
  ne_nil : l ≠ []
  lf : 10 ∉ l
  nul : 0 ∉ l.drop (l.length + 1 - size)

/-- The requests of a stream that comes in chunks of at most `size` bytes: lines and
bodies, up to where `Q` goes on. -/
inductive Frames (size : Nat) (Q : List UInt8 → List Request → Prop) : List UInt8 → List Request → Prop where
  | rest {s : List UInt8} {requests : List Request} (h : Q s requests) : Frames size Q s requests
  | line {l t : List UInt8} {requests : List Request} (hl : Visible size l)
      (hd : declaredLen (cstr l.dropLast) = none) (ht : Frames size Q t requests) :
      Frames size Q (l ++ 10 :: t) (⟨l.dropLast, []⟩ :: requests)
  | body {l t : List UInt8} {requests : List Request} {valueLen : Int} (hl : Visible size l)
      (hd : declaredLen (cstr l.dropLast) = some valueLen) (hn : (clampLen valueLen).toNat + 2 ≤ t.length)
      (ht : Frames size Q (t.drop ((clampLen valueLen).toNat + 2)) requests) :
      Frames size Q (l ++ 10 :: t) (⟨l.dropLast, t.take (clampLen valueLen).toNat⟩ :: requests)

/-- The chunks of a queue. -/
def Chunks (size : Nat) (cs : List (List UInt8)) : Prop := ∀ c ∈ cs, c ≠ [] ∧ c.length ≤ size

instance (size : Nat) (cs : List (List UInt8)) : Decidable (Chunks size cs) :=
  inferInstanceAs (Decidable (∀ c ∈ cs, c ≠ [] ∧ c.length ≤ size))

/-- What a queue of the first bytes of a stream gives: nothing yet, or the first request. -/
def Fronts (Q : List UInt8 → List Request → Prop) (cs : List (List UInt8)) (future : List UInt8)
    (requests : List Request) : Prop :=
  frontRequest cs = none ∧ (future = [] → requests = []) ∨
    ∃ request rest more, frontRequest cs = some (request, rest) ∧ requests = request :: more ∧
      Q (rest.flatten ++ future) more

/-- What follows the lines and bodies does not depend on the cut either. -/
def Stable (size : Nat) (Q : List UInt8 → List Request → Prop) : Prop :=
  ∀ cs future requests, Chunks size cs → Q (cs.flatten ++ future) requests → Fronts (Frames size Q) cs future requests

section Serve

variable {size : Nat} {Q : List UInt8 → List Request → Prop} {cs : List (List UInt8)} {future : List UInt8} {requests : List Request}

theorem Chunks.dropBytes (h : Chunks size cs) : ∀ k, Chunks size (dropBytes k cs) := by
  induction cs with
  | nil => exact fun k => h
  | cons c cs ih =>
      intro k
      have htail : Chunks size cs := fun c' hc => h c' (List.mem_cons_of_mem _ hc)
      rw [Tstdb.dropBytes]
      split_ifs with hk
      · exact ih htail _
      · rintro c' hc
        rcases List.mem_cons.mp hc with rfl | hc
        · have hlen := (h c List.mem_cons_self).2
          refine ⟨fun e => hk (List.drop_eq_nil_iff.mp e), ?_⟩
          rw [List.length_drop]
          omega
        · exact htail c' hc

theorem Chunks.front (h : Chunks size cs) {request : Request} {rest : List (List UInt8)}
    (hf : frontRequest cs = some (request, rest)) : Chunks size rest ∧ rest.flatten.length < cs.flatten.length := by
  unfold frontRequest at hf
  cases hh : findHeader cs 0 with
  | none => rw [hh] at hf; cases hf
  | some hdLen =>
      have hlt := findHeader_lt hh
      simp only [hh] at hf
      split at hf
      · cases hf
        refine ⟨h.dropBytes _, ?_⟩
        rw [flatten_dropBytes, List.length_drop]
        omega
      · split_ifs at hf
        cases hf
        refine ⟨(h.dropBytes _).dropBytes _, ?_⟩
        simp only [flatten_dropBytes, List.length_drop]
        omega

/-- Where no request follows `Q` has come to its end. -/
theorem Frames.nil {s : List UInt8} (h : Frames size Q s []) : Q s [] := by
  cases h with
  | rest h => exact h

/-- The queue holds a part of the line, or the whole line. -/
theorem queue_line {l t : List UInt8} (h : cs.flatten ++ future = l ++ 10 :: t) :
    (cs.flatten <+: l ∧ future ≠ []) ∨ ∃ u, cs.flatten = l ++ 10 :: u ∧ t = u ++ future := by
  rcases List.append_eq_append_iff.mp h with ⟨m, hl, hfut⟩ | ⟨m, hcs, hrest⟩
  · exact Or.inl ⟨⟨m, hl.symm⟩, by rw [hfut]; simp⟩
  · cases m with
    | nil => exact Or.inl ⟨⟨[], by rw [hcs]; simp⟩, fun e => by rw [e] at hrest; cases hrest⟩
    | cons b u =>
        obtain ⟨rfl, rfl⟩ : 10 = b ∧ t = u ++ future := by simpa using hrest
        exact Or.inr ⟨u, hcs, rfl⟩

/-- Up to the line feed of a visible line there is no request. -/
theorem front_initial {l : List UInt8} (hl : 10 ∉ l) (h : cs.flatten <+: l) : frontRequest cs = none := by
  rw [frontRequest, findHeader_eq_none fun hm => hl (h.subset hm)]

theorem Visible.findHeader {l u : List UInt8} (hl : Visible size l) (hc : Chunks size cs) (h : cs.flatten = l ++ 10 :: u) :
    findHeader cs 0 = some l.length ∧ cs.flatten.take (l.length - 1) = l.dropLast ∧
      cs.flatten.drop (l.length - 1 + 2) = u := by
  have hlen := List.length_pos_of_ne_nil hl.ne_nil
  refine ⟨?_, ?_, ?_⟩
  · rw [findHeader_line (fun c hm => (hc c hm).2) h hl.lf hl.nul, Nat.zero_add]
  · rw [h, List.take_append_of_le_length (by omega), List.dropLast_eq_take]
  · rw [h, show l.length - 1 + 2 = l.length + 1 by omega, List.drop_append]
    simp

/-- However much of the stream is queued, the first request is taken as a whole or not at all. -/
theorem Frames.front (hQ : Stable size Q) (hc : Chunks size cs) (h : Frames size Q (cs.flatten ++ future) requests) :
    Fronts (Frames size Q) cs future requests := by
  obtain ⟨s, hs⟩ : ∃ s, s = cs.flatten ++ future := ⟨_, rfl⟩
  rw [← hs] at h
  cases h with
  | rest h => exact hQ cs future requests hc (hs ▸ h)
  | @line l t more hl hd ht =>
      rcases queue_line hs.symm with ⟨hpre, hne⟩ | ⟨u, hu, rfl⟩
      · exact Or.inl ⟨front_initial hl.lf hpre, fun e => absurd e hne⟩
      · obtain ⟨hfind, htake, hdrop⟩ := hl.findHeader hc hu
        refine Or.inr ⟨⟨l.dropLast, []⟩, dropBytes (l.length - 1 + 2) cs, more, ?_, rfl, ?_⟩
        · simp only [frontRequest, hfind, htake, hd]
        · rwa [flatten_dropBytes, hdrop]
  | @body l t more v hl hd hn ht =>
      rcases queue_line hs.symm with ⟨hpre, hne⟩ | ⟨u, hu, rfl⟩
      · exact Or.inl ⟨front_initial hl.lf hpre, fun e => absurd e hne⟩
      · obtain ⟨hfind, htake, hdrop⟩ := hl.findHeader hc hu
        have hlen := List.length_pos_of_ne_nil hl.ne_nil
        have hflat : cs.flatten.length = l.length + (u.length + 1) := by rw [hu]; simp
        simp only [Fronts, frontRequest, hfind, htake, hd, hdrop]
        rcases Nat.lt_or_ge u.length ((clampLen v).toNat + 2) with hshort | hall
        · refine Or.inl ⟨if_neg (by omega), fun e => ?_⟩
          rw [e, List.append_nil] at hn
          omega
        · refine Or.inr ⟨⟨l.dropLast, u.take (clampLen v).toNat⟩, _, more, if_pos (by omega), ?_, ?_⟩
          · rw [List.take_append_of_le_length (by omega)]
          · rwa [flatten_dropBytes, flatten_dropBytes, hdrop, ← List.drop_append_of_le_length hall]

theorem drain_frames (hQ : Stable size Q) : ∀ (n : Nat) {cs : List (List UInt8)} {requests : List Request}, Chunks size cs →
    cs.flatten.length < n → Frames size Q (cs.flatten ++ future) requests →
    ∃ more, requests = (drain n cs).1 ++ more ∧ Frames size Q ((drain n cs).2.flatten ++ future) more ∧
      (future = [] → more = []) := by
  intro n
  induction n with
  | zero => intro cs requests _ hn; exact absurd hn (by omega)
  | succ n ih =>
      intro cs requests hc hn h
      unfold drain
      rcases h.front hQ hc with ⟨hfront, hend⟩ | ⟨request, rest, more, hfront, rfl, hrest⟩
      · rw [hfront]
        exact ⟨requests, rfl, h, hend⟩
      · obtain ⟨hcr, hlt⟩ := hc.front hfront
        obtain ⟨more', rfl, hrest', hend⟩ := ih hcr (by omega) hrest
        rw [hfront]
        exact ⟨more', rfl, hrest', hend⟩

theorem Chunks.drain (h : Chunks size cs) : ∀ n, Chunks size (drain n cs).2 := by
  intro n
  induction n generalizing cs with
  | zero => exact h
  | succ n ih =>
      unfold Tstdb.drain
      cases hf : frontRequest cs with
      | none => exact h
      | some r => exact ih (h.front hf).1

theorem Chunks.drain_done : ∀ (n : Nat) {cs : List (List UInt8)}, Chunks size cs → cs.flatten.length < n →
    frontRequest (Tstdb.drain n cs).2 = none := by
  intro n
  induction n with
  | zero => intro cs _ hn; exact absurd hn (by omega)
  | succ n ih =>
      intro cs h hn
      unfold Tstdb.drain
      cases hf : frontRequest cs with
      | none => exact hf
      | some r =>
          obtain ⟨hr, hlt⟩ := h.front hf
          exact ih hr (by omega)

theorem Chunks.append (h : Chunks size cs) {c : List UInt8} (hc : c ≠ [] ∧ c.length ≤ size) : Chunks size (cs ++ [c]) := by
  intro c' hm
  rcases List.mem_append.mp hm with hm | hm
  · exact h c' hm
  · obtain rfl := List.mem_singleton.mp hm
    exact hc

theorem frontRequest_length {request : Request} {rest : List (List UInt8)}
    (h : frontRequest cs = some (request, rest)) : rest.length ≤ cs.length := by
  have hdrop : ∀ (cs : List (List UInt8)) (k : Nat), (dropBytes k cs).length ≤ cs.length := by
    intro cs
    induction cs with
    | nil => exact fun k => le_rfl
    | cons c cs ih =>
        intro k
        rw [dropBytes]
        split_ifs
        · exact (ih _).trans (Nat.le_succ _)
        · exact le_rfl
  unfold frontRequest at h
  cases hf : findHeader cs 0 with
  | none => rw [hf] at h; cases h
  | some hdLen =>
      simp only [hf] at h
      split at h
      · cases h
        exact hdrop _ _
      · split_ifs at h
        cases h
        exact (hdrop _ _).trans (hdrop _ _)

theorem drain_length : ∀ (n : Nat) (cs : List (List UInt8)), (drain n cs).2.length ≤ cs.length := by
  intro n
  induction n with
  | zero => exact fun cs => le_rfl
  | succ n ih =>
      intro cs
      unfold drain
      cases hf : frontRequest cs with
      | none => exact le_rfl
      | some r => exact (ih r.2).trans (frontRequest_length hf)

theorem serve_cons (cs : List (List UInt8)) (c : List UInt8) (chunks : List (List UInt8)) : serve cs (c :: chunks)
    = ((drain ((cs ++ [c]).flatten.length + 1) (cs ++ [c])).1
          ++ (serve (drain ((cs ++ [c]).flatten.length + 1) (cs ++ [c])).2 chunks).1,
        (serve (drain ((cs ++ [c]).flatten.length + 1) (cs ++ [c])).2 chunks).2) := rfl

theorem Chunks.serve : ∀ {chunks cs : List (List UInt8)}, Chunks size cs → Chunks size chunks → Chunks size (serve cs chunks).2 := by
  intro chunks
  induction chunks with
  | nil => exact fun h _ => h
  | cons c chunks ih =>
      intro cs h hc
      rw [serve_cons]
      exact ih ((h.append (hc c List.mem_cons_self)).drain _) fun c' hm => hc c' (List.mem_cons_of_mem _ hm)

/-- Whatever way a stream is cut, the requests are those that are read from it without a cut. -/
theorem serve_frames (hQ : Stable size Q) : ∀ {chunks cs : List (List UInt8)} {requests : List Request}, Chunks size cs →
    Chunks size chunks → frontRequest cs = none → Frames size Q (cs.flatten ++ chunks.flatten) requests →
    (serve cs chunks).1 = requests ∧ Frames size Q (serve cs chunks).2.flatten [] := by
  intro chunks
  induction chunks with
  | nil =>
      intro cs requests hc _ hnone h
      rcases h.front hQ hc with ⟨-, hend⟩ | ⟨_, _, _, hfront, -⟩
      · obtain rfl := hend rfl
        exact ⟨rfl, by simpa [serve] using h⟩
      · rw [hnone] at hfront
        cases hfront
  | cons c chunks ih =>
      intro cs requests hc hcs hnone h
      have hc' : Chunks size (cs ++ [c]) := hc.append (hcs c List.mem_cons_self)
      rw [List.flatten_cons, ← List.append_assoc, show cs.flatten ++ c = (cs ++ [c]).flatten by simp] at h
      obtain ⟨more, rfl, hrest, -⟩ := drain_frames hQ _ hc' (Nat.lt_succ_self _) h
      obtain ⟨he, hend⟩ := ih (hc'.drain _) (fun c' hm => hcs c' (List.mem_cons_of_mem _ hm))
        (Chunks.drain_done _ hc' (Nat.lt_succ_self _)) hrest
      rw [serve_cons, he]
      exact ⟨rfl, hend⟩

theorem serve_append : ∀ {a cs : List (List UInt8)} (b : List (List UInt8)), serve cs (a ++ b)
    = ((serve cs a).1 ++ (serve (serve cs a).2 b).1, (serve (serve cs a).2 b).2) := by
  intro a
  induction a with
  | nil => exact fun _ => rfl
  | cons c a ih =>
      intro cs b
      rw [List.cons_append, serve_cons, serve_cons, ih, List.append_assoc]

/-- Nothing follows. -/
def AtEnd (s : List UInt8) (requests : List Request) : Prop := s = [] ∧ requests = []

theorem stable_atEnd : Stable size AtEnd := by
  rintro cs future requests - ⟨hs, rfl⟩
  refine Or.inl ⟨?_, fun _ => rfl⟩
  rw [frontRequest, findHeader_eq_none]
  rw [(List.append_eq_nil_iff.mp hs).1]
  exact List.not_mem_nil

/-- A stream that ends with a request leaves nothing. -/
theorem serve_exact {chunks : List (List UInt8)} (hc : Chunks size chunks) (h : Frames size AtEnd chunks.flatten requests) :
    serve [] chunks = (requests, []) := by
  have hnil : Chunks size ([] : List (List UInt8)) := fun _ hm => absurd hm List.not_mem_nil
  obtain ⟨hserve, hrest⟩ := serve_frames stable_atEnd hnil hc rfl h
  have hend := hnil.serve hc
  generalize serve [] chunks = served at hserve hrest hend
  obtain ⟨passed, cs⟩ := served
  cases cs with
  | nil => rw [show passed = requests from hserve]
  | cons d ds => exact absurd (List.append_eq_nil_iff.mp hrest.nil.1).1 (hend d List.mem_cons_self).1

end Serve

/-! ## Feeding a connection -/

section Feed

variable {σ : Type} {N : Nat} {handleCmd : Handler σ} {io : Nat → IoData} {fd : Nat} {c : Conn σ}
  {q : Owner → List (List UInt8)}

/-- One `handle_input` passes on what is taken off the queue with the new chunk. -/
theorem handleInput_kept (h : c.Good N io fd q) (hk : c.io.framing.Kept (q (.input fd))) (chunk : Chunk) :
    Ends (fun e => Stops handleCmd e ∨ e = .exhausted ∧ Scarce N c.pool (Function.update io fd c.io) q)
      (fun r => ∃ cs os, r.2.io.inBufLen = (cs.flatten.length : Int) ∧
        Queues N r.2.pool (Function.update io fd r.2.io) (withQueues q fd cs os) ∧
        (Silent handleCmd → os = q (.output fd)) ∧
        (r.2.live = c.live ∧ r.2.Good N io fd (withQueues q fd cs os) ∧ r.2.io.framing.Kept cs ∧
            (r.1, cs) = drain ((q (.input fd) ++ [chunk.bytes]).flatten.length + 1) (q (.input fd) ++ [chunk.bytes]) ∨
          r.2.live = false ∧
            r.1 <+: (drain ((q (.input fd) ++ [chunk.bytes]).flatten.length + 1) (q (.input fd) ++ [chunk.bytes])).1 ∧
            ∃ request ∈ r.1, ∃ shared, Quits handleCmd shared request)) (handleInput handleCmd c (.bytes chunk)) := by
  obtain ⟨f', hrun, hk'⟩ := Framing.Kept.run ((q (.input fd) ++ [chunk.bytes]).flatten.length + 1) (hk.append chunk.bytes)
  refine (handleInput_ends h (.bytes chunk)).imp ?_
  rintro ⟨requests, c'⟩ ⟨cs, os, hq, hlen, hsilent, hcase⟩
  refine ⟨cs, os, hlen, hq, fun hs => hsilent hs (by simp), ?_⟩
  rw [show (Recv.bytes chunk).got = chunk.bytes from rfl, hrun] at hcase
  rcases hcase with ⟨hlive, hpend, he⟩ | ⟨⟨hpre, hquit⟩ | hfail, hlive, -⟩
  · obtain ⟨rfl, he'⟩ := Prod.mk.inj he
    obtain ⟨rfl, rfl⟩ := Prod.mk.inj he'
    exact Or.inl ⟨hlive, ⟨hq, by rwa [withQueues_input], by rwa [withQueues_input]⟩, hk', rfl⟩
  · exact Or.inr ⟨hlive, hpre, hquit⟩
  · cases hfail

/-- A connection passes on the requests of what it is fed, up to one over which it is destroyed. -/
theorem feed_ends : ∀ (chunks : List Chunk) {c : Conn σ} {q : Owner → List (List UInt8)}, c.Good N io fd q →
    c.io.framing.Kept (q (.input fd)) → c.live = true →
    Ends (fun e => Stops handleCmd e ∨ e = .exhausted)
      (fun r => ∃ cs os, r.2.io.inBufLen = (cs.flatten.length : Int) ∧
        Queues N r.2.pool (Function.update io fd r.2.io) (withQueues q fd cs os) ∧
        (r.2.live = true ∧ (r.1, cs) = serve (q (.input fd)) (chunks.map Chunk.bytes) ∨
          r.2.live = false ∧ r.1 <+: (serve (q (.input fd)) (chunks.map Chunk.bytes)).1 ∧
            ∃ request ∈ r.1, ∃ shared, Quits handleCmd shared request)) (feed handleCmd c chunks) := by
  intro chunks
  induction chunks with
  | nil =>
      intro c q h _ hlive
      refine ⟨q (.input fd), q (.output fd), h.counted, ?_, Or.inl ⟨hlive, rfl⟩⟩
      rw [withQueues_self]
      exact h.queues
  | cons chunk chunks ih =>
      intro c q h hk hlive
      rw [feed, if_pos hlive, List.map_cons, serve_cons]
      refine ((handleInput_kept h hk chunk).excuse fun e he => he.imp_right And.left).bind ?_
      rintro ⟨requests, c₁⟩ ⟨cs, os, hlen, hq, -, hcase⟩
      rcases hcase with ⟨hlive₁, hgood, hk₁, he⟩ | ⟨hdead, hpre, request, hmem, hquit⟩
      · have hk₁' : c₁.io.framing.Kept (withQueues q fd cs os (.input fd)) := by rwa [withQueues_input]
        refine (ih hgood hk₁' (hlive₁.trans hlive)).bind ?_
        rintro ⟨more, c₂⟩ ⟨cs', os', hlen', hq', hcase'⟩
        rw [withQueues_withQueues] at hq'
        rw [withQueues_input] at hcase'
        refine ⟨cs', os', hlen', hq', ?_⟩
        rw [← he]
        rcases hcase' with ⟨hlive₂, he'⟩ | ⟨hdead, hpre, request, hmem, hquit⟩
        · exact Or.inl ⟨hlive₂, by rw [← he']⟩
        · exact Or.inr ⟨hdead, (List.prefix_append_right_inj requests).mpr hpre, request,
            List.mem_append_right _ hmem, hquit⟩
      · have hstop : feed handleCmd c₁ chunks = .ok ([], c₁) := by
          cases chunks with
          | nil => rfl
          | cons chunk' chunks' =>
              rw [feed, if_neg (by rw [show c₁.live = false from hdead]; simp)]
        simp only [hstop, bind, Except.bind]
        refine ⟨cs, os, hlen, hq, Or.inr ⟨hdead, ?_, request, ?_, hquit⟩⟩
        · simpa using hpre.trans (List.prefix_append _ _)
        · simpa using hmem

/-- With a handler that sends nothing a connection can be fed a chunk for every buffer
of the pool but one, if the others have none. -/
theorem feed_silent (hs : Silent handleCmd) : ∀ (chunks : List Chunk) {c : Conn σ} {q : Owner → List (List UInt8)},
    c.Good N io fd q → c.io.framing.Kept (q (.input fd)) → c.live = true → Alone fd q →
    (q (.input fd)).length + (q (.output fd)).length + chunks.length < N →
    ∃ r, feed handleCmd c chunks = .ok r ∧ r.2.live = true := by
  intro chunks
  induction chunks with
  | nil => intro c q _ _ hlive _ _; exact ⟨_, rfl, hlive⟩
  | cons chunk chunks ih =>
      intro c q h hk hlive ha hn
      rw [List.length_cons] at hn
      have hinput : Ends _ _ (handleInput handleCmd c (.bytes chunk)) := handleInput_kept h hk chunk
      cases he : handleInput handleCmd c (.bytes chunk) with
      | error e =>
          rw [he] at hinput
          rcases hinput with hstop | ⟨-, hscarce⟩
          · exact (hs.not_stops hstop).elim
          · have := hscarce.count ha
            omega
      | ok r =>
          rw [he] at hinput
          obtain ⟨requests, c₁⟩ := r
          obtain ⟨cs, os, -, -, hout, hcase⟩ := hinput
          rcases hcase with ⟨hlive₁, hgood, hk₁, hdrain⟩ | ⟨-, -, request, -, shared, hquit⟩
          · obtain rfl := hout hs
            have hlen : cs.length ≤ (q (.input fd)).length + 1 := by
              have hle := drain_length ((q (.input fd) ++ [chunk.bytes]).flatten.length + 1) (q (.input fd) ++ [chunk.bytes])
              rwa [← hdrain, List.length_append, List.length_singleton] at hle
            have ha₁ : Alone fd (withQueues q fd cs (q (.output fd))) := by
              intro y h₁ h₂ h₃
              rw [withQueues, Function.update_of_ne h₃, Function.update_of_ne h₂]
              exact ha y h₁ h₂ h₃
            obtain ⟨r, hr, hrlive⟩ := ih hgood (by rwa [withQueues_input]) (hlive₁.trans hlive) ha₁
              (by rw [withQueues_input, withQueues_output]; omega)
            refine ⟨(requests ++ r.1, r.2), ?_, hrlive⟩
            rw [feed, if_pos hlive, he]
            simp only [hr, bind, Except.bind]
            rfl
          · exact (hs.not_quits hquit).elim

/-- The bytes of what `recv` brings. -/
theorem chunks_bytes (chunks : List Chunk) : Chunks BUF_UNIT_SIZE (chunks.map Chunk.bytes) := by
  intro bytes hm
  obtain ⟨chunk, -, rfl⟩ := List.mem_map.mp hm
  exact ⟨chunk.pos, chunk.fits⟩

/-- A connection that has been accepted and has received nothing. -/
structure Conn.Fresh (c : Conn σ) : Prop where
  pool : ∃ N io fd q, c.Good N io fd q ∧ q (.input fd) = []
  framing : c.io.framing = ⟨0, -1, false⟩
  live : c.live = true

/-- On every run of a worker the connection it accepts next is a fresh one. -/
theorem fresh_accept {nItems : Nat} (hn : 0 < nItems) {scratch : Scratch} {shared : σ} {events : List IoEvent}
    {w w' : Worker σ} (hrun : Run (WorkerStep handleCmd) (Worker.start nItems scratch shared) events w)
    (hs : WorkerStep handleCmd w (.accept fd) w') : (w'.conn fd).Fresh := by
  obtain ⟨q, hq⟩ : ∃ q, w.Holds nItems q :=
    hrun.preserves (fun _ _ _ hi hs => hs.holds hi) ⟨_, holds_start hn scratch shared⟩
  obtain ⟨he, requests, c, hexec, rfl⟩ := hs
  obtain ⟨hgood, hin, -⟩ := hq.accepted (show w.live fd = false from he)
  have hfresh : Conn.Fresh { w.conn fd with io := allocIoData (w.ioTable fd), live := true } :=
    ⟨⟨nItems, w.ioTable, fd, q, hgood, hin⟩, rfl, rfl⟩
  have hc : { w.conn fd with io := allocIoData (w.ioTable fd), live := true } = c :=
    congrArg Prod.snd (Except.ok.inj hexec)
  have hconn : (w.putConn (IoEvent.accept fd).fd c).conn fd = c := by simp [Worker.putConn, Worker.conn, IoEvent.fd]
  rw [hconn, ← hc]
  exact hfresh

/-- The connection a worker accepts first. -/
def Conn.first (nItems : Nat) (scratch : Scratch) (shared : σ) : Conn σ :=
  ⟨bpNew nItems, allocIoData .zero, true, scratch, shared⟩

theorem good_first {nItems : Nat} (hn : 0 < nItems) (scratch : Scratch) (shared : σ) :
    (Conn.first nItems scratch shared).Good nItems (fun _ => IoData.zero) 0 fun _ => [] :=
  ((holds_start hn scratch shared).accepted rfl).1

theorem fresh_first {nItems : Nat} (hn : 0 < nItems) (scratch : Scratch) (shared : σ) :
    (Conn.first nItems scratch shared).Fresh := ⟨⟨nItems, _, 0, _, good_first hn scratch shared, rfl⟩, rfl, rfl⟩

end Feed

end Tstdb
