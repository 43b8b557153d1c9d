/-
# `Tstdb.Server.Segments` — what depends on how a stream is cut

The search for a line end works buffer by buffer and stops at a NUL, and the two bytes
taken behind a header are a CR and an LF only if the client sent them.  So the same bytes
can be different requests when they arrive in other segments.  `Settled` lists the ways a
stream can go on behind its lines and bodies without that: nothing is complete any more, or
bare line feeds follow with a single byte between them.  The dispatch of a stream does not
depend on its segments exactly if it is read that way (`same_however_cut`).
-/
import Mathlib
import Tstdb.Lib.Runs
import Tstdb.Lib.CText
import Tstdb.Lib.Bytes
import Tstdb.Lib.Chains
import Tstdb.Lib.Outcome
import Tstdb.Tst.Arena
import Tstdb.Tst.Runs
import Tstdb.Server.Index
import Tstdb.Server.Store
import Tstdb.Server.Pool
import Tstdb.Server.Buffers
import Tstdb.Server.Framing
import Tstdb.Server.Stream

namespace Tstdb

open CText Bytes Chains Outcome Runs

/-- Bare line feeds with one byte between them, behind a first one. -/
inductive Blanks : List UInt8 → List Request → Prop where
  | last {t : List UInt8} (h : 10 ∉ t) : Blanks t []
  | more {b : UInt8} {t : List UInt8} {requests : List Request} (hb : b ≠ 10) (h0 : b ≠ 0) (h : Blanks t requests) :
      Blanks (b :: 10 :: t) (⟨[], []⟩ :: requests)

/-- The end of a stream: no line is complete, or a body is not, or only bare line feeds come. -/
inductive Settled : List UInt8 → List Request → Prop where
  | idle {s : List UInt8} (h : 10 ∉ s) : Settled s []
  | waiting {l t : List UInt8} {valueLen : Int} (hne : l ≠ []) (hlf : 10 ∉ l)
      (hd : declaredLen (cstr l.dropLast) = some valueLen) (hshort : t.length < (clampLen valueLen).toNat + 2) :
      Settled (l ++ 10 :: t) []
  | blank {t : List UInt8} {requests : List Request} (h : Blanks t requests) : Settled (10 :: t) (⟨[], []⟩ :: requests)

section Settled

variable {size : Nat} {cs : List (List UInt8)} {future s t : List UInt8} {requests : List Request}

theorem Blanks.frames (h : Blanks t requests) : Frames size Settled t requests := by
  induction h with
  | last h => exact .rest (.idle h)
  | @more b t requests hb h0 _ ih =>
      have hl : Visible size [b] :=
        ⟨List.cons_ne_nil b [], fun hm => hb (List.mem_singleton.mp hm).symm,
          fun hm => h0 (List.mem_singleton.mp (List.mem_of_mem_drop hm)).symm⟩
      exact Frames.line hl (show declaredLen (cstr []) = none by decide) ih

/-- It does not matter whether the byte behind a bare line feed is taken with it. -/
theorem Blanks.tail (h : Blanks t requests) : Frames size Settled t.tail requests := by
  cases h with
  | last h => exact .rest (.idle fun hm => h (List.mem_of_mem_tail hm))
  | more _ _ h => exact .rest (.blank h)

/-- With a NUL before it, a line is the same string however long it is. -/
theorem cstr_of_nul {l u : List UInt8} (h : 0 ∈ l) : cstr (l ++ u) = cstr l.dropLast := by
  obtain ⟨a, b, rfl, ha⟩ := List.eq_append_cons_of_mem h
  rw [List.append_assoc, List.cons_append, cstr_append_zero]
  rcases List.eq_nil_or_concat b with rfl | ⟨b', x, rfl⟩
  · rw [List.dropLast_concat]
  · rw [List.concat_eq_append, ← List.cons_append, ← List.append_assoc, List.dropLast_concat, cstr_append_zero]

/-- While the body is not complete, no line feed that may be found makes a request. -/
theorem front_waiting (hc : Chunks size cs) {l : List UInt8} {valueLen : Int} (hlf : 10 ∉ l)
    (hd : declaredLen (cstr l.dropLast) = some valueLen) (hshort : t.length < (clampLen valueLen).toNat + 2)
    (hs : cs.flatten ++ future = l ++ 10 :: t) : frontRequest cs = none := by
  rcases queue_line hs with ⟨hpre, -⟩ | ⟨u, hu, rfl⟩
  · exact front_initial hlf hpre
  · have hlen : cs.flatten.length = l.length + (u.length + 1) := by rw [hu]; simp
    rw [List.length_append] at hshort
    rw [frontRequest]
    cases hf : findHeader cs 0 with
    | none => rfl
    | some hdLen =>
        have hat := getElem?_findHeader hf
        rw [Nat.sub_zero] at hat
        have hge : l.length ≤ hdLen := by
          rcases Nat.lt_or_ge hdLen l.length with hlt | hge
          · rw [hu, List.getElem?_append_left hlt] at hat
            exact absurd (List.mem_of_getElem? hat) hlf
          · exact hge
        have hsame : cstr (cs.flatten.take (hdLen - 1)) = cstr l.dropLast := by
          rcases Classical.em (0 ∈ l.drop (l.length + 1 - size)) with hnul | hnul
          · have hmem := List.mem_of_mem_drop hnul
            rcases Nat.lt_or_ge l.length hdLen with hlt | hle
            · obtain ⟨v, hv⟩ : l <+: cs.flatten.take (hdLen - 1) := by
                rw [hu]
                exact List.prefix_take_iff.mpr ⟨List.prefix_append _ _, by omega⟩
              rw [← hv, cstr_of_nul hmem]
            · obtain rfl : l.length = hdLen := by omega
              rw [hu, List.take_append_of_le_length (by omega), ← List.dropLast_eq_take]
          · rw [findHeader_line (fun c hm => (hc c hm).2) hu hlf hnul, Nat.zero_add] at hf
            obtain rfl := Option.some.inj hf
            rw [hu, List.take_append_of_le_length (by omega), ← List.dropLast_eq_take]
        simp only [hsame, hd]
        exact if_neg (by omega)

/-- A bare line feed is a request, and two bytes are taken for it. -/
theorem front_blank (c : List UInt8) (cs : List (List UInt8)) :
    frontRequest ((10 :: c) :: cs) = some (⟨[], []⟩, dropBytes 2 ((10 :: c) :: cs)) := by
  have hfind : findHeader ((10 :: c) :: cs) 0 = some 0 := by
    rw [findHeader, show cstr (10 :: c) = 10 :: cstr c from rfl, List.findIdx?_cons]
    rfl
  simp only [frontRequest, hfind, Nat.zero_sub, List.take_zero, show declaredLen (cstr []) = none by decide]

theorem stable_settled : Stable size Settled := by
  intro cs future requests hc h
  obtain ⟨s, hs⟩ : ∃ s, s = cs.flatten ++ future := ⟨_, rfl⟩
  rw [← hs] at h
  cases h with
  | idle h =>
      have hfront : frontRequest cs = none := by
        rw [frontRequest, findHeader_eq_none fun hm => h (by rw [hs]; exact List.mem_append_left _ hm)]
      exact Or.inl ⟨hfront, fun _ => rfl⟩
  | waiting hne hlf hd hshort => exact Or.inl ⟨front_waiting hc hlf hd hshort hs.symm, fun _ => rfl⟩
  | @blank t more h =>
      cases cs with
      | nil => exact Or.inl ⟨rfl, fun e => by rw [e] at hs; cases hs⟩
      | cons c cs =>
          obtain ⟨b, c', rfl⟩ := List.exists_cons_of_ne_nil (hc c List.mem_cons_self).1
          obtain ⟨rfl, ht⟩ : 10 = b ∧ t = c' ++ cs.flatten ++ future := by simpa using hs
          refine Or.inr ⟨_, _, more, front_blank c' cs, rfl, ?_⟩
          rw [flatten_dropBytes, List.flatten_cons, List.cons_append, List.drop_succ_cons]
          cases hrest : c' ++ cs.flatten with
          | nil =>
              rw [hrest, List.nil_append] at ht
              rw [List.drop_nil, List.nil_append, ← ht]
              exact h.frames
          | cons x u =>
              rw [hrest] at ht
              rw [List.drop_one, List.tail_cons, show u ++ future = t.tail by rw [ht]; rfl]
              exact h.tail

end Settled

/-! ## Two cuts of one stream -/

/-- A stream byte by byte. -/
def single (s : List UInt8) : List (List UInt8) := s.map fun b => [b]

/-- Any two cuts give the same requests. -/
def CutsAgree (s : List UInt8) : Prop :=
  ∀ chunks chunks', Chunks BUF_UNIT_SIZE chunks → Chunks BUF_UNIT_SIZE chunks' → chunks.flatten = s →
    chunks'.flatten = s → (serve [] chunks).1 = (serve [] chunks').1

section Cuts

variable {s l t : List UInt8} {cs : List (List UInt8)}

theorem flatten_single (s : List UInt8) : (single s).flatten = s := by
  induction s with
  | nil => rfl
  | cons b s ih => exact congrArg (b :: ·) ih

theorem single_append (s t : List UInt8) : single (s ++ t) = single s ++ single t := List.map_append

theorem chunks_single {size : Nat} (hsize : 0 < size) (s : List UInt8) : Chunks size (single s) := by
  intro c hc
  obtain ⟨b, -, rfl⟩ := List.mem_map.mp hc
  exact ⟨List.cons_ne_nil b [], hsize⟩

theorem Chunks.concat {size : Nat} {a b : List (List UInt8)} (ha : Chunks size a) (hb : Chunks size b) :
    Chunks size (a ++ b) := fun c hc => (List.mem_append.mp hc).elim (ha c) (hb c)

/-- In single bytes every line feed is found. -/
theorem visible_single (hne : l ≠ []) (hlf : 10 ∉ l) : Visible 1 l :=
  ⟨hne, hlf, by rw [Nat.add_sub_cancel, List.drop_length]; exact List.not_mem_nil⟩

/-- The rest of a stream that starts with complete requests agrees too. -/
theorem CutsAgree.rest {a : List (List UInt8)} {requests : List Request} (h : CutsAgree (a.flatten ++ t))
    (ha : Chunks BUF_UNIT_SIZE a) (he : serve [] a = (requests, [])) : CutsAgree t := by
  intro chunks chunks' hc hc' hs hs'
  have happend := h (a ++ chunks) (a ++ chunks') (ha.concat hc) (ha.concat hc') (by rw [List.flatten_append, hs])
    (by rw [List.flatten_append, hs'])
  rw [serve_append, serve_append, he] at happend
  exact List.append_cancel_left happend

theorem exact_line {size : Nat} (hl : Visible size l) (hd : declaredLen (cstr l.dropLast) = none) :
    Frames size AtEnd (l ++ [10]) [⟨l.dropLast, []⟩] := .line hl hd (.rest ⟨rfl, rfl⟩)

theorem exact_body {size : Nat} {valueLen : Int} (hl : Visible size l)
    (hd : declaredLen (cstr l.dropLast) = some valueLen) (hn : (clampLen valueLen).toNat + 2 ≤ t.length) :
    Frames size AtEnd (l ++ 10 :: t.take ((clampLen valueLen).toNat + 2))
      [⟨l.dropLast, t.take (clampLen valueLen).toNat⟩] := by
  have hlen : (t.take ((clampLen valueLen).toNat + 2)).length = (clampLen valueLen).toNat + 2 := by
    rw [List.length_take]
    omega
  have hbody := Frames.body (Q := AtEnd) hl hd hlen.ge
    (.rest ⟨List.drop_eq_nil_iff.mpr hlen.le, rfl⟩)
  rwa [List.take_take, Nat.min_eq_left (by omega)] at hbody

/-- Byte by byte, a stream that starts with a line gives its request first, unless the
body is not complete. -/
theorem serve_single (hne : l ≠ []) (hlf : 10 ∉ l) :
    (∃ request more, (serve [] (single (l ++ 10 :: t))).1 = request :: more ∧ request.header = l.dropLast) ∨
      (∃ valueLen, declaredLen (cstr l.dropLast) = some valueLen ∧ t.length < (clampLen valueLen).toNat + 2) ∧
        (serve [] (single (l ++ 10 :: t))).1 = [] := by
  have hl := visible_single hne hlf
  have hfirst : ∀ {x rest : List UInt8} {request : Request}, l ++ 10 :: t = x ++ rest →
      Frames 1 AtEnd x [request] →
      (serve [] (single (l ++ 10 :: t))).1 = request :: (serve [] (single rest)).1 := by
    intro x rest request he h
    rw [he, single_append, serve_append, serve_exact (chunks_single Nat.one_pos x) (by rwa [flatten_single])]
    rfl
  cases hd : declaredLen (cstr l.dropLast) with
  | none => exact Or.inl ⟨_, _, hfirst (show l ++ 10 :: t = (l ++ [10]) ++ t by simp) (exact_line hl hd), rfl⟩
  | some v =>
      rcases Nat.lt_or_ge t.length ((clampLen v).toNat + 2) with hshort | hall
      · refine Or.inr ⟨⟨v, rfl, hshort⟩, ?_⟩
        exact (serve_frames stable_settled (fun _ hm => absurd hm List.not_mem_nil) (chunks_single Nat.one_pos _) rfl
          (by rw [flatten_single]; exact .rest (.waiting hne hlf hd hshort))).1
      · have hsplit : l ++ 10 :: t = (l ++ 10 :: t.take ((clampLen v).toNat + 2)) ++ t.drop ((clampLen v).toNat + 2) := by
          simp
        exact Or.inl ⟨_, _, hfirst hsplit (exact_body hl hd hall), rfl⟩

theorem frontRequest_header {request : Request} {rest : List (List UInt8)} (h : frontRequest cs = some (request, rest)) :
    ∃ hdLen, findHeader cs 0 = some hdLen ∧ hdLen ≤ request.header.length + 1 := by
  unfold frontRequest at h
  cases hf : findHeader cs 0 with
  | none => rw [hf] at h; cases h
  | some hdLen =>
      have hlt := findHeader_lt hf
      simp only [hf] at h
      refine ⟨hdLen, rfl, ?_⟩
      split at h
      · cases h
        rw [List.length_take]
        omega
      · split_ifs at h
        cases h
        rw [List.length_take]
        omega

/-- Once the first line feeds have been missed, the first request is a longer one. -/
theorem serve_late : ∀ (chunks : List (List UInt8)) {cs : List (List UInt8)} {m : Nat},
    (∀ hdLen, findHeader cs 0 = some hdLen → m ≤ hdLen) → m ≤ cs.flatten.length →
    ∀ {request more}, (serve cs chunks).1 = request :: more → m ≤ request.header.length + 1 := by
  intro chunks
  induction chunks with
  | nil => intro cs m _ _ request more h; cases h
  | cons c chunks ih =>
      intro cs m hfind hlen request more h
      have hfind' : ∀ hdLen, findHeader (cs ++ [c]) 0 = some hdLen → m ≤ hdLen := by
        intro hdLen hf
        rw [findHeader_append] at hf
        cases hcs : findHeader cs 0 with
        | none =>
            rw [hcs, Option.none_or, Nat.zero_add] at hf
            exact hlen.trans (le_findHeader hf)
        | some hdLen' =>
            rw [hcs] at hf
            exact Option.some.inj hf ▸ hfind hdLen' hcs
      have hlen' : m ≤ (cs ++ [c]).flatten.length := by
        rw [List.flatten_append, List.length_append]
        omega
      rw [serve_cons, drain] at h
      cases hfront : frontRequest (cs ++ [c]) with
      | none =>
          rw [hfront] at h
          exact ih hfind' hlen' h
      | some r =>
          obtain ⟨request', rest⟩ := r
          rw [hfront] at h
          obtain ⟨rfl, -⟩ := List.cons.inj h
          obtain ⟨hdLen, hf, hle⟩ := frontRequest_header hfront
          exact (hfind' hdLen hf).trans hle

theorem serve_waits : ∀ {chunks cs : List (List UInt8)}, findHeader (cs ++ chunks) 0 = none →
    serve cs chunks = ([], cs ++ chunks) := by
  intro chunks
  induction chunks with
  | nil => intro cs _; rw [serve, List.append_nil]
  | cons c chunks ih =>
      intro cs h
      rw [show cs ++ c :: chunks = (cs ++ [c]) ++ chunks by simp] at h
      have hnone : findHeader (cs ++ [c]) 0 = none := by
        rw [findHeader_append] at h
        exact (Option.or_eq_none_iff.mp h).1
      have hfront : frontRequest (cs ++ [c]) = none := by rw [frontRequest, hnone]
      rw [serve_cons, drain, hfront, ih h, List.append_assoc]
      rfl

/-- A line feed behind a NUL is missed where both come in one chunk. -/
theorem serve_nul {a b : List UInt8} (hlf : 10 ∉ a) {request : Request} {more : List Request}
    (h : (serve [] (single a ++ [0 :: (b ++ [10])] ++ single t)).1 = request :: more) :
    (a ++ 0 :: b).length ≤ request.header.length := by
  have hnone : findHeader (single a ++ [0 :: (b ++ [10])]) 0 = none := by
    rw [findHeader_append, findHeader_eq_none (by rwa [flatten_single])]
    rfl
  rw [serve_append, serve_waits (by rwa [List.nil_append])] at h
  simp only [List.nil_append] at h
  have hlate := serve_late (single t) (m := (a ++ 0 :: b).length + 1)
    (fun hdLen hf => by rw [hnone] at hf; cases hf) (by simp [flatten_single]) h
  omega

theorem declaredLen_tail {b : UInt8} {line : List UInt8} {valueLen : Int}
    (h : declaredLen (cstr (b :: line)) = some valueLen) : declaredLen (cstr line) = none := by
  have hset : ascii "set" = [115, 101, 116] := by decide
  have hcas : ascii "cas" = [99, 97, 115] := by decide
  have hline : cstr (b :: line) = b :: cstr line := by
    rcases Classical.em (b = 0) with rfl | hb
    · rw [show cstr (0 :: line) = [] from rfl, show declaredLen [] = none by decide] at h
      cases h
    · exact List.takeWhile_cons_of_pos (by simpa using hb)
  rw [hline] at h
  have hm := declaredLen_method h
  cases h' : declaredLen (cstr line) with
  | none => rfl
  | some v =>
      have hm' := declaredLen_method h'
      simp only [hset, hcas, List.cons_prefix_cons] at hm hm'
      cases hc : cstr line with
      | nil => rw [hc] at hm'; simp at hm'
      | cons x xs =>
          simp only [hc, List.cons_prefix_cons] at hm hm'
          rcases hm with ⟨-, h₁, -⟩ | ⟨-, h₁, -⟩ <;> rcases hm' with ⟨h₂, -⟩ | ⟨h₂, -⟩ <;>
            exact absurd (h₁.trans h₂.symm) (by decide)

/-- A bare line feed that comes alone, or with the byte behind it. -/
theorem serve_blank : serve [] [[10]] = ([⟨[], []⟩], []) ∧ ∀ b : UInt8, serve [] [[10, b]] = ([⟨[], []⟩], []) := by
  have hone : ∀ c : List UInt8, c.length ≤ 1 → serve [] [10 :: c] = ([⟨[], []⟩], []) := by
    intro c hc
    have hdrop : dropBytes 2 [10 :: c] = [] := by
      rw [dropBytes, if_pos (by rw [List.length_cons]; omega)]
      rfl
    rw [serve_cons, List.nil_append, drain, front_blank, hdrop]
    rfl
  exact ⟨hone [] (by decide), fun b => hone [b] le_rfl⟩

/-- Where a line and the same line with a byte before it both follow, they are told apart. -/
theorem serve_single_cons {b : UInt8} (hne : l ≠ []) (hlf : 10 ∉ l) (hb : b ≠ 10) :
    (serve [] (single (b :: l ++ 10 :: t))).1 ≠ (serve [] (single (l ++ 10 :: t))).1 := by
  intro he
  have hlf' : 10 ∉ b :: l := fun hm => (List.mem_cons.mp hm).elim (fun e => hb e.symm) hlf
  have hdrop : (b :: l).dropLast = b :: l.dropLast := List.dropLast_cons_of_ne_nil hne
  rcases serve_single (t := t) (List.cons_ne_nil b l) hlf' with ⟨r₁, more₁, h₁, hr₁⟩ | ⟨⟨v, hd, -⟩, h₁⟩ <;>
    rcases serve_single (t := t) hne hlf with ⟨r₂, more₂, h₂, hr₂⟩ | ⟨⟨v', hd', -⟩, h₂⟩
  · rw [h₁, h₂] at he
    have hhead := (List.cons.inj he).1
    rw [← hhead, hr₁, hdrop] at hr₂
    exact absurd (congrArg List.length hr₂) (by simp)
  · rw [h₁, h₂] at he
    cases he
  · rw [h₁, h₂] at he
    cases he
  · rw [hdrop] at hd
    rw [declaredLen_tail hd] at hd'
    cases hd'

/-- Cuts agree on a visible line only, if its request is passed on. -/
theorem CutsAgree.visible (h : CutsAgree (l ++ 10 :: t)) (hne : l ≠ []) (hlf : 10 ∉ l) {request : Request}
    {more : List Request} (hR : (serve [] (single (l ++ 10 :: t))).1 = request :: more)
    (hr : request.header = l.dropLast) : Visible BUF_UNIT_SIZE l := by
  refine ⟨hne, hlf, fun hnul => ?_⟩
  obtain ⟨a, b, hab, -⟩ := List.eq_append_cons_of_mem hnul
  have hl : l = (l.take (l.length + 1 - BUF_UNIT_SIZE) ++ a) ++ 0 :: b := by
    rw [List.append_assoc, ← hab, List.take_append_drop]
  have hsize : (0 :: (b ++ [10])).length ≤ BUF_UNIT_SIZE := by
    have hlen := congrArg List.length hab
    have h512 : BUF_UNIT_SIZE = 512 := rfl
    simp only [List.length_drop, List.length_append, List.length_cons, List.length_nil] at hlen ⊢
    omega
  generalize l.take (l.length + 1 - BUF_UNIT_SIZE) ++ a = a' at hl
  subst hl
  have hpos : 0 < BUF_UNIT_SIZE := by decide
  have hagree := h (single (a' ++ 0 :: b ++ 10 :: t)) (single a' ++ [0 :: (b ++ [10])] ++ single t)
    (chunks_single hpos _)
    (((chunks_single hpos a').append ⟨List.cons_ne_nil _ _, hsize⟩).concat (chunks_single hpos t))
    (flatten_single _) (by simp [flatten_single])
  rw [hR] at hagree
  have hlate := serve_nul (fun hm => hlf (List.mem_append_left _ hm)) hagree.symm
  rw [hr, List.length_dropLast] at hlate
  have hlen := List.length_pos_of_ne_nil hne
  omega

/-- A stream that starts with a bare line feed is read as one. -/
theorem blanks_of_frames {size : Nat} {requests : List Request} (h : Frames size Settled (10 :: t) requests) :
    ∃ more, Blanks t more := by
  have hfirst : ∀ {l u : List UInt8}, 10 :: t = l ++ 10 :: u → l ≠ [] → 10 ∉ l → False := by
    intro l u he hne hlf
    obtain ⟨b, l, rfl⟩ := List.exists_cons_of_ne_nil hne
    obtain ⟨rfl, -⟩ := List.cons.inj he
    exact hlf List.mem_cons_self
  obtain ⟨s, hs⟩ : ∃ s, s = 10 :: t := ⟨_, rfl⟩
  rw [← hs] at h
  cases h with
  | rest h =>
      cases h with
      | idle h => exact absurd (by rw [hs]; exact List.mem_cons_self) h
      | waiting hne hlf _ _ => exact (hfirst hs.symm hne hlf).elim
      | blank h => exact ⟨_, (List.cons.inj hs).2 ▸ h⟩
  | line hl _ _ => exact (hfirst hs.symm hl.ne_nil hl.lf).elim
  | body hl _ _ _ => exact (hfirst hs.symm hl.ne_nil hl.lf).elim

/-- Cuts agree on bare line feeds only with one byte, not a NUL, between them. -/
theorem CutsAgree.blank (h : CutsAgree (10 :: t))
    (ih : ∀ u, u.length < (10 :: t).length → CutsAgree u → ∃ requests, Frames BUF_UNIT_SIZE Settled u requests) :
    ∃ requests, Blanks t requests := by
  obtain ⟨hone, htwo⟩ := serve_blank
  rcases Classical.em (10 ∈ t) with hmem | hno
  · obtain ⟨b, t', rfl⟩ := List.exists_cons_of_ne_nil (List.ne_nil_of_mem hmem)
    have hpos : 0 < BUF_UNIT_SIZE := by decide
    have hpair : ∀ x y : UInt8, Chunks BUF_UNIT_SIZE [[x, y]] := fun x y c hc => by
      rw [List.mem_singleton.mp hc]
      exact ⟨List.cons_ne_nil _ _, show 2 ≤ 512 by decide⟩
    have hsame : (serve [] (single (b :: t'))).1 = (serve [] (single t')).1 := by
      have hagree := h (single [10] ++ single (b :: t')) ([[10, b]] ++ single t')
        ((chunks_single hpos _).concat (chunks_single hpos _)) ((hpair 10 b).concat (chunks_single hpos _))
        (by simp [flatten_single]) (by simp [flatten_single])
      rw [serve_append, serve_append, show single [10] = [[10]] from rfl, hone, htwo] at hagree
      exact (List.cons.inj hagree).2
    have hb : b ≠ 10 := by
      rintro rfl
      rw [show single (10 :: t') = [[10]] ++ single t' from rfl, serve_append, hone] at hsame
      exact absurd (congrArg List.length hsame) (by simp)
    obtain ⟨l, u, rfl, hlf⟩ := List.eq_append_cons_of_mem ((List.mem_cons.mp hmem).resolve_left (Ne.symm hb))
    rcases Classical.em (l = []) with rfl | hne
    · rw [List.nil_append] at h hsame ih ⊢
      have h0 : b ≠ 0 := by
        rintro rfl
        have hagree := h (single (10 :: 0 :: 10 :: u)) (single [10] ++ ([[0, 10]] ++ single u))
          (chunks_single hpos _) ((chunks_single hpos _).concat ((hpair 0 10).concat (chunks_single hpos _)))
          (flatten_single _) (by simp [flatten_single])
        rw [show single (10 :: 0 :: 10 :: u) = single [10] ++ single (0 :: 10 :: u) from rfl, serve_append, serve_append,
          show single [10] = [[10]] from rfl, hone] at hagree
        have hrest := (List.cons.inj hagree).2
        rw [hsame, show single (10 :: u) = [[10]] ++ single u from rfl, serve_append, hone] at hrest
        have hlate := serve_nul (a := []) (b := []) List.not_mem_nil hrest.symm
        exact absurd hlate (by simp)
      have hu : CutsAgree (10 :: u) := CutsAgree.rest (a := [[10, b]]) (t := 10 :: u) h (hpair 10 b) (htwo b)
      obtain ⟨requests, hframes⟩ := ih (10 :: u) (by simp) hu
      obtain ⟨more, hmore⟩ := blanks_of_frames hframes
      exact ⟨_, .more hb h0 hmore⟩
    · exact absurd hsame (serve_single_cons hne hlf hb)
  · exact ⟨[], .last hno⟩

/-- What all cuts agree on is read without looking at the cut. -/
theorem CutsAgree.frames : ∀ (n : Nat) {s : List UInt8}, s.length < n → CutsAgree s →
    ∃ requests, Frames BUF_UNIT_SIZE Settled s requests := by
  intro n
  induction n with
  | zero => intro s hn; exact absurd hn (by omega)
  | succ n ih =>
      intro s hn h
      rcases Classical.em (10 ∈ s) with hmem | hno
      · obtain ⟨l, t, rfl, hlf⟩ := List.eq_append_cons_of_mem hmem
        have hlen : (l ++ 10 :: t).length = l.length + (t.length + 1) := by simp
        have hpos : 0 < BUF_UNIT_SIZE := by decide
        rcases Classical.em (l = []) with rfl | hne
        · obtain ⟨requests, hblanks⟩ := CutsAgree.blank h fun u hu hagree => ih (by rw [List.nil_append] at hn; omega) hagree
          exact ⟨_, .rest (.blank hblanks)⟩
        · rcases serve_single (t := t) hne hlf with ⟨request, more, hR, hr⟩ | ⟨⟨v, hd, hshort⟩, -⟩
          · have hl := h.visible hne hlf hR hr
            cases hd : declaredLen (cstr l.dropLast) with
            | none =>
                have hexact := serve_exact (chunks_single hpos (l ++ [10])) (by rw [flatten_single]; exact exact_line hl hd)
                have hrest : CutsAgree t := CutsAgree.rest (a := single (l ++ [10])) (by rw [flatten_single]; simpa using h)
                  (chunks_single hpos _) hexact
                obtain ⟨requests, hframes⟩ := ih (by omega) hrest
                exact ⟨_, .line hl hd hframes⟩
            | some v =>
                rcases Nat.lt_or_ge t.length ((clampLen v).toNat + 2) with hshort | hall
                · exact ⟨_, .rest (.waiting hne hlf hd hshort)⟩
                · have hexact := serve_exact (chunks_single hpos (l ++ 10 :: t.take ((clampLen v).toNat + 2)))
                    (by rw [flatten_single]; exact exact_body hl hd hall)
                  have hrest : CutsAgree (t.drop ((clampLen v).toNat + 2)) :=
                    CutsAgree.rest (a := single (l ++ 10 :: t.take ((clampLen v).toNat + 2)))
                      (by rw [flatten_single]; simpa using h) (chunks_single hpos _) hexact
                  obtain ⟨requests, hframes⟩ := ih (by rw [List.length_drop]; omega) hrest
                  exact ⟨_, .body hl hd hall hframes⟩
          · exact ⟨_, .rest (.waiting hne hlf hd hshort)⟩
      · exact ⟨[], .rest (.idle hno)⟩

end Cuts

/-! ## Two connections fed with one stream -/

/-- Two fresh connections that are fed the stream, each in its own segments, pass the
same requests to `handle_cmd`. -/
def SameHoweverCut (s : List UInt8) : Prop :=
  ∀ (σ : Type) (handleCmd : Handler σ) (c c' : Conn σ), c.Fresh → c'.Fresh → ∀ chunks chunks' : List Chunk,
    (chunks.map Chunk.bytes).flatten = s → (chunks'.map Chunk.bytes).flatten = s → ∀ r r',
      feed handleCmd c chunks = .ok r → feed handleCmd c' chunks' = .ok r' → r.2.live = true → r'.2.live = true →
        r.1 = r'.1

/-- A fresh connection that stays passes on what the bytes alone give. -/
theorem Conn.Fresh.feed {σ : Type} {handleCmd : Handler σ} {c : Conn σ} (h : c.Fresh) {chunks : List Chunk}
    {r : List Request × Conn σ} (he : feed handleCmd c chunks = .ok r) (hlive : r.2.live = true) :
    r.1 = (serve [] (chunks.map Chunk.bytes)).1 := by
  obtain ⟨N, io, fd, q, hgood, hin⟩ := h.pool
  have hk : c.io.framing.Kept (q (.input fd)) := by
    rw [h.framing]
    exact Framing.kept_fresh _ _
  obtain ⟨cs, os, -, -, hcase⟩ := (feed_ends chunks hgood hk h.live).ok he
  rw [hin] at hcase
  rcases hcase with ⟨-, hserve⟩ | ⟨hdead, -⟩
  · exact (Prod.mk.inj hserve).1
  · exact absurd (hlive.symm.trans hdead) (by simp)

/-- A handler that does nothing. -/
def quiet : Handler Unit := fun s _ _ shared => .ok (.sent [], s, shared)

theorem exists_chunks : ∀ {cs : List (List UInt8)}, Chunks BUF_UNIT_SIZE cs → ∃ chunks : List Chunk,
    chunks.map Chunk.bytes = cs := by
  intro cs
  induction cs with
  | nil => exact fun _ => ⟨[], rfl⟩
  | cons c cs ih =>
      intro h
      obtain ⟨chunks, rfl⟩ := ih fun c' hc => h c' (List.mem_cons_of_mem _ hc)
      obtain ⟨hne, hle⟩ := h c List.mem_cons_self
      exact ⟨⟨c, hne, hle⟩ :: chunks, rfl⟩

/-- Every cut can be fed, to a connection with a pool that is large enough. -/
theorem exists_feed {cs : List (List UInt8)} (h : Chunks BUF_UNIT_SIZE cs) : ∃ (c : Conn Unit) (chunks : List Chunk) (r : _),
    c.Fresh ∧ chunks.map Chunk.bytes = cs ∧ feed quiet c chunks = .ok r ∧ r.2.live = true ∧ r.1 = (serve [] cs).1 := by
  obtain ⟨chunks, rfl⟩ := exists_chunks h
  have hn : 0 < chunks.length + 1 := Nat.succ_pos _
  have hfresh := fresh_first hn ⟨fun _ => 0, fun _ => 0⟩ ()
  obtain ⟨r, hr, hlive⟩ := feed_silent (fun s _ _ shared => ⟨s, shared, rfl⟩) chunks
    (good_first hn ⟨fun _ => 0, fun _ => 0⟩ ()) (Framing.kept_fresh _ _) rfl (fun _ _ _ _ => rfl) (by simp)
  exact ⟨_, chunks, r, hfresh, rfl, hr, hlive, hfresh.feed hr hlive⟩

theorem SameHoweverCut.cutsAgree {s : List UInt8} (h : SameHoweverCut s) : CutsAgree s := by
  intro cs cs' hc hc' hs hs'
  obtain ⟨c, chunks, r, hfresh, rfl, hr, hlive, he⟩ := exists_feed hc
  obtain ⟨c', chunks', r', hfresh', rfl, hr', hlive', he'⟩ := exists_feed hc'
  rw [← he, ← he']
  exact h Unit quiet c c' hfresh hfresh' chunks chunks' hs hs' r r' hr hr' hlive hlive'

/-- What is passed on does not depend on the segments exactly if the stream consists of
visible lines and complete bodies, and ends as `Settled` says. -/
theorem same_however_cut (s : List UInt8) :
    SameHoweverCut s ↔ ∃ requests, Frames BUF_UNIT_SIZE Settled s requests := by
  constructor
  · intro h
    exact h.cutsAgree.frames (s.length + 1) (Nat.lt_succ_self _)
  · rintro ⟨requests, hframes⟩ σ handleCmd c c' hc hc' chunks chunks' hs hs' r r' hr hr' hlive hlive'
    have hserve : ∀ chunks : List Chunk, (chunks.map Chunk.bytes).flatten = s →
        (serve [] (chunks.map Chunk.bytes)).1 = requests := fun chunks he =>
      (serve_frames stable_settled (fun _ hm => absurd hm List.not_mem_nil) (chunks_bytes chunks) rfl
        (by rwa [List.flatten_nil, List.nil_append, he])).1
    rw [hc.feed hr hlive, hc'.feed hr' hlive', hserve chunks hs, hserve chunks' hs']

/-- A bare line feed before a line: alone it takes nothing else with it, in one segment
with the line it takes its first letter. -/
theorem line_feed_eats_letter : ¬ SameHoweverCut (10 :: ascii "get a\r\n") := by
  intro h
  have hagree := h.cutsAgree [[10], ascii "get a\r\n"] [10 :: ascii "get a\r\n"] (by decide +kernel)
    (by decide +kernel) (by decide +kernel) (by decide +kernel)
  exact absurd hagree (by decide +kernel)

end Tstdb
