/-
# `Tstdb.Tst.Walks` — what the walks of `tst.c` list

Over a tree whose words fit the key buffer, `dfs` lists the words below a node in the
asked order, `dfs_less` those below the bound and its terminator from the top down,
and `dfs_greater` the bound and what comes after its terminator.  Each walk ends
(`Outputs`), stops at the limit, and leaves the part of the buffer alone that spells
the path to its node.
-/
import Mathlib
import Tstdb.Lib.Fuel
import Tstdb.Lib.CText
import Tstdb.Lib.TernaryTree
import Tstdb.Lib.TernaryWords
import Tstdb.Tst.Arena
import Tstdb.Tst.Shape
import Tstdb.Tst.Scan

namespace Tstdb

open Fuel CText

/-! ## Letters and bytes -/

/-- The byte of a letter. -/
def unchar (z : Int) : UInt8 := (Int8.ofInt z).toUInt8

@[simp] theorem unchar_char (b : UInt8) : unchar (char b) = b := by
  simp [unchar, char]

/-- The key of a word. -/
def spell (w : List Int) : List UInt8 := w.map unchar

@[simp] theorem spell_letters (key : List UInt8) : spell (letters key) = key := by
  simp [spell, letters, Function.comp_def]

@[simp] theorem spell_cons (z : Int) (w : List Int) : spell (z :: w) = unchar z :: spell w := rfl

/-- The words below a node fit the buffer behind the first `d` bytes, and have no
terminator in them. -/
def Fits (d : Nat) : Tree → Prop
  | .nil => True
  | .node _ c _ l m r => d + 1 < MAX_KEY_SIZE ∧ c ≠ 0 ∧ Fits d l ∧ Fits (d + 1) m ∧ Fits d r

instance : ∀ (d : Nat) (t : Tree), Decidable (Fits d t)
  | _, .nil => .isTrue trivial
  | d, .node _ c _ l m r =>
      haveI := instDecidableFits d l
      haveI := instDecidableFits (d + 1) m
      haveI := instDecidableFits d r
      inferInstanceAs (Decidable (d + 1 < MAX_KEY_SIZE ∧ c ≠ 0 ∧ Fits d l ∧ Fits (d + 1) m ∧ Fits d r))

/-- The keys a walk appends for the words below a node, the path to which spells `pre`. -/
def below (pre : List UInt8) (ws : List (List Int)) : List (List UInt8) := ws.map fun w => pre ++ spell w

@[simp] theorem below_nil (pre : List UInt8) : below pre [] = [] := rfl

@[simp] theorem below_append (pre : List UInt8) (ws ws' : List (List Int)) :
    below pre (ws ++ ws') = below pre ws ++ below pre ws' := List.map_append

@[simp] theorem below_map_cons (pre : List UInt8) (b : UInt8) (ws : List (List Int)) :
    below pre (ws.map (char b :: ·)) = below (pre ++ [b]) ws := by
  simp [below]

@[simp] theorem below_reverse (pre : List UInt8) (ws : List (List Int)) : below pre ws.reverse = (below pre ws).reverse :=
  List.map_reverse

theorem below_here (pre : List UInt8) (b : UInt8) (v : Nat) :
    below pre (TTree.here (char b) v) = if v = 0 then [] else [pre ++ [b]] := by
  unfold TTree.here
  split_ifs <;> simp [below, spell]

/-- The buffer is whole, ends with a terminator, and starts with `pre`, which is part of
a string. -/
structure AtPath (pre : List UInt8) (st : Scan) : Prop where
  length : st.keyBuf.length = MAX_KEY_SIZE
  take : st.keyBuf.take pre.length = pre
  string : 0 ∉ pre
  last : st.keyBuf.getD (MAX_KEY_SIZE - 1) 0 = 0

section AtPath

variable {limit : Int} {pre : List UInt8} {b : UInt8} {ws : List (List UInt8)} {st st' : Scan}

theorem AtPath.keep (h : AtPath pre st) (e : Emits limit pre.length ws st st') : AtPath pre st' :=
  ⟨e.length.trans h.length, e.keep.trans h.take, h.string, e.last h.last⟩

theorem AtPath.init (h : AtPath (pre ++ [b]) st) : AtPath pre st := by
  refine ⟨h.length, ?_, fun h0 => h.string (List.mem_append_left _ h0), h.last⟩
  have ht := congrArg (List.take pre.length) h.take
  rwa [List.take_take, List.length_append, Nat.min_eq_left (Nat.le_add_right _ _), List.take_left] at ht

/-- Writing the letter of a node goes one level down. -/
theorem AtPath.write (h : AtPath pre st) (hd : pre.length + 1 < MAX_KEY_SIZE) (hb : b ≠ 0) :
    AtPath (pre ++ [b]) { st with keyBuf := st.keyBuf.set pre.length b } := by
  have hlt : pre.length < st.keyBuf.length := h.length ▸ Nat.lt_of_succ_lt hd
  refine ⟨(List.length_set ..).trans h.length, ?_, ?_, getD_set_last (Or.inr hd) h.last⟩
  · show (st.keyBuf.set pre.length b).take (pre ++ [b]).length = pre ++ [b]
    rw [List.length_append, List.length_singleton, List.take_succ_eq_append_getElem (by rwa [List.length_set]),
      List.take_set_of_le (le_refl _), List.getElem_set_self, h.take]
  · rw [List.mem_append, List.mem_singleton]
    rintro (h0 | h0)
    · exact h.string h0
    · exact hb h0.symm

theorem AtPath.zero_mem (h : AtPath pre st) : 0 ∈ st.keyBuf := by
  have hlt : MAX_KEY_SIZE - 1 < st.keyBuf.length := by rw [h.length]; decide
  have hz := h.last
  rw [List.getD_eq_getElem _ _ hlt] at hz
  exact hz ▸ List.getElem_mem hlt

/-- The string in the buffer ends inside it. -/
theorem AtPath.length_cstr (h : AtPath pre st) : (cstr st.keyBuf).length < MAX_KEY_SIZE := by
  have hle : (cstr st.keyBuf).length ≤ st.keyBuf.length := (List.takeWhile_sublist _).length_le
  have hne : (cstr st.keyBuf).length ≠ st.keyBuf.length := fun e => by
    have hself : cstr st.keyBuf = st.keyBuf := (List.takeWhile_prefix _).eq_of_length e
    have h0 := notMem_cstr st.keyBuf
    rw [hself] at h0
    exact h0 h.zero_mem
  rw [h.length] at hle hne
  omega

/-- The string in the buffer starts with the path. -/
theorem AtPath.cstr_eq (h : AtPath pre st) : cstr st.keyBuf = pre ++ cstr (st.keyBuf.drop pre.length) := by
  have hsplit : st.keyBuf = pre ++ st.keyBuf.drop pre.length := by
    have hs := (List.take_append_drop pre.length st.keyBuf).symm
    rwa [h.take] at hs
  have hne : ∀ a ∈ pre, decide (a ≠ 0) = true := fun a ha => decide_eq_true fun e => h.string (e ▸ ha)
  conv_lhs => rw [hsplit]
  exact List.takeWhile_append_of_pos hne

/-- The string ends where a terminator follows. -/
theorem AtPath.cstr_of_end (h : AtPath pre st) (hd : pre.length < MAX_KEY_SIZE)
    (hz : st.keyBuf.getD pre.length 0 = 0) : cstr st.keyBuf = pre := by
  have hlt : pre.length < st.keyBuf.length := h.length ▸ hd
  rw [List.getD_eq_getElem _ _ hlt] at hz
  rw [h.cstr_eq, List.drop_eq_getElem_cons hlt, hz]
  simp [cstr]

theorem AtPath.append_result (h : AtPath pre st) : appendResult st =
    some { st with result := st.result ++ [cstr st.keyBuf], resultSize := st.resultSize + 1 } := if_pos h.zero_mem

theorem AtPath.cstr_ne (h : AtPath (pre ++ [b]) st) : cstr st.keyBuf ≠ pre := by
  intro e
  have hlen := congrArg List.length (h.cstr_eq.symm.trans e)
  simp only [List.length_append, List.length_singleton] at hlen
  omega

/-- `if (.. && *result_size < limit) append_result(..)` -/
theorem AtPath.append_if (h : AtPath pre st) (limit : Int) (d : Nat) (c : Prop) [Decidable c] :
    ∃ st₁, (if c ∧ st.resultSize < limit then appendResult st else some st) = some st₁ ∧
      Emits limit d (if c then [cstr st.keyBuf] else []) st st₁ ∧ st₁.keyBuf = st.keyBuf := by
  rcases Classical.em (c ∧ st.resultSize < limit) with hc | hc
  · refine ⟨_, (if_pos hc).trans h.append_result, ?_, rfl⟩
    rw [if_pos hc.1]
    exact .one hc.2 _
  · refine ⟨st, if_neg hc, ?_, rfl⟩
    rcases lt_or_ge st.resultSize limit with hl | hl
    · rw [if_neg fun h' => hc ⟨h', hl⟩]
      exact .nil st
    · exact .full hl

theorem AtPath.emit (limit : Int) (h : AtPath (pre ++ [b]) st) (hd : pre.length + 1 < MAX_KEY_SIZE)
    (hl : st.resultSize < limit) (value : Nat) :
    Outputs (fun _ => st.emit pre.length value) limit (pre ++ [b]).length
      (below pre (TTree.here (char b) value)) st := by
  have hlen : (pre ++ [b]).length = pre.length + 1 := List.length_append
  have ht := h.take
  have h0 := h.string
  rw [hlen] at ht
  rw [← ht] at h0
  rw [below_here, hlen, ← ht]
  exact .emit h.length hd h0 hl value

end AtPath

/-! ## The whole of a subtree -/

/-- The words in the asked order. -/
def SortingOrder.list {α : Type} : SortingOrder → List α → List α
  | .asc, ws => ws
  | .desc, ws => ws.reverse

section Walk

variable {limit : Int} {data : Nat → TstNode} {t : Tree} {d : Nat} {st : Scan}

/-- The cell of a node, its letter and the trees below it. -/
theorem Rep.cell {i : Nat} {c : Int} {v : Nat} {l m r : Tree} (h : Rep data (.node i c v l m r)) (hc : c ≠ 0) :
    i ≠ 0 ∧ char (data i).c = c ∧ (data i).c ≠ 0 ∧ (data i).value = v ∧ (data i).left = l.root ∧
      (data i).mid = m.root ∧ (data i).right = r.root := by
  obtain ⟨⟨hi, ec, ev, el, em, er⟩, -, -, -⟩ := h
  refine ⟨hi, ec, fun h0 => hc ?_, ev, el, em, er⟩
  rw [← ec, h0]
  rfl

theorem dfs_zero (fuel : Nat) (db : TstDb) (d : Nat) (limit : Int) (order : SortingOrder) (st : Scan) :
    dfs (fuel + 1) db 0 d limit order st = some st := rfl

variable {db : TstDb} {order : SortingOrder} {pre : List UInt8} {b : UInt8}

/-- The letter of the node is written again behind a part that only kept the path above it. -/
theorem Outputs.write_back {f : Nat → Option Scan} {ws : List (List UInt8)} (h : Outputs f limit pre.length ws st)
    (hs : AtPath (pre ++ [b]) st) (hd : pre.length + 1 < MAX_KEY_SIZE) :
    Outputs (fun n => (f n).bind fun st => st.write pre.length b) limit (pre ++ [b]).length ws st := by
  obtain ⟨st₁, hf, e⟩ := h
  have hb : b ≠ 0 := fun h0 => hs.string (h0 ▸ List.mem_append_right _ List.mem_cons_self)
  have hs₁ := (hs.init.keep e).write hd hb
  refine ⟨{ st₁ with keyBuf := st₁.keyBuf.set pre.length b }, hf.bind ?_, e.result, e.size,
    hs₁.take.trans hs.take.symm, hs₁.length.trans hs.length.symm, fun _ => hs₁.last⟩
  simp only [Scan.write, writeKey, if_pos (Nat.lt_of_succ_lt hd), Option.map_some]
  exact settles_const _

/-- A walk through a level that has nodes: it leaves a letter behind the path to the level. -/
def Walks (f : Nat → Option Scan) (limit : Int) (pre : List UInt8) (ws : List (List UInt8)) (st : Scan) : Prop :=
  ∃ st', Settles f st' ∧ Emits limit pre.length ws st st' ∧ ∃ b, AtPath (pre ++ [b]) st'

theorem Walks.succ {f f' : Nat → Option Scan} {ws : List (List UInt8)} (h : Walks f limit pre ws st)
    (hf : ∀ n, f' (n + 1) = f n) : Walks f' limit pre ws st := by
  obtain ⟨st', hs, e, hb⟩ := h
  exact ⟨st', Settles.succ hf hs, e, hb⟩

/-- One child, then the letter of the node, which the rest keeps. -/
theorem Outputs.walks {f : Nat → Option Scan} {g : Nat → Scan → Option Scan} {ws ws' : List (List UInt8)}
    (h : Outputs f limit pre.length ws st) (hst : AtPath pre st) (hd : pre.length + 1 < MAX_KEY_SIZE) (hb : b ≠ 0)
    (hrest : ∀ st, AtPath (pre ++ [b]) st → Outputs (fun n => g n st) limit (pre ++ [b]).length ws' st) :
    Walks (fun n => (f n).bind fun st => (st.write pre.length b).bind (g n)) limit pre (ws ++ ws') st := by
  obtain ⟨st₁, hf, e₁⟩ := h
  have hs := (hst.keep e₁).write hd hb
  obtain ⟨st', hg, e'⟩ := hrest _ hs
  have hup : pre.length ≤ (pre ++ [b]).length := by rw [List.length_append]; omega
  obtain ⟨st'', hw, e''⟩ : Outputs (fun n => (st₁.write pre.length b).bind (g n)) limit pre.length ws' st₁ :=
    .write (Nat.lt_of_succ_lt hd) (Or.inr hd) ⟨st', hg, e'.weaken hup⟩
  have hsame : st'' = st' := by
    refine hw.unique (hg.congr fun n => ?_)
    rw [Scan.write, writeKey, if_pos (Nat.lt_of_succ_lt hd)]
    rfl
  exact ⟨st', hsame ▸ hf.bind hw, hsame ▸ e₁.trans e'', b, hs.keep e'⟩

/-- `dfs` lists the words of a subtree in the asked order. -/
theorem dfs_walks (db : TstDb) (limit : Int) (order : SortingOrder) : ∀ (t : Tree) (pre : List UInt8) (st : Scan),
    Rep db.data t → Fits pre.length t → AtPath pre st →
      Outputs (fun n => dfs n db t.root pre.length limit order st) limit pre.length
        (below pre (order.list t.words)) st ∧
      (t ≠ .nil → st.resultSize < limit →
        Walks (fun n => dfs n db t.root pre.length limit order st) limit pre (below pre (order.list t.words)) st) := by
  intro t
  induction t with
  | nil =>
      intro pre st _ _ _
      refine ⟨((Outputs.done st).succ fun n => dfs_zero n db pre.length limit order st).of_eq ?_,
        fun h => absurd rfl h⟩
      cases order <;> rfl
  | node i c v l m r ihl ihm ihr =>
      intro pre st hrep hfit hst
      obtain ⟨hd, hc, fl, fm, fr⟩ := hfit
      obtain ⟨hi, ec, hb, ev, el, em, er⟩ := hrep.cell hc
      obtain ⟨-, rl, rm, rr⟩ := hrep
      subst ec
      have hd' : pre.length < MAX_KEY_SIZE := by omega
      have hlen : (pre ++ [(db.data i).c]).length = pre.length + 1 := List.length_append
      have hup : pre.length ≤ (pre ++ [(db.data i).c]).length := by omega
      have left := fun st hs => (ihl pre st rl fl hs).1
      have mid := fun st hs => (ihm (pre ++ [(db.data i).c]) st rm (hlen ▸ fm) hs).1
      have right := fun st hs => (ihr pre st rr fr hs).1
      have here := fun st (hs : AtPath (pre ++ [(db.data i).c]) st) hl => hs.emit limit hd hl v
      have hwalk : st.resultSize < limit →
          Walks (fun n => dfs n db i pre.length limit order st) limit pre
            (below pre (order.list (TTree.node i (char (db.data i).c) v l m r).words)) st := by
        intro hl
        have hstep : ∀ n, dfs (n + 1) db i pre.length limit order st = _ := fun n =>
          (if_neg hi).trans (if_neg (not_le.mpr hl))
        cases order with
        | asc =>
            have hws : below pre (SortingOrder.asc.list (TTree.node i (char (db.data i).c) v l m r).words) =
                below pre (SortingOrder.asc.list l.words) ++ ((below pre (TTree.here (char (db.data i).c) v) ++
                  below (pre ++ [(db.data i).c]) (SortingOrder.asc.list m.words)) ++
                  below pre (SortingOrder.asc.list r.words)) := by
              simp [SortingOrder.list, TTree.words]
            rw [hws]
            refine .succ ?_ hstep
            simp only [el, em, er, ev]
            rw [← hlen]
            exact (left st hst).walks hst hd hb fun st hs => .stop fun hl =>
              ((here st hs hl).bind fun st₁ e₁ =>
                ((mid st₁ (hs.keep e₁)).weaken hup).write_back (hs.keep e₁) hd).bind fun st₂ e₂ =>
                  .stop fun _ => (right st₂ (hs.keep e₂).init).write_back (hs.keep e₂) hd
        | desc =>
            have hws : below pre (SortingOrder.desc.list (TTree.node i (char (db.data i).c) v l m r).words) =
                below pre (SortingOrder.desc.list r.words) ++
                  ((below (pre ++ [(db.data i).c]) (SortingOrder.desc.list m.words) ++
                    below pre (TTree.here (char (db.data i).c) v)) ++ below pre (SortingOrder.desc.list l.words)) := by
              simp [SortingOrder.list, TTree.words]
            rw [hws]
            refine .succ ?_ hstep
            simp only [el, em, er, ev]
            rw [← hlen]
            exact (right st hst).walks hst hd hb fun st hs => .stop fun _ =>
              ((mid st hs).bind fun st₁ e₁ => .stop fun hl => here st₁ (hs.keep e₁) hl).bind fun st₂ e₂ =>
                .stop fun _ => (left st₂ (hs.keep e₂).init).write_back (hs.keep e₂) hd
      refine ⟨?_, fun _ => hwalk⟩
      rcases le_or_gt limit st.resultSize with hl | hl
      · exact ⟨st, Settles.succ (fun n => (if_neg hi).trans (if_pos hl)) (settles_const st), .full hl⟩
      · obtain ⟨st', hs, e, -⟩ := hwalk hl
        exact ⟨st', hs, e⟩

theorem dfs_lists (db : TstDb) (limit : Int) (order : SortingOrder) (t : Tree) (pre : List UInt8) (st : Scan)
    (hrep : Rep db.data t) (hfit : Fits pre.length t) (hst : AtPath pre st) :
    Outputs (fun n => dfs n db t.root pre.length limit order st) limit pre.length
      (below pre (order.list t.words)) st := by
  exact (dfs_walks db limit order t pre st hrep hfit hst).1

/-! ## The part below a bound -/

theorem headD_letters (key : List UInt8) : (letters key).headD 0 = char (key.headD 0) := by
  cases key <;> rfl

/-- A letter that the bound goes on with is no terminator. -/
theorem eq_cons_of_headD {key : List UInt8} {b : UInt8} (h : key.headD 0 = b) (hb : b ≠ 0) :
    key = b :: key.tail := by
  cases key with
  | nil => exact absurd h.symm hb
  | cons a key => exact congrArg (· :: key) h

theorem char_ne_zero {b : UInt8} : char b ≠ 0 ↔ b ≠ 0 := not_congr (char_inj (b := 0))

/-- The words `dfs_less` lists. -/
def upTo (bound : List UInt8) (t : Tree) : List (List Int) := t.words.filter (· < letters bound ++ [0])

theorem upTo_node {i : Nat} {b : UInt8} {v : Nat} {l m r : Tree} (h : (TTree.node i (char b) v l m r).Ordered)
    (hb : b ≠ 0) (bound : List UInt8) : upTo bound (.node i (char b) v l m r) =
      if char (bound.headD 0) < char b then upTo bound l
      else if bound.headD 0 = b then
        l.words ++ (TTree.here (char b) v ++ (upTo bound.tail m).map (char b :: ·))
      else l.words ++ (TTree.here (char b) v ++ (m.words.map (char b :: ·) ++ upTo bound r)) := by
  unfold upTo
  rw [TTree.filter_below_node h (char_ne_zero.mpr hb), headD_letters]
  rcases lt_trichotomy (char (bound.headD 0)) (char b) with hlt | heq | hgt
  · rw [if_pos hlt, if_pos hlt]
  · have hne : ∀ x y : List (List Int), (if char b < char b then x else y) = y := fun x y => if_neg (lt_irrefl _)
    rw [heq, hne, hne, hne, if_pos (char_inj.mp heq), letters, letters, List.map_tail]
  · have hne : bound.headD 0 ≠ b := fun e => absurd hgt (e ▸ lt_irrefl _)
    rw [if_neg (lt_asymm hgt), if_neg (lt_asymm hgt), if_pos hgt, if_neg hne]

theorem dfsLess_lists (db : TstDb) {limit : Int} (hlimit : 0 < limit) : ∀ (t : Tree) (pre key : List UInt8)
    (st : Scan), t.Ordered → Rep db.data t → Fits pre.length t → AtPath pre st →
      Outputs (fun n => dfsLess n db t.root key pre.length limit st) limit pre.length
        (below pre (upTo key t).reverse) st := by
  intro t
  induction t with
  | nil =>
      intro pre key st _ _ _ _
      exact (Outputs.done st).succ fun n => rfl
  | node i c v l m r ihl ihm ihr =>
      intro pre key st hord hrep hfit hst
      obtain ⟨hd, hc, fl, fm, fr⟩ := hfit
      obtain ⟨hi, ec, hb, ev, el, em, er⟩ := hrep.cell hc
      obtain ⟨-, rl, rm, rr⟩ := hrep
      subst ec
      have hd' : pre.length < MAX_KEY_SIZE := by omega
      have hlen : (pre ++ [(db.data i).c]).length = pre.length + 1 := List.length_append
      have hup : pre.length ≤ (pre ++ [(db.data i).c]).length := by omega
      have left := fun st hs => dfs_lists db limit .desc l pre st rl fl hs
      have mid := fun st hs => dfs_lists db limit .desc m (pre ++ [(db.data i).c]) st rm (hlen ▸ fm) hs
      have here := fun st (hs : AtPath (pre ++ [(db.data i).c]) st) hl => hs.emit limit hd hl v
      have hs := hst.write hd hb
      refine Outputs.succ (.write hd' (Or.inr hd) ?_) fun n => (if_neg hi).trans (if_neg (not_le.mpr hlimit))
      rw [upTo_node hord hb]
      obtain ⟨-, -, ol, om, or⟩ := hord
      simp only [root_node, el, em, er, ev]
      split_ifs with h h'
      · exact ihl pre key _ ol rl fl hs.init
      · -- the bound goes on with the letter of the node
        obtain ⟨key, rfl⟩ : ∃ key', key = (db.data i).c :: key' := ⟨key.tail, eq_cons_of_headD h' hb⟩
        simp only [List.tail?_cons, Option.bind_some, List.tail_cons]
        rw [← hlen]
        refine (Outputs.bind_deep hup (ihm (pre ++ [(db.data i).c]) key _ om rm (hlen ▸ fm) hs) fun st₁ e₁ =>
          .bind_deep hup (.only fun hl => here st₁ (hs.keep e₁) hl) fun st₂ e₂ =>
            .only fun _ => left st₂ ((hs.keep e₁).keep e₂).init).of_eq ?_
        simp [SortingOrder.list]
      · -- everything below the node is below the bound
        rw [← hlen]
        refine ((ihr pre key _ or rr fr hs.init).bind fun st₁ e₁ =>
          have hs₁ := (hs.init.keep e₁).write hd hb
          .write hd' (Or.inr hd) (.bind_deep hup (.only fun _ => mid _ hs₁) fun st₂ e₂ =>
            .bind_deep hup (.only fun hl => here st₂ (hs₁.keep e₂) hl) fun st₃ e₃ =>
              .only fun _ => left st₃ ((hs₁.keep e₂).keep e₃).init)).of_eq ?_
        simp [SortingOrder.list]

/-! ## The part from a bound on -/

/-- The words `dfs_greater` lists. -/
def fromOn (bound : List UInt8) (t : Tree) : List (List Int) := t.words.filter (TTree.From 0 (letters bound))

theorem fromOn_node {i : Nat} {b : UInt8} {v : Nat} {l m r : Tree} (h : (TTree.node i (char b) v l m r).Ordered)
    (hb : b ≠ 0) (bound : List UInt8) : fromOn bound (.node i (char b) v l m r) =
      if char b < char (bound.headD 0) then fromOn bound r
      else if bound.headD 0 = b then
        (if bound.tail = [] then TTree.here (char b) v else []) ++
          ((fromOn bound.tail m).map (char b :: ·) ++ r.words)
      else fromOn bound l ++ (TTree.here (char b) v ++ (m.words.map (char b :: ·) ++ r.words)) := by
  unfold fromOn
  rw [TTree.filter_from_node h (char_ne_zero.mpr hb), headD_letters]
  rcases lt_trichotomy (char (bound.headD 0)) (char b) with hlt | heq | hgt
  · have hne : bound.headD 0 ≠ b := fun e => absurd hlt (e ▸ lt_irrefl _)
    rw [if_pos hlt, if_neg (lt_asymm hlt), if_neg hne]
  · have hne : ∀ x y : List (List Int), (if char b < char b then x else y) = y := fun x y => if_neg (lt_irrefl _)
    have htail : letters bound.tail = (letters bound).tail := List.map_tail
    rw [heq, hne, hne, hne, if_pos (char_inj.mp heq), htail]
    simp only [← htail, letters_eq_nil]
  · rw [if_neg (lt_asymm hgt), if_pos hgt, if_pos hgt]

/-- Behind the node nothing has been written yet. -/
def Clear (d : Nat) (st : Scan) : Prop := ∀ j, d < j → st.keyBuf.getD j 0 = 0

theorem Clear.write {d : Nat} {st : Scan} (h : Clear d st) (b : UInt8) :
    Clear d { st with keyBuf := st.keyBuf.set d b } := by
  intro j hj
  have hne : d ≠ j := by omega
  simpa [List.getElem?_set, hne] using h j hj

/-- The bound itself, where it ends at the node: the key needs no terminator. -/
theorem Clear.visit {pre : List UInt8} {st : Scan} (h : Clear pre.length st) (hs : AtPath (pre ++ [b]) st)
    (hd : pre.length + 1 < MAX_KEY_SIZE) (limit : Int) (key : List UInt8) (v : Nat) :
    ∃ st₁, (if st.resultSize < limit ∧ key = [] ∧ v ≠ 0 then appendResult st else some st) = some st₁ ∧
      Emits limit (pre ++ [b]).length (below pre (if key = [] then TTree.here (char b) v else [])) st st₁ ∧
      st₁.keyBuf = st.keyBuf := by
  have hlen : (pre ++ [b]).length = pre.length + 1 := List.length_append
  have hstr := hs.cstr_of_end (hlen ▸ hd) (hlen ▸ h (pre.length + 1) (Nat.lt_succ_self _))
  obtain ⟨st₁, hif, e, hbuf⟩ := hs.append_if limit (pre ++ [b]).length (key = [] ∧ v ≠ 0)
  refine ⟨st₁, ?_, ?_, hbuf⟩
  · rw [← hif]
    exact if_congr And.comm rfl rfl
  · rw [hstr] at e
    rcases Classical.em (key = []) with hk | hk
    · simpa [hk, below_here] using e
    · simpa [hk] using e

theorem dfsGreater_lists (db : TstDb) {limit : Int} (hlimit : 0 < limit) : ∀ (t : Tree) (pre key : List UInt8)
    (st : Scan), t.Ordered → Rep db.data t → Fits pre.length t → AtPath pre st → Clear pre.length st →
      Outputs (fun n => dfsGreater n db t.root key pre.length limit st) limit pre.length
        (below pre (fromOn key t)) st := by
  intro t
  induction t with
  | nil =>
      intro pre key st _ _ _ _ _
      exact (Outputs.done st).succ fun n => rfl
  | node i c v l m r ihl ihm ihr =>
      intro pre key st hord hrep hfit hst hclear
      obtain ⟨hd, hc, fl, fm, fr⟩ := hfit
      obtain ⟨hi, ec, hb, ev, el, em, er⟩ := hrep.cell hc
      obtain ⟨-, rl, rm, rr⟩ := hrep
      subst ec
      have hd' : pre.length < MAX_KEY_SIZE := by omega
      have hlen : (pre ++ [(db.data i).c]).length = pre.length + 1 := List.length_append
      have hup : pre.length ≤ (pre ++ [(db.data i).c]).length := by omega
      have right := fun st hs => dfs_lists db limit .asc r pre st rr fr hs
      have mid := fun st hs => dfs_lists db limit .asc m (pre ++ [(db.data i).c]) st rm (hlen ▸ fm) hs
      have here := fun st (hs : AtPath (pre ++ [(db.data i).c]) st) hl => hs.emit limit hd hl v
      have hs := hst.write hd hb
      have hclear' := hclear.write (db.data i).c
      refine Outputs.succ (.write hd' (Or.inr hd) ?_) fun n => (if_neg hi).trans (if_neg (not_le.mpr hlimit))
      rw [fromOn_node hord hb]
      obtain ⟨-, -, ol, om, or⟩ := hord
      simp only [root_node, el, em, er, ev]
      rcases Classical.em (key.headD 0 = (db.data i).c) with h | h
      · -- the bound goes on with the letter of the node
        obtain ⟨key, rfl⟩ : ∃ key', key = (db.data i).c :: key' := ⟨key.tail, eq_cons_of_headD h hb⟩
        simp only [List.headD_cons, lt_irrefl, if_false, if_true, List.tail?_cons, Option.bind_some, List.tail_cons]
        obtain ⟨st₁, hv, e₁, hbuf⟩ := hclear'.visit hs hd limit key v
        have hclear₁ : Clear (pre ++ [(db.data i).c]).length st₁ := by
          intro j hj
          rw [hbuf]
          exact hclear' j (by omega)
        simp only [hv, Option.bind_some]
        rw [← hlen, below_append]
        refine .after (e₁.weaken hup) ((Outputs.bind_deep hup (.only fun _ => ihm (pre ++ [(db.data i).c]) key st₁ om rm
          (hlen ▸ fm) (hs.keep e₁) hclear₁) fun st₂ e₂ =>
            .only fun _ => right st₂ ((hs.keep e₁).keep e₂).init).of_eq ?_)
        simp [SortingOrder.list]
      · simp only [if_neg h]
        split_ifs with hlt
        · exact ihr pre key _ or rr fr hs.init hclear'
        · -- everything below the node is above the bound
          rw [← hlen]
          refine ((ihl pre key _ ol rl fl hs.init hclear').bind fun st₁ e₁ =>
            have hs₁ := (hs.init.keep e₁).write hd hb
            .write hd' (Or.inr hd) (.bind_deep hup (.only fun hl => here _ hs₁ hl) fun st₂ e₂ =>
              .bind_deep hup (.only fun _ => mid st₂ (hs₁.keep e₂)) fun st₃ e₃ =>
                .only fun _ => right st₃ ((hs₁.keep e₂).keep e₃).init)).of_eq ?_
          simp [SortingOrder.list]

/-! ## Following a prefix -/

/-- The array after a path has been written to it. -/
def pathBuf (key : List UInt8) : List UInt8 := key ++ List.replicate (MAX_KEY_SIZE - key.length) 0

theorem writeKey_pathBuf {key : List UInt8} {d : Nat} (hd : d < key.length) (hd' : d < MAX_KEY_SIZE) :
    writeKey (pathBuf (key.take d)) d (key.getD d 0) = some (pathBuf (key.take (d + 1))) := by
  have hlen : (key.take d).length = d := by rw [List.length_take]; omega
  have hlen' : (key.take (d + 1)).length = d + 1 := by rw [List.length_take]; omega
  obtain ⟨m, hm⟩ : ∃ m, MAX_KEY_SIZE - d = m + 1 := ⟨MAX_KEY_SIZE - d - 1, by omega⟩
  rw [writeKey, if_pos hd', pathBuf, pathBuf, hlen, hlen', hm, List.replicate_succ,
    List.set_append_right d _ hlen.le, hlen, Nat.sub_self, List.set_cons_zero,
    show MAX_KEY_SIZE - (d + 1) = m by omega, List.take_succ_eq_append_getElem hd, List.getD_eq_getElem _ _ hd,
    List.append_assoc]
  rfl

/-- What the search for a prefix answers, given the value of its node and what is below it. -/
def Found (db : TstDb) (key : List UInt8) (f : Nat → Option (Nat × List UInt8)) : Option (Nat × Tree) → Prop
  | none => ∃ path, Settles f (0, path)
  | some (v, m) => ∃ i, Settles f (i, pathBuf key) ∧ i ≠ 0 ∧ (db.data i).value = v ∧ (db.data i).mid = m.root ∧
      Rep db.data m ∧ Fits key.length m ∧ key.length < MAX_KEY_SIZE

theorem Found.succ {key : List UInt8} {f f' : Nat → Option (Nat × List UInt8)} {res : Option (Nat × Tree)}
    (h : Found db key f res) (hf : ∀ n, f' (n + 1) = f n) : Found db key f' res := by
  cases res with
  | none =>
      obtain ⟨path, hs⟩ := h
      exact ⟨path, Settles.succ hf hs⟩
  | some p =>
      obtain ⟨i, hs, h⟩ := h
      exact ⟨i, Settles.succ hf hs, h⟩

theorem searchWithPath_found (db : TstDb) (key : List UInt8) : ∀ (t : Tree) (d : Nat), Rep db.data t → Fits d t →
    d < key.length →
      Found db key (fun n => searchWithPath n db key t.root d (pathBuf (key.take d)))
        (t.under (letters (key.drop d))) := by
  intro t
  induction t with
  | nil =>
      intro d _ _ _
      exact ⟨_, Settles.succ (fun n => rfl) (settles_const _)⟩
  | node i c v l m r ihl ihm ihr =>
      intro d hrep hfit hd
      obtain ⟨hd', hc, fl, fm, fr⟩ := hfit
      obtain ⟨hi, ec, hb, ev, el, em, er⟩ := hrep.cell hc
      obtain ⟨-, rl, rm, rr⟩ := hrep
      have hdrop := letters_drop hd
      rw [hdrop]
      simp only [TTree.under]
      rw [← hdrop]
      rcases lt_trichotomy (char (key.getD d 0)) c with h | h | h
      · rw [if_pos h]
        refine (ihl d rl fl hd).succ fun n => ?_
        rw [searchWithPath, root_node, if_neg hi]
        simp only [ec, el, if_pos h]
      · have hlt : ¬ char (key.getD d 0) < c := h ▸ lt_irrefl _
        have hgt : ¬ c < char (key.getD d 0) := h ▸ lt_irrefl _
        have hsame : (db.data i).c = key.getD d 0 := char_inj.mp (ec.trans h.symm)
        have hw := writeKey_pathBuf hd (Nat.lt_of_succ_lt hd')
        rw [if_neg hlt, if_neg hgt]
        rcases Nat.lt_or_ge (d + 1) key.length with hlast | hlast
        · rw [if_neg fun e => letters_drop_eq_nil.mp e hlast]
          refine (ihm (d + 1) rm fm hlast).succ fun n => ?_
          rw [searchWithPath, root_node, if_neg hi]
          simp only [hsame, em, lt_irrefl, if_false, if_pos hlast, hw, Option.bind_some]
        · have hkey : d + 1 = key.length := by omega
          rw [hkey, List.take_length] at hw
          rw [if_pos (letters_drop_eq_nil.mpr (not_lt.mpr hlast))]
          refine ⟨i, Settles.succ (fun n => ?_) (settles_const _), hi, ev, em, rm, hkey ▸ fm, hkey ▸ hd'⟩
          rw [searchWithPath, root_node, if_neg hi]
          simp only [hsame, lt_irrefl, if_false, if_neg (not_lt.mpr hlast), hw, Option.map_some]
      · rw [if_neg (lt_asymm h), if_pos h]
        refine (ihr d rr fr hd).succ fun n => ?_
        rw [searchWithPath, root_node, if_neg hi]
        simp only [ec, er, if_neg (lt_asymm h), if_pos h]

end Walk

end Tstdb
