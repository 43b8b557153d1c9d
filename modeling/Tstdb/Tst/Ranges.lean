/-
# `Tstdb.Tst.Ranges` — `tst_less`, `tst_greater` and `tst_prefix` as enumerations

What the three calls list, in terms of the keys of the index: a `Listing` of a map is
the list of its keys in the order of `char`, and each call answers the first keys of
a part of it.  For `tst_less` and `tst_greater` the part is not quite the one below or
above the bound.  Where the bound ends they compare its terminator with the letters
that follow, and the bytes from `0x80` on are below it.
-/
import Mathlib
import Tstdb.Lib.Fuel
import Tstdb.Lib.Runs
import Tstdb.Lib.CText
import Tstdb.Lib.TernaryTree
import Tstdb.Lib.TernaryWords
import Tstdb.Tst.Arena
import Tstdb.Tst.Shape
import Tstdb.Tst.Put
import Tstdb.Tst.Runs
import Tstdb.Tst.Calls
import Tstdb.Tst.Twin
import Tstdb.Tst.Scan
import Tstdb.Tst.Walks

namespace Tstdb

open Fuel CText Runs

/-! ## The keys of a map in order -/

/-- The keys with a value, in the order in which bytes compare as `char` and a prefix
comes before its extensions. -/
structure Listing (m : Key → Nat) (ks : List (List UInt8)) : Prop where
  sorted : ks.Pairwise fun k k' => letters k < letters k'
  mem : ∀ k, k ∈ ks ↔ ∃ key : Key, key.bytes = k ∧ m key ≠ 0

/-- A sorted list of keys is determined by its members. -/
theorem sorted_ext {ks ks' : List (List UInt8)} (h : ks.Pairwise fun k k' => letters k < letters k')
    (h' : ks'.Pairwise fun k k' => letters k < letters k') (hmem : ∀ k, k ∈ ks ↔ k ∈ ks') : ks = ks' := by
  have hnodup : ∀ {ks : List (List UInt8)}, (ks.Pairwise fun k k' => letters k < letters k') → ks.Nodup :=
    fun h => h.imp fun {k k'} (hlt : letters k < letters k') (e : k = k') => lt_irrefl _ (e ▸ hlt)
  have hperm : ks.Perm ks' := (List.perm_ext_iff_of_nodup (hnodup h) (hnodup h')).mpr hmem
  exact hperm.eq_of_pairwise (fun a b _ _ hab hba => absurd hab (lt_asymm hba)) h h'

theorem Listing.unique {m : Key → Nat} {ks ks' : List (List UInt8)} (h : Listing m ks) (h' : Listing m ks') :
    ks = ks' := sorted_ext h.sorted h'.sorted fun k => (h.mem k).trans (h'.mem k).symm

/-- The first keys, as many as the limit allows, and their number. -/
def cut (limit : Int) (ks : List (List UInt8)) : Listed := (ks.take limit.toNat, (ks.take limit.toNat).length)

theorem Emits.listed {limit : Int} {d : Nat} {ws : List (List UInt8)} {buf : List UInt8} {st : Scan}
    (e : Emits limit d ws ⟨[], 0, buf⟩ st) : st.listed = cut limit ws := by
  have hr := e.result
  have hs := e.size
  simp only [sub_zero, List.nil_append, zero_add] at hr hs
  rw [Scan.listed, hr, hs]
  rfl

/-! ## Trees whose words are keys -/

/-- The words the nodes of the arena spell, with a value or not, are C strings that fit
the buffers. -/
def KeysFit (t : Tree) : Prop := ∀ w i, t.find? w = some i → w.length < MAX_KEY_SIZE ∧ 0 ∉ w

/-- The database holds a tree whose words fit. -/
structure Scannable (db : TstDb) (t : Tree) : Prop where
  root : db.root = t.root
  rep : Rep db.data t
  ordered : t.Ordered
  fits : Fits 0 t

/-- The keys with a value. -/
def keysIn (t : Tree) : List (List UInt8) := t.words.map spell

theorem find?_head {t : Tree} : ∀ {a : Int} {k : List Int} {i : Nat}, t.find? (a :: k) = some i → a ∈ t.sibs := by
  induction t with
  | nil => intro a k i h; cases h
  | node j c v l m r ihl ihm ihr =>
      intro a k i h
      simp only [TTree.find?] at h
      simp only [TTree.sibs, List.mem_append, List.mem_cons]
      rcases lt_trichotomy a c with hac | rfl | hac
      · rw [if_pos hac] at h
        exact Or.inl (ihl h)
      · exact Or.inr (Or.inl rfl)
      · rw [if_neg (lt_asymm hac), if_pos hac] at h
        exact Or.inr (Or.inr (ihr h))

theorem fits_of_find? : ∀ {t : Tree} {d : Nat}, t.Ordered →
    (∀ w i, t.find? w = some i → d + w.length < MAX_KEY_SIZE ∧ 0 ∉ w) → Fits d t := by
  intro t
  induction t with
  | nil => intro _ _ _; trivial
  | node i c v l m r ihl ihm ihr =>
      intro d ho hw
      obtain ⟨hl, hr, ol, om, or⟩ := ho
      have htop := hw [c] i (by simp [TTree.find?])
      refine ⟨htop.1, fun h0 => htop.2 (by simp [h0]), ?_, ?_, ?_⟩
      · refine ihl ol fun w j hj => ?_
        cases w with
        | nil => cases l <;> cases hj
        | cons a k =>
            exact hw _ j ((if_pos (hl a (find?_head hj))).trans hj)
      · refine ihm om fun w j hj => ?_
        cases w with
        | nil => cases m <;> cases hj
        | cons a k =>
            have h := hw (c :: a :: k) j (by simpa [TTree.find?] using hj)
            simp only [List.length_cons, List.mem_cons, not_or] at h ⊢
            exact ⟨by omega, h.2.2⟩
      · refine ihr or fun w j hj => ?_
        cases w with
        | nil => cases r <;> cases hj
        | cons a k =>
            have hca := hr a (find?_head hj)
            exact hw _ j (((if_neg (lt_asymm hca)).trans (if_pos hca)).trans hj)

theorem Fits.find? : ∀ {t : Tree} {d : Nat}, Fits d t → ∀ {w : List Int} {i : Nat}, t.find? w = some i →
    d + w.length < MAX_KEY_SIZE ∧ 0 ∉ w := by
  intro t
  induction t with
  | nil => intro d _ w i h; cases w <;> cases h
  | node i c v l m r ihl ihm ihr =>
      intro d hf w j h
      obtain ⟨hd, hc, fl, fm, fr⟩ := hf
      cases w with
      | nil => cases h
      | cons a k =>
          simp only [TTree.find?] at h
          split_ifs at h with h1 h2 h3
          · exact ihl fl h
          · exact ihr fr h
          · obtain rfl : a = c := by omega
            subst h3
            exact ⟨hd, by simpa using hc.symm⟩
          · obtain rfl : a = c := by omega
            obtain ⟨hlen, h0⟩ := ihm fm h
            rw [List.length_cons, List.mem_cons, not_or]
            exact ⟨by omega, hc.symm, h0⟩

theorem Fits.keysFit {t : Tree} (h : Fits 0 t) : KeysFit t := fun w i hw => by simpa using h.find? hw

theorem Arena.scannable {db : TstDb} {t : Tree} {F : List Nat} (h : Arena db t F) (hk : KeysFit t) :
    Scannable db t :=
  ⟨h.root, h.rep, h.ordered, fits_of_find? h.ordered fun w i hw => by simpa using hk w i hw⟩

/-- The words of a tree in the arena are spelled by bytes. -/
theorem Rep.letters_spell {data : Nat → TstNode} : ∀ {t : Tree} {d : Nat}, Rep data t → Fits d t →
    ∀ w ∈ t.words, letters (spell w) = w ∧ 0 ∉ spell w := by
  intro t
  induction t with
  | nil => intro d _ _ w hw; cases hw
  | node i c v l m r ihl ihm ihr =>
      intro d h hf w hw
      obtain ⟨-, hc, fl, fm, fr⟩ := hf
      obtain ⟨-, ec, hb, -⟩ := h.cell hc
      obtain ⟨-, rl, rm, rr⟩ := h
      have hone : unchar c = (data i).c := by rw [← ec, unchar_char]
      simp only [TTree.words, List.mem_append, List.mem_map, TTree.mem_here] at hw
      rcases hw with hw | ⟨-, rfl⟩ | ⟨u, hu, rfl⟩ | hw
      · exact ihl rl fl w hw
      · refine ⟨?_, ?_⟩
        · rw [spell_cons, hone, ← ec]; rfl
        · rw [spell_cons, hone]
          simpa [spell] using hb.symm
      · obtain ⟨e, h0⟩ := ihm rm fm u hu
        rw [spell_cons, hone]
        refine ⟨?_, ?_⟩
        · rw [letters, List.map_cons, ec, ← letters, e]
        · simp [h0, hb.symm]
      · exact ihr rr fr w hw

theorem Scannable.listing {db : TstDb} {t : Tree} (h : Scannable db t) :
    Listing (fun key => t.lookup (letters key.bytes)) (keysIn t) := by
  have hspell := h.rep.letters_spell h.fits
  refine ⟨?_, fun k => ?_⟩
  · refine List.pairwise_map.mpr ((TTree.words_sorted h.ordered).imp_of_mem fun {w w'} hw hw' hlt => ?_)
    rwa [(hspell w hw).1, (hspell w' hw').1]
  · rw [keysIn, List.mem_map]
    constructor
    · rintro ⟨w, hw, rfl⟩
      have hne : spell w ≠ [] := by
        obtain ⟨a, u, rfl, -⟩ := TTree.head_of_mem_words hw
        exact List.cons_ne_nil _ _
      refine ⟨⟨spell w, hne, (hspell w hw).2⟩, rfl, ?_⟩
      show t.lookup (letters (spell w)) ≠ 0
      rw [(hspell w hw).1]
      exact (TTree.mem_words h.ordered).mp hw
    · rintro ⟨key, rfl, hv⟩
      exact ⟨letters key.bytes, (TTree.mem_words h.ordered).mpr hv, spell_letters _⟩

/-- Selecting words is selecting keys. -/
theorem Scannable.filter_keysIn {db : TstDb} {t : Tree} (h : Scannable db t) (P : List Int → Prop)
    [DecidablePred P] : (t.words.filter fun w => P w).map spell = (keysIn t).filter fun k => P (letters k) := by
  rw [keysIn, List.filter_map]
  congr 1
  refine List.filter_congr fun w hw => ?_
  simp [(h.rep.letters_spell h.fits w hw).1]

/-! ## What the calls answer -/

theorem atPath_zeroKey : AtPath [] ⟨[], 0, zeroKey⟩ := ⟨by simp [zeroKey], rfl, by simp, by decide⟩

theorem Outputs.listed {f : Nat → Option Scan} {limit : Int} {d : Nat} {ws : List (List UInt8)} {buf : List UInt8}
    (h : Outputs f limit d ws ⟨[], 0, buf⟩) : Settles (fun n => (f n).map Scan.listed) (cut limit ws) := by
  obtain ⟨st, hs, e⟩ := h
  exact e.listed ▸ hs.map Scan.listed

@[simp] theorem below_root (ws : List (List Int)) : below [] ws = ws.map spell := rfl

theorem cut_nil (limit : Int) : cut limit [] = emptyListed := by simp [cut, emptyListed]

theorem cut_of_nonpos {limit : Int} (h : limit ≤ 0) (ks : List (List UInt8)) : cut limit ks = emptyListed := by
  rw [cut, Int.toNat_of_nonpos h]
  rfl

section Calls

variable {db : TstDb} {t : Tree}

theorem Scannable.root_ne_zero (h : Scannable db t) : db.root ≠ 0 ↔ t ≠ .nil := by
  rw [h.root]
  cases t with
  | nil => simp
  | node i c v l m r => simpa using h.rep.1.1

theorem Scannable.less (h : Scannable db t) (bound : Key) (limit : Int) :
    Settles (fun n => tstLess n db bound.bytes limit emptyListed)
      (cut limit ((keysIn t).filter fun k => letters k < letters bound.bytes ++ [0]).reverse) := by
  have hne : bound.bytes.length ≠ 0 := fun e => bound.ne (List.length_eq_zero_iff.mp e)
  simp only [tstLess, if_neg hne]
  rcases Classical.em (db.root = 0) with h0 | h0
  · obtain rfl : t = .nil := not_not.mp (h.root_ne_zero.not.mp (not_not.mpr h0))
    simp only [if_pos h0]
    exact (cut_nil limit).symm ▸ settles_const emptyListed
  · simp only [if_neg h0]
    rcases le_or_gt limit 0 with hl | hl
    · rw [cut_of_nonpos hl]
      exact Settles.succ (fun n => congrArg (Option.map Scan.listed) ((if_neg h0).trans (if_pos hl)))
        (settles_const emptyListed)
    · have hout := dfsLess_lists db hl t [] bound.bytes ⟨[], 0, zeroKey⟩ h.ordered h.rep h.fits atPath_zeroKey
      rw [below_root, List.map_reverse, upTo, h.filter_keysIn fun w => w < letters bound.bytes ++ [0], ← h.root] at hout
      exact hout.listed

theorem Scannable.greater (h : Scannable db t) (bound : Key) (limit : Int) :
    Settles (fun n => tstGreater n db bound.bytes limit emptyListed)
      (cut limit ((keysIn t).filter fun k => TTree.From 0 (letters bound.bytes) (letters k))) := by
  have hne : bound.bytes.length ≠ 0 := fun e => bound.ne (List.length_eq_zero_iff.mp e)
  simp only [tstGreater, if_neg hne]
  rcases Classical.em (db.root = 0) with h0 | h0
  · obtain rfl : t = .nil := not_not.mp (h.root_ne_zero.not.mp (not_not.mpr h0))
    simp only [if_pos h0]
    exact (cut_nil limit).symm ▸ settles_const emptyListed
  · simp only [if_neg h0]
    rcases le_or_gt limit 0 with hl | hl
    · rw [cut_of_nonpos hl]
      exact Settles.succ (fun n => congrArg (Option.map Scan.listed) ((if_neg h0).trans (if_pos hl)))
        (settles_const emptyListed)
    · have hclear : Clear 0 ⟨[], 0, zeroKey⟩ := by
        intro j _
        simp [zeroKey, List.getElem?_replicate]
        split_ifs <;> rfl
      have hout := dfsGreater_lists db hl t [] bound.bytes ⟨[], 0, zeroKey⟩ h.ordered h.rep h.fits
        atPath_zeroKey hclear
      rw [below_root, fromOn, h.filter_keysIn fun w => TTree.From 0 (letters bound.bytes) w, ← h.root] at hout
      exact hout.listed

end Calls

/-! ## Stores that were built by puts -/

theorem Fits.chain {v : Nat} : ∀ {k : List Int} {is : List Nat} {d : Nat}, d + k.length < MAX_KEY_SIZE → 0 ∉ k →
    Fits d (TTree.chain k v is) := by
  intro k
  induction k with
  | nil => intro is d _ _; trivial
  | cons a k ih =>
      intro is d hd h0
      cases is with
      | nil => trivial
      | cons i is =>
          simp only [List.length_cons, List.mem_cons, not_or] at hd h0
          exact ⟨by omega, fun e => h0.1 e.symm, trivial, ih (by omega) h0.2, trivial⟩

theorem Fits.put {v : Nat} {is : List Nat} : ∀ {t : Tree} {k : List Int} {d : Nat}, Fits d t →
    d + k.length < MAX_KEY_SIZE → 0 ∉ k → Fits d (t.put k v is) := by
  intro t
  induction t with
  | nil => intro k d _ hd h0; exact Fits.chain hd h0
  | node i c w l m r ihl ihm ihr =>
      intro k d hf hd h0
      obtain ⟨hlt, hc, fl, fm, fr⟩ := id hf
      cases k with
      | nil => exact hf
      | cons a k =>
          have hd' : d + 1 + k.length < MAX_KEY_SIZE := by simp only [List.length_cons] at hd; omega
          simp only [TTree.put]
          split_ifs with h1 h2 h3
          · exact ⟨hlt, hc, ihl fl hd h0, fm, fr⟩
          · exact ⟨hlt, hc, fl, fm, ihr fr hd h0⟩
          · exact ⟨hlt, hc, fl, fm, fr⟩
          · exact ⟨hlt, hc, fl, ihm fm hd' fun h => h0 (List.mem_cons_of_mem a h), fr⟩

/-- A put of a key that fits the buffers, with room for its nodes. -/
def TstOp.ShortPut (db : TstDb) : TstOp → Prop
  | .put key _ _ => key.bytes.length < MAX_KEY_SIZE ∧ db.size + key.bytes.length < ARENA_LIMIT
  | .delete _ => False

instance (db : TstDb) : ∀ op : TstOp, Decidable (op.ShortPut db)
  | .put key _ _ => inferInstanceAs (Decidable (key.bytes.length < MAX_KEY_SIZE ∧ db.size + key.bytes.length < ARENA_LIMIT))
  | .delete _ => instDecidableFalse

theorem zero_notMem_letters (key : Key) : 0 ∉ letters key.bytes := by
  intro h0
  obtain ⟨b, hb, e⟩ := List.mem_map.mp h0
  have hb0 : b = 0 := not_not.mp (mt char_ne_zero.mpr (not_not.mpr e))
  exact key.nul (hb0 ▸ hb)

/-- The database holds these keys, node `0` aside, which nothing reads here. -/
def Built (db : TstDb) (m : Key → Nat) : Prop :=
  ∃ db' t F, Twin db' db ∧ Closed db' ∧ Arena db' t F ∧ Fits 0 t ∧ ∀ key : Key, t.lookup (letters key.bytes) = m key

theorem Built.create (mem : Nat → TstNode) : Built (createTstDb mem) fun _ => 0 :=
  ⟨createTstDb fun _ => TstNode.zero, .nil, [],
    ⟨rfl, rfl, rfl, rfl, fun _ hi hle => absurd (Nat.le_zero.mp hle) hi⟩,
    closed_createTstDb _, Arena.create _ rfl, trivial, fun _ => TTree.lookup_nil _⟩

theorem Built.put {db db₁ : TstDb} {m : Key → Nat} {op : TstOp} (h : Built db m) (hop : op.ShortPut db)
    (hstep : op.Step db db₁) : Built db₁ (op.update m) := by
  obtain ⟨db', t, F, htwin, hclosed, ha, hfit, hm⟩ := h
  cases op with
  | delete key => exact absurd hop id
  | put key v pos =>
      obtain ⟨hshort, hroom⟩ := hop
      rw [htwin.size] at hroom
      obtain ⟨db₁', hset, ha', -, -⟩ := ha.put key.ne v (Arena.put_room t F (lt_trans hroom (by decide)))
      obtain ⟨n, hn⟩ := hset.answers
      obtain ⟨r, hr, htwin', hclosed'⟩ := tstPut_twin htwin hclosed hroom hn
      obtain rfl : r = db₁ := ((tstPut_mono db key.bytes v).settles hr).unique hstep
      have hlen : 0 + (letters key.bytes).length < MAX_KEY_SIZE := by rwa [length_letters, Nat.zero_add]
      exact ⟨db₁', _, _, htwin', hclosed', ha', hfit.put hlen (zero_notMem_letters key),
        lookup_put_update t m hm key v (by simp)⟩

theorem Built.scannable {db : TstDb} {m : Key → Nat} (h : Built db m) :
    ∃ t, Scannable db t ∧ ∀ key : Key, t.lookup (letters key.bytes) = m key := by
  obtain ⟨db', t, F, htwin, -, ha, hfit, hm⟩ := h
  refine ⟨t, ⟨htwin.root.trans ha.root, ha.rep.frame fun j hj => ?_, ha.ordered, hfit⟩, hm⟩
  exact htwin.data j (ha.rep.ids_ne_zero j hj) (ha.le_size j (List.mem_append_left _ hj))

/-- Any run of such puts, whatever was in memory before. -/
theorem scannable_of_puts (mem : Nat → TstNode) {ops : List TstOp} {db : TstDb}
    (hrun : Run (Guarded TstOp.Step TstOp.ShortPut) (createTstDb mem) ops db) :
    ∃ t, Scannable db t ∧ ∀ key : Key, t.lookup (letters key.bytes) = stored ops key :=
  Built.scannable (hrun.simulates TstOp.update (fun _ _ _ _ h hs => h.put hs.1 hs.2) _ (Built.create mem))

/-! ## Bounds -/

/-- The key goes on behind the bound with a byte that is negative as a `char`. -/
def HighExtension (bound key : List UInt8) : Prop := ∃ b rest, key = bound ++ b :: rest ∧ 128 ≤ b

theorem char_neg {b : UInt8} : char b < 0 ↔ 128 ≤ b := by
  revert b
  decide +kernel

theorem highExtension_iff {bound key : List UInt8} : HighExtension bound key ↔
    ∃ x u, letters key = letters bound ++ x :: u ∧ x < 0 := by
  constructor
  · rintro ⟨b, rest, rfl, hb⟩
    exact ⟨char b, letters rest, by simp [letters], char_neg.mpr hb⟩
  · rintro ⟨x, u, h, hx⟩
    obtain ⟨k₁, k₂, rfl, h₁, h₂⟩ := List.map_eq_append_iff.mp h
    obtain ⟨b, rest, rfl, rfl, -⟩ := List.map_eq_cons_iff.mp h₂
    exact ⟨b, rest, by rw [letters_inj.mp h₁], char_neg.mp hx⟩

theorem below_iff {bound key : List UInt8} :
    letters key < letters bound ++ [0] ↔ letters key ≤ letters bound ∨ HighExtension bound key := by
  rw [TTree.lt_append_iff, highExtension_iff]

theorem from_zero_iff {bound : List UInt8} {key : Key} : TTree.From 0 (letters bound) (letters key.bytes) ↔
    letters bound ≤ letters key.bytes ∧ ¬ HighExtension bound key.bytes := by
  rw [TTree.from_iff (zero_notMem_letters key), highExtension_iff]

theorem HighExtension.lt {bound key : List UInt8} (h : HighExtension bound key) : letters bound < letters key := by
  obtain ⟨b, rest, rfl, -⟩ := h
  have hlt : letters bound ++ [] < letters bound ++ char b :: letters rest :=
    List.append_left_lt (List.nil_lt_cons _ _)
  simpa [letters] using hlt

/-- What lies between a bound and an extension of it by a high byte is one itself. -/
theorem HighExtension.between {bound key key' : List UInt8} (h : HighExtension bound key)
    (hlt : letters bound < letters key') (hle : letters key' ≤ letters key) : HighExtension bound key' :=
  (below_iff.mp (lt_of_le_of_lt hle (below_iff.mpr (Or.inr h)))).resolve_left (not_le.mpr hlt)

section Bounds

variable {m : Key → Nat} {ks : List (List UInt8)}

theorem cut_eq_iff {limit : Int} {ks ks' : List (List UInt8)} :
    cut limit ks = cut limit ks' ↔ ks.take limit.toNat = ks'.take limit.toNat :=
  ⟨fun h => congrArg Prod.fst h, fun h => by rw [cut, cut, h]⟩

/-- The keys below the terminated bound are those up to the bound exactly if no key
goes on behind it with a high byte. -/
theorem Listing.less_iff (h : Listing m ks) (bound : Key) (limit : Int) :
    cut limit (ks.filter fun k => letters k < letters bound.bytes ++ [0]).reverse =
        cut limit (ks.filter fun k => letters k ≤ letters bound.bytes).reverse ↔
      (∀ key, m key ≠ 0 → ¬ HighExtension bound.bytes key.bytes) ∨ limit ≤ 0 := by
  constructor
  · intro he
    rw [or_iff_not_imp_right]
    intro hl key hv hhigh
    -- the greatest key below the terminated bound is one of them
    have hmem : key.bytes ∈ (ks.filter fun k => letters k < letters bound.bytes ++ [0]).reverse := by
      rw [List.mem_reverse, List.mem_filter]
      exact ⟨(h.mem _).mpr ⟨key, rfl, hv⟩, by simpa using below_iff.mpr (Or.inr hhigh)⟩
    have hsort : (ks.filter fun k => letters k < letters bound.bytes ++ [0]).reverse.Pairwise
        fun k k' => letters k' < letters k := List.pairwise_reverse.mpr (h.sorted.filter _)
    obtain ⟨n, hn⟩ : ∃ n, limit.toNat = n + 1 := ⟨limit.toNat - 1, by omega⟩
    rw [cut_eq_iff, hn] at he
    cases hA : (ks.filter fun k => letters k < letters bound.bytes ++ [0]).reverse with
    | nil => rw [hA] at hmem; cases hmem
    | cons a A =>
        rw [hA] at hmem hsort he
        have hge : letters key.bytes ≤ letters a := by
          rcases List.mem_cons.mp hmem with e | hA'
          · exact e ▸ le_refl _
          · exact le_of_lt ((List.pairwise_cons.mp hsort).1 _ hA')
        have hin : a ∈ ((ks.filter fun k => letters k ≤ letters bound.bytes).reverse).take (n + 1) := by
          rw [← he, List.take_succ_cons]
          exact List.mem_cons_self
        have hle : letters a ≤ letters bound.bytes := by
          simpa using (List.mem_filter.mp (List.mem_reverse.mp (List.mem_of_mem_take hin))).2
        exact absurd (le_trans hge hle) (not_le.mpr hhigh.lt)
  · rintro (hno | hl)
    · rw [cut_eq_iff]
      congr 2
      refine List.filter_congr fun k hk => ?_
      obtain ⟨key, rfl, hv⟩ := (h.mem k).mp hk
      simp only [below_iff, hno key hv, or_false]
    · rw [cut_of_nonpos hl, cut_of_nonpos hl]

/-- The bound itself comes first among the keys from the bound on. -/
theorem Listing.filter_split (h : Listing m ks) (bound : Key) (P : List UInt8 → Prop) [DecidablePred P]
    (hbound : P bound.bytes) (hP : ∀ k ∈ ks, P k → letters bound.bytes ≤ letters k) :
    (ks.filter fun k => P k) = (if m bound = 0 then [] else [bound.bytes]) ++
      ks.filter fun k => letters bound.bytes < letters k ∧ P k := by
  have hmem : bound.bytes ∈ ks ↔ m bound ≠ 0 := by
    rw [h.mem]
    exact ⟨fun ⟨key, e, hv⟩ => Key.ext e ▸ hv, fun hv => ⟨bound, rfl, hv⟩⟩
  refine sorted_ext (h.sorted.filter _) (List.pairwise_append.mpr ⟨?_, h.sorted.filter _, fun k hk k' hk' => ?_⟩)
    fun k => ?_
  · split_ifs <;> simp
  · split_ifs at hk with hv
    · cases hk
    · obtain rfl := List.mem_singleton.mp hk
      exact (of_decide_eq_true (List.mem_filter.mp hk').2).1
  · simp only [List.mem_append, List.mem_filter, decide_eq_true_eq]
    constructor
    · rintro ⟨hk, hp⟩
      rcases lt_or_eq_of_le (hP k hk hp) with hlt | heq
      · exact Or.inr ⟨hk, hlt, hp⟩
      · obtain rfl := letters_inj.mp heq
        rw [if_neg (hmem.mp hk)]
        exact Or.inl List.mem_cons_self
    · rintro (hk | ⟨hk, -, hp⟩)
      · split_ifs at hk with hv
        · cases hk
        · obtain rfl := List.mem_singleton.mp hk
          exact ⟨hmem.mpr hv, hbound⟩
      · exact ⟨hk, hp⟩

/-- The keys from the bound on and behind the terminated bound are those from the bound
on exactly if no key goes on behind it with a high byte, or the limit stops before. -/
theorem Listing.greater_iff (h : Listing m ks) (bound : Key) (limit : Int) :
    cut limit (ks.filter fun k => TTree.From 0 (letters bound.bytes) (letters k)) =
        cut limit (ks.filter fun k => letters bound.bytes ≤ letters k) ↔
      (∀ key, m key ≠ 0 → ¬ HighExtension bound.bytes key.bytes) ∨ limit ≤ if m bound = 0 then 0 else 1 := by
  have hfrom : ∀ k ∈ ks, TTree.From 0 (letters bound.bytes) (letters k) ↔
      letters bound.bytes ≤ letters k ∧ ¬ HighExtension bound.bytes k := by
    intro k hk
    obtain ⟨key, rfl, -⟩ := (h.mem k).mp hk
    exact from_zero_iff
  have hlen : (if m bound = 0 then ([] : List (List UInt8)) else [bound.bytes]).length =
      if m bound = 0 then 0 else 1 := by split_ifs <;> rfl
  have hlimit : (limit ≤ if m bound = 0 then 0 else 1) ↔ limit.toNat - (if m bound = 0 then 0 else 1) = 0 := by
    split_ifs <;> omega
  rw [cut_eq_iff, h.filter_split bound _ (Or.inl rfl) fun k hk hf => ((hfrom k hk).mp hf).1,
    h.filter_split bound (fun k => letters bound.bytes ≤ letters k) (le_refl _) fun _ _ hle => hle,
    List.take_append, List.take_append, List.append_cancel_left_eq, hlen, hlimit]
  constructor
  · intro he
    rw [or_iff_not_imp_right]
    intro hn key hv hhigh
    obtain ⟨n, hn⟩ := Nat.exists_eq_succ_of_ne_zero hn
    rw [hn] at he
    -- the first key behind the bound is one of them
    have hmem : key.bytes ∈ ks.filter fun k => letters bound.bytes < letters k ∧ letters bound.bytes ≤ letters k := by
      rw [List.mem_filter]
      exact ⟨(h.mem _).mpr ⟨key, rfl, hv⟩, by simpa using ⟨hhigh.lt, le_of_lt hhigh.lt⟩⟩
    have hsort := h.sorted.filter fun k => decide (letters bound.bytes < letters k ∧ letters bound.bytes ≤ letters k)
    cases hE : ks.filter fun k => letters bound.bytes < letters k ∧ letters bound.bytes ≤ letters k with
    | nil => rw [hE] at hmem; cases hmem
    | cons e E =>
        have hgt : e ∈ ks.filter fun k => letters bound.bytes < letters k ∧ letters bound.bytes ≤ letters k := by
          rw [hE]; exact List.mem_cons_self
        rw [hE] at hmem hsort he
        have hle : letters e ≤ letters key.bytes := by
          rcases List.mem_cons.mp hmem with e' | hE'
          · exact e' ▸ le_refl _
          · exact le_of_lt ((List.pairwise_cons.mp hsort).1 _ hE')
        have hin : e ∈ (ks.filter fun k => letters bound.bytes < letters k ∧
            TTree.From 0 (letters bound.bytes) (letters k)) := by
          refine List.mem_of_mem_take (i := n + 1) ?_
          rw [he, List.take_succ_cons]
          exact List.mem_cons_self
        obtain ⟨hk, hf⟩ := List.mem_filter.mp hin
        obtain ⟨hlt, hf⟩ := of_decide_eq_true hf
        exact ((hfrom e hk).mp hf).2 (hhigh.between hlt hle)
  · rintro (hno | hn)
    · congr 1
      refine List.filter_congr fun k hk => ?_
      obtain ⟨key, rfl, hv⟩ := (h.mem k).mp hk
      simp only [hfrom _ hk, hno key hv, not_false_eq_true, and_true]
    · rw [hn, List.take_zero, List.take_zero]

end Bounds

/-! ## `tst_greater` and `tst_less` on a store built by puts -/

/-- `tst_greater` lists the keys from the bound on exactly if no stored key goes on behind
the bound with a byte from `0x80` on, or the limit stops at the bound itself. -/
theorem tst_greater_lists (mem : Nat → TstNode) (ops : List TstOp) (db : TstDb)
    (hrun : Run (Guarded TstOp.Step TstOp.ShortPut) (createTstDb mem) ops db) (bound : Key) (limit : Int) :
    ∃ ks out, Listing (stored ops) ks ∧ Settles (fun n => tstGreater n db bound.bytes limit emptyListed) out ∧
      (out = cut limit (ks.filter fun k => letters bound.bytes ≤ letters k) ↔
        (∀ key, stored ops key ≠ 0 → ¬ HighExtension bound.bytes key.bytes) ∨
          limit ≤ if stored ops bound = 0 then 0 else 1) := by
  obtain ⟨t, hs, hm⟩ := scannable_of_puts mem hrun
  have hlist : Listing (stored ops) (keysIn t) := funext hm ▸ hs.listing
  exact ⟨_, _, hlist, hs.greater bound limit, hlist.greater_iff bound limit⟩

/-- `a`, and `a` followed by the first byte of a two-byte character. -/
def accentOps : List TstOp :=
  [.put (.letter 97 letter_a_ne) 1 Nat.one_pos, .put ⟨[97, 195], by decide, by decide⟩ 2 Nat.two_pos]

theorem run_accentOps : ∃ db, Run (Guarded TstOp.Step TstOp.ShortPut) (createTstDb fun _ => TstNode.zero)
    accentOps db := by
  obtain ⟨db, hdb⟩ : ∃ db, Runs.runChecked (fun db op => TstOp.exec 8 db op) (fun db op => decide (op.ShortPut db))
      (createTstDb fun _ => TstNode.zero) accentOps = some db := Option.isSome_iff_exists.mp (by decide +kernel)
  exact ⟨db, Runs.runChecked_spec (fun db op _ hs => (TstOp.exec_mono db op).settles hs)
    (fun _ _ h => of_decide_eq_true h) hdb⟩

theorem listing_accentOps : Listing (stored accentOps) [[97], [97, 195]] := by
  have hval : ∀ key : Key, stored accentOps key ≠ 0 ↔ key.bytes = [97, 195] ∨ key.bytes = [97] := by
    rintro ⟨bytes, ne, nul⟩
    simp only [accentOps, stored, List.foldl, TstOp.update, Function.update_apply, Key.letter, Key.mk.injEq]
    split_ifs <;> simp_all
  refine ⟨by decide, fun k => ?_⟩
  simp only [List.mem_cons, List.not_mem_nil, or_false, hval]
  constructor
  · rintro (rfl | rfl)
    · exact ⟨.letter 97 (by decide), rfl, Or.inr rfl⟩
    · exact ⟨⟨[97, 195], by decide, by decide⟩, rfl, Or.inl rfl⟩
  · rintro ⟨key, rfl, h⟩
    exact h.symm

theorem tst_greater_lists_accentOps : ∃ db, ∃ ks out, Listing (stored accentOps) ks ∧
    Settles (fun n => tstGreater n db [97] 1 emptyListed) out ∧
      (out = cut 1 (ks.filter fun k => letters [97] ≤ letters k) ↔
        (∀ key, stored accentOps key ≠ 0 → ¬ HighExtension [97] key.bytes) ∨
          (1 : Int) ≤ if stored accentOps (.letter 97 (by decide)) = 0 then 0 else 1) := by
  obtain ⟨db, hrun⟩ := run_accentOps
  exact ⟨db, tst_greater_lists (fun _ => TstNode.zero) accentOps db hrun (.letter 97 (by decide)) 1⟩

/-- The second key is missing from what `tst_greater` lists from `a` on. -/
theorem tst_greater_drops_key : ¬ ∀ (mem : Nat → TstNode) (ops : List TstOp) (db : TstDb) (bound : Key) (limit : Int)
    (ks : List (List UInt8)), Run (Guarded TstOp.Step TstOp.ShortPut) (createTstDb mem) ops db →
    Listing (stored ops) ks → Settles (fun n => tstGreater n db bound.bytes limit emptyListed)
      (cut limit (ks.filter fun k => letters bound.bytes ≤ letters k)) := by
  intro H
  obtain ⟨db, hrun⟩ := run_accentOps
  have hspec := H _ accentOps db (.letter 97 (by decide)) 10 _ hrun listing_accentOps
  obtain ⟨t, hs, hm⟩ := scannable_of_puts _ hrun
  have hkeys : keysIn t = [[97], [97, 195]] := (funext hm ▸ hs.listing).unique listing_accentOps
  have hout := hs.greater (.letter 97 (by decide)) 10
  rw [hkeys] at hout
  exact absurd (hout.unique hspec) (by decide)

/-- `tst_less` lists the keys up to the bound exactly if no stored key goes on behind the
bound with a byte from `0x80` on, or nothing is asked for. -/
theorem tst_less_lists (mem : Nat → TstNode) (ops : List TstOp) (db : TstDb)
    (hrun : Run (Guarded TstOp.Step TstOp.ShortPut) (createTstDb mem) ops db) (bound : Key) (limit : Int) :
    ∃ ks out, Listing (stored ops) ks ∧ Settles (fun n => tstLess n db bound.bytes limit emptyListed) out ∧
      (out = cut limit (ks.filter fun k => letters k ≤ letters bound.bytes).reverse ↔
        (∀ key, stored ops key ≠ 0 → ¬ HighExtension bound.bytes key.bytes) ∨ limit ≤ 0) := by
  obtain ⟨t, hs, hm⟩ := scannable_of_puts mem hrun
  have hlist : Listing (stored ops) (keysIn t) := funext hm ▸ hs.listing
  exact ⟨_, _, hlist, hs.less bound limit, hlist.less_iff bound limit⟩

theorem tst_less_lists_accentOps : ∃ db, ∃ ks out, Listing (stored accentOps) ks ∧
    Settles (fun n => tstLess n db [97] 0 emptyListed) out ∧
      (out = cut 0 (ks.filter fun k => letters k ≤ letters [97]).reverse ↔
        (∀ key, stored accentOps key ≠ 0 → ¬ HighExtension [97] key.bytes) ∨ 0 ≤ (0 : Int)) := by
  obtain ⟨db, hrun⟩ := run_accentOps
  exact ⟨db, tst_less_lists (fun _ => TstNode.zero) accentOps db hrun (.letter 97 (by decide)) 0⟩

/-- The second key is the first one `tst_less` lists up to `a`. -/
theorem tst_less_adds_key : ¬ ∀ (mem : Nat → TstNode) (ops : List TstOp) (db : TstDb) (bound : Key) (limit : Int)
    (ks : List (List UInt8)), Run (Guarded TstOp.Step TstOp.ShortPut) (createTstDb mem) ops db →
    Listing (stored ops) ks → Settles (fun n => tstLess n db bound.bytes limit emptyListed)
      (cut limit (ks.filter fun k => letters k ≤ letters bound.bytes).reverse) := by
  intro H
  obtain ⟨db, hrun⟩ := run_accentOps
  have hspec := H _ accentOps db (.letter 97 (by decide)) 10 _ hrun listing_accentOps
  obtain ⟨t, hs, hm⟩ := scannable_of_puts _ hrun
  have hkeys : keysIn t = [[97], [97, 195]] := (funext hm ▸ hs.listing).unique listing_accentOps
  have hout := hs.less (.letter 97 (by decide)) 10
  rw [hkeys] at hout
  exact absurd (hout.unique hspec) (by decide)

/-! ## `tst_prefix` on any arena -/

theorem letters_isPrefix {k k' : List UInt8} : letters k <+: letters k' ↔ k <+: k' :=
  List.prefix_map_iff_of_injective fun _ _ => char_inj.mp

section Prefix

variable {db : TstDb} {t : Tree}

/-- The keys that start with a prefix: the prefix, and what is below its node. -/
theorem Scannable.filter_prefix (h : Scannable db t) (pre : Key) :
    ((keysIn t).filter fun k => pre.bytes <+: k) = match t.under (letters pre.bytes) with
      | none => []
      | some (v, m) => (if v = 0 then [] else [pre.bytes]) ++ below pre.bytes m.words := by
  have hw := congrArg (List.map spell) (TTree.filter_prefix t h.ordered (letters pre.bytes) pre.letters_ne_nil)
  rw [h.filter_keysIn fun w => letters pre.bytes <+: w] at hw
  simp only [letters_isPrefix] at hw
  rw [hw]
  cases t.under (letters pre.bytes) with
  | none => rfl
  | some p =>
      obtain ⟨v, m⟩ := p
      have hspell : spell ∘ (letters pre.bytes ++ ·) = fun w => pre.bytes ++ spell w := by
        funext w
        show spell (letters pre.bytes ++ w) = _
        rw [spell, List.map_append, ← spell, ← spell, spell_letters]
      rcases Classical.em (v = 0) with hv | hv <;> simp [hv, below, hspell]

theorem atPath_pathBuf (pre : Key) (h : pre.bytes.length < MAX_KEY_SIZE) :
    AtPath pre.bytes ⟨[], 0, pathBuf pre.bytes⟩ ∧ (pathBuf pre.bytes).getD pre.bytes.length 0 = 0 := by
  have hz : ∀ j, pre.bytes.length ≤ j → (pathBuf pre.bytes).getD j 0 = 0 := by
    intro j hj
    rw [pathBuf, List.getD_append_right _ _ _ _ hj, List.getD_eq_getElem?_getD, List.getElem?_replicate]
    split_ifs <;> rfl
  refine ⟨⟨?_, List.take_left, pre.nul, hz _ (Nat.le_sub_one_of_lt h)⟩, hz _ (le_refl _)⟩
  show (pathBuf pre.bytes).length = _
  rw [pathBuf, List.length_append, List.length_replicate]
  omega

/-- The walk below the node of the prefix; it leaves the prefix in the buffer alone
only if there is nothing to walk through. -/
theorem dfs_below {m : Tree} {pre : List UInt8} {st : Scan} (hrep : Rep db.data m) (hfit : Fits pre.length m)
    (hst : AtPath pre st) (limit : Int) (order : SortingOrder) :
    ∃ st', Settles (fun n => if st.resultSize < limit then dfs n db m.root pre.length limit order st else some st) st' ∧
      Emits limit pre.length (below pre (order.list m.words)) st st' ∧
      (m = .nil → st' = st) ∧ (m ≠ .nil → st.resultSize < limit → cstr st'.keyBuf ≠ pre) := by
  obtain ⟨hout, hwalk⟩ := dfs_walks db limit order m pre st hrep hfit hst
  rcases lt_or_ge st.resultSize limit with hl | hl
  · simp only [if_pos hl]
    cases m with
    | nil =>
        refine ⟨st, Settles.succ (fun n => dfs_zero n db pre.length limit order st) (settles_const st), ?_,
          fun _ => rfl, fun h => absurd rfl h⟩
        cases order <;> exact .nil st
    | node i c v l m r =>
        obtain ⟨st', hs, e, b, hb⟩ := hwalk (by simp) hl
        exact ⟨st', hs, e, fun h => (by simp at h), fun _ _ => hb.cstr_ne⟩
  · simp only [if_neg (not_lt.mpr hl)]
    exact ⟨st, settles_const st, .full hl, fun _ => rfl, fun _ h => absurd hl (not_le.mpr h)⟩

/-- With `w` in place of the prefix at the end of the list. -/
theorem cut_append_singleton {limit : Int} {ks : List (List UInt8)} {w k : List UInt8} :
    cut limit (ks ++ [w]) = cut limit (ks ++ [k]) ↔ w = k ∨ limit ≤ ks.length := by
  rw [cut_eq_iff, List.take_append, List.take_append, List.append_cancel_left_eq]
  rcases le_or_gt limit ks.length with h | h
  · have h0 : limit.toNat - ks.length = 0 := by omega
    simp [h0, h]
  · obtain ⟨n, hn⟩ : ∃ n, limit.toNat - ks.length = n + 1 := ⟨limit.toNat - ks.length - 1, by omega⟩
    simp [hn, h]

/-- What `tst_prefix` answers where the prefix has a node. -/
theorem Scannable.prefix_found (h : Scannable db t) (pre : Key) (limit : Int) (order : SortingOrder) {v : Nat}
    {m : Tree} (hu : t.under (letters pre.bytes) = some (v, m)) :
    ∃ w, Settles (fun n => tstPrefix n db pre.bytes limit order emptyListed)
        (cut limit (match order with
          | .asc => (if v = 0 then [] else [pre.bytes]) ++ below pre.bytes m.words
          | .desc => (below pre.bytes m.words).reverse ++ (if v = 0 then [] else [w]))) ∧
      w.length < MAX_KEY_SIZE ∧ (m = .nil → w = pre.bytes) ∧
      (order = .desc → m ≠ .nil → 0 < limit → w ≠ pre.bytes) := by
  have hpos : 0 < pre.bytes.length := List.length_pos_iff.mpr pre.ne
  have hfound := searchWithPath_found db pre.bytes t 0 h.rep h.fits hpos
  rw [List.drop_zero, hu, List.take_zero, ← h.root] at hfound
  obtain ⟨i, hsearch, hi, ev, em, hrep, hfit, hlt⟩ := hfound
  obtain ⟨hst, hend⟩ := atPath_pathBuf pre hlt
  have hstr := hst.cstr_of_end hlt hend
  obtain ⟨st₁, hif, e₁, hbuf⟩ := hst.append_if limit pre.bytes.length (order = .asc ∧ v ≠ 0)
  obtain ⟨st₂, hdfs, e₂, hnil, hne⟩ := dfs_below hrep hfit (hst.keep e₁) limit order
  obtain ⟨st₃, hif', e₃, -⟩ := ((hst.keep e₁).keep e₂).append_if limit pre.bytes.length (order = .desc ∧ v ≠ 0)
  have hbuf' : cstr st₁.keyBuf = pre.bytes := hbuf ▸ hstr
  have hs : Settles (fun n => tstPrefix n db pre.bytes limit order emptyListed) st₃.listed := by
    simp only [tstPrefix, if_neg (Nat.ne_of_gt hpos)]
    refine hsearch.bind ?_
    simp only [if_neg hi, ev, em, ← and_assoc, hif, Option.bind_some, hbuf']
    refine hdfs.bind ?_
    simp only [hif', Option.map_some]
    exact settles_const _
  refine ⟨cstr st₂.keyBuf, ?_, ((hst.keep e₁).keep e₂).length_cstr, fun hm => ?_, fun ho hm hl => ?_⟩
  · have e := (e₁.trans (e₂.trans e₃)).listed
    rw [e] at hs
    cases order with
    | asc => simpa [hstr, SortingOrder.list] using hs
    | desc => simpa [SortingOrder.list] using hs
  · rw [hnil hm, hbuf']
  · have hst₁ : st₁ = ⟨[], 0, pathBuf pre.bytes⟩ := by
      rw [if_neg fun hc => absurd (ho.symm.trans hc.1.1) (by decide)] at hif
      exact (Option.some.inj hif).symm
    exact hne hm (hst₁ ▸ hl)

/-- The keys that go on behind the prefix. -/
theorem Scannable.filter_proper (h : Scannable db t) (pre : Key) {v : Nat} {m : Tree}
    (hu : t.under (letters pre.bytes) = some (v, m)) :
    ((keysIn t).filter fun k => pre.bytes <+: k ∧ k ≠ pre.bytes) = below pre.bytes m.words := by
  have hf := h.filter_prefix pre
  rw [hu] at hf
  have hboth : ((keysIn t).filter fun k => pre.bytes <+: k ∧ k ≠ pre.bytes) =
      ((keysIn t).filter fun k => pre.bytes <+: k).filter fun k => k ≠ pre.bytes := by
    rw [List.filter_filter]
    exact List.filter_congr fun k _ => by simp [and_comm]
  rw [hboth, hf, List.filter_append]
  have htop : (if v = 0 then [] else [pre.bytes]).filter (fun k => k ≠ pre.bytes) = [] := by
    split_ifs <;> simp
  have hbelow : (below pre.bytes m.words).filter (fun k => k ≠ pre.bytes) = below pre.bytes m.words := by
    refine List.filter_eq_self.mpr fun k hk => ?_
    obtain ⟨w, hw, rfl⟩ := List.mem_map.mp hk
    obtain ⟨a, u, rfl, -⟩ := TTree.head_of_mem_words hw
    simp
  rw [htop, hbelow, List.nil_append]

theorem Scannable.prefix_iff (h : Scannable db t) (pre : Key) (limit : Int) (order : SortingOrder) :
    ∃ out, Settles (fun n => tstPrefix n db pre.bytes limit order emptyListed) out ∧
      (out = cut limit (order.list ((keysIn t).filter fun k => pre.bytes <+: k)) ↔
        order = .asc ∨ t.lookup (letters pre.bytes) = 0 ∨
          (∀ w, w ≠ [] → t.find? (letters pre.bytes ++ w) = none) ∨
          limit ≤ ((keysIn t).filter fun k => pre.bytes <+: k ∧ k ≠ pre.bytes).length) := by
  have hpos : 0 < pre.bytes.length := List.length_pos_iff.mpr pre.ne
  have hlookup := TTree.lookup_of_under (t := t) (k := letters pre.bytes)
  have hfilter := h.filter_prefix pre
  cases hu : t.under (letters pre.bytes) with
  | none =>
      rw [hu] at hlookup hfilter
      have hfound := searchWithPath_found db pre.bytes t 0 h.rep h.fits hpos
      rw [List.drop_zero, hu, List.take_zero, ← h.root] at hfound
      obtain ⟨path, hsearch⟩ := hfound
      refine ⟨emptyListed, ?_, ⟨fun _ => Or.inr (Or.inl hlookup), fun _ => ?_⟩⟩
      · simp only [tstPrefix, if_neg (Nat.ne_of_gt hpos)]
        exact hsearch.bind (settles_const emptyListed)
      · rw [hfilter]
        cases order <;> exact (cut_nil limit).symm
  | some p =>
      obtain ⟨v, m⟩ := p
      rw [hu] at hlookup hfilter
      have hv : t.lookup (letters pre.bytes) = v := hlookup
      have hnil : (∀ w, w ≠ [] → t.find? (letters pre.bytes ++ w) = none) ↔ m = .nil := by
        rw [TTree.eq_nil_iff_find?]
        refine forall_congr' fun w => imp_congr_right fun hw => ?_
        rw [TTree.find?_append hw pre.letters_ne_nil, hu, Option.bind_some]
      obtain ⟨w, hs, -, hsame, hother⟩ := h.prefix_found pre limit order hu
      refine ⟨_, hs, ?_⟩
      rw [hfilter, hnil, h.filter_proper pre hu, hv]
      cases order with
      | asc => simp [SortingOrder.list]
      | desc =>
          have hlen : (below pre.bytes m.words).reverse.length = (below pre.bytes m.words).length :=
            List.length_reverse
          simp only [SortingOrder.list, List.reverse_append, reduceCtorEq, false_or]
          rcases Classical.em (v = 0) with h0 | h0
          · simp [h0]
          · simp only [h0, if_false, false_or, List.reverse_singleton, cut_append_singleton, hlen]
            constructor
            · rintro (e | hl)
              · rcases Classical.em (m = .nil) with hm | hm
                · exact Or.inl hm
                · rcases le_or_gt limit 0 with hl | hl
                  · exact Or.inr (le_trans hl (Int.natCast_nonneg _))
                  · exact absurd e (hother rfl hm hl)
              · exact Or.inr hl
            · exact Or.imp_left hsame

end Prefix

/-- `tst_prefix` lists the keys with the prefix in the asked order, except that `DESC`
spoils the prefix itself: then it has to have no value, nothing below it, or no turn. -/
theorem tst_prefix_lists {db : TstDb} {t : Tree} {F : List Nat} (h : Arena db t F) (hk : KeysFit t)
    (m : Key → Nat) (hm : ∀ key : Key, Settles (fun n => tstGet n db key.bytes) (m key)) (pre : Key) (limit : Int)
    (order : SortingOrder) :
    ∃ ks out, Listing m ks ∧ Settles (fun n => tstPrefix n db pre.bytes limit order emptyListed) out ∧
      (out = cut limit (order.list (ks.filter fun k => pre.bytes <+: k)) ↔
        order = .asc ∨ m pre = 0 ∨ (∀ w, w ≠ [] → t.find? (letters pre.bytes ++ w) = none) ∨
          limit ≤ (ks.filter fun k => pre.bytes <+: k ∧ k ≠ pre.bytes).length) := by
  have hs := h.scannable hk
  obtain rfl : m = fun key => t.lookup (letters key.bytes) := funext fun key => (h.get_iff key).mp (hm key)
  obtain ⟨out, hout, hiff⟩ := hs.prefix_iff pre limit order
  exact ⟨keysIn t, out, hs.listing, hout, hiff⟩

/-- Two keys in an empty database. -/
theorem arena_two (k₁ k₂ : Key) (v₁ v₂ : Nat) (h : k₁.bytes.length + k₂.bytes.length < MAX_KEY_SIZE) :
    ∃ db F, Arena db (((TTree.nil : Tree).put (letters k₁.bytes) v₁ (supply [] 0 k₁.bytes.length)).put
      (letters k₂.bytes) v₂ (supply [] k₁.bytes.length k₂.bytes.length)) F := by
  have hbig : MAX_KEY_SIZE < UINT32 := by decide
  obtain ⟨db₁, -, a₁, s₁, -⟩ := (Arena.create (fun _ => TstNode.zero) rfl).put k₁.ne v₁
    (Arena.put_room _ _ (lt_trans (show 0 + k₁.bytes.length < MAX_KEY_SIZE by omega) hbig))
  have e₁ : db₁.size = k₁.bytes.length := s₁.trans (by simp [TTree.missing, createTstDb, newTstDb])
  obtain ⟨db₂, -, a₂, -, -⟩ := a₁.put k₂.ne v₂ (Arena.put_room _ _ (by rw [e₁]; exact lt_trans h hbig))
  rw [e₁] at a₂
  simp only [TTree.missing, List.drop_nil] at a₂
  exact ⟨db₂, _, a₂⟩

/-- `a` and `ab`. -/
def nestedTree : Tree := .node 1 97 1 .nil (.node 2 98 2 .nil .nil .nil) .nil

theorem arena_nested : ∃ db F, Arena db nestedTree F := by
  obtain ⟨db, F, h⟩ := arena_two (.letter 97 (by decide)) ⟨[97, 98], by decide, by decide⟩ 1 2 (by decide)
  have ht : ((TTree.nil : Tree).put (letters [97]) 1 (supply [] 0 1)).put (letters [97, 98]) 2 (supply [] 1 2) =
      nestedTree := by decide
  exact ⟨db, F, ht ▸ h⟩

theorem tst_prefix_lists_nested : ∃ (db : TstDb) (ks : List (List UInt8)) (out : Listed),
    Listing (fun key => nestedTree.lookup (letters key.bytes)) ks ∧
      Settles (fun n => tstPrefix n db [97] 1 .desc emptyListed) out ∧
      (out = cut 1 (SortingOrder.desc.list (ks.filter fun k => [97] <+: k)) ↔
        SortingOrder.desc = .asc ∨ nestedTree.lookup (letters [97]) = 0 ∨
          (∀ w, w ≠ [] → nestedTree.find? (letters [97] ++ w) = none) ∨
          (1 : Int) ≤ (ks.filter fun k => [97] <+: k ∧ k ≠ [97]).length) := by
  obtain ⟨db, F, h⟩ := arena_nested
  have hfits : Fits 0 nestedTree := by decide
  exact ⟨db, tst_prefix_lists h hfits.keysFit (fun key => nestedTree.lookup (letters key.bytes))
    (fun key => (h.get_iff key).mpr rfl) (.letter 97 (by decide)) 1 .desc⟩

/-- The last key listed for `a` is `ab` once more. -/
theorem tst_prefix_spoils_prefix : ¬ ∀ (db : TstDb) (t : Tree) (F : List Nat), Arena db t F → KeysFit t →
    ∀ m : Key → Nat, (∀ key : Key, Settles (fun n => tstGet n db key.bytes) (m key)) →
    ∀ (pre : Key) (limit : Int) (order : SortingOrder) (ks : List (List UInt8)), Listing m ks →
      Settles (fun n => tstPrefix n db pre.bytes limit order emptyListed)
        (cut limit (order.list (ks.filter fun k => pre.bytes <+: k))) := by
  intro H
  obtain ⟨db, F, h⟩ := arena_nested
  have hfits : Fits 0 nestedTree := by decide
  have hs := h.scannable hfits.keysFit
  have hspec := H db nestedTree F h hfits.keysFit _ (fun key => (h.get_iff key).mpr rfl) (.letter 97 (by decide)) 10
    .desc _ hs.listing
  obtain ⟨out, hout, hiff⟩ := hs.prefix_iff (.letter 97 (by decide)) 10 .desc
  rcases hiff.mp (hout.unique hspec) with h1 | h2 | h3 | h4
  · cases h1
  · exact absurd h2 (by decide)
  · exact absurd (h3 [98] (by decide)) (by decide)
  · exact absurd h4 (by decide)

/-! ## One map, two arenas -/

/-- `tst_less` and `tst_greater` answer the same on any two arenas that hold the same
keys and values. -/
theorem tst_ranges_agree {db db' : TstDb} {t t' : Tree} {F F' : List Nat} (h : Arena db t F) (h' : Arena db' t' F')
    (hk : KeysFit t) (hk' : KeysFit t') (m : Key → Nat)
    (hm : ∀ key : Key, Settles (fun n => tstGet n db key.bytes) (m key))
    (hm' : ∀ key : Key, Settles (fun n => tstGet n db' key.bytes) (m key)) (bound : Key) (limit : Int) :
    ∃ less greater, Settles (fun n => tstLess n db bound.bytes limit emptyListed) less ∧
      Settles (fun n => tstLess n db' bound.bytes limit emptyListed) less ∧
      Settles (fun n => tstGreater n db bound.bytes limit emptyListed) greater ∧
      Settles (fun n => tstGreater n db' bound.bytes limit emptyListed) greater := by
  have hs := h.scannable hk
  have hs' := h'.scannable hk'
  have hsame : (fun key : Key => t.lookup (letters key.bytes)) = fun key => t'.lookup (letters key.bytes) :=
    funext fun key => ((h.get_iff key).mp (hm key)).symm.trans ((h'.get_iff key).mp (hm' key))
  have hkeys : keysIn t = keysIn t' := hs.listing.unique (hsame ▸ hs'.listing)
  refine ⟨_, _, hs.less bound limit, ?_, hs.greater bound limit, ?_⟩
  · rw [hkeys]
    exact hs'.less bound limit
  · rw [hkeys]
    exact hs'.greater bound limit

/-- `a` and `b`, with either of them on top. -/
theorem arena_siblings : (∃ db F, Arena db (.node 1 97 1 .nil .nil (.node 2 98 2 .nil .nil .nil)) F) ∧
    ∃ db F, Arena db (.node 1 98 2 (.node 2 97 1 .nil .nil .nil) .nil .nil) F := by
  obtain ⟨db, F, h⟩ := arena_two (.letter 97 (by decide)) (.letter 98 (by decide)) 1 2 (by decide)
  obtain ⟨db', F', h'⟩ := arena_two (.letter 98 (by decide)) (.letter 97 (by decide)) 2 1 (by decide)
  have ht : ((TTree.nil : Tree).put (letters [97]) 1 (supply [] 0 1)).put (letters [98]) 2 (supply [] 1 1) =
      .node 1 97 1 .nil .nil (.node 2 98 2 .nil .nil .nil) := by decide
  have ht' : ((TTree.nil : Tree).put (letters [98]) 2 (supply [] 0 1)).put (letters [97]) 1 (supply [] 1 1) =
      .node 1 98 2 (.node 2 97 1 .nil .nil .nil) .nil .nil := by decide
  exact ⟨⟨db, F, ht ▸ h⟩, db', F', ht' ▸ h'⟩

theorem tst_ranges_agree_siblings : ∃ (db db' : TstDb) (less greater : Listed), db.data 1 ≠ db'.data 1 ∧
    Settles (fun n => tstLess n db [98] 10 emptyListed) less ∧
      Settles (fun n => tstLess n db' [98] 10 emptyListed) less ∧
      Settles (fun n => tstGreater n db [98] 10 emptyListed) greater ∧
      Settles (fun n => tstGreater n db' [98] 10 emptyListed) greater := by
  obtain ⟨⟨db, F, h⟩, db', F', h'⟩ := arena_siblings
  have hc : char (db.data 1).c = 97 := h.rep.1.2.1
  have hc' : char (db'.data 1).c = 98 := h'.rep.1.2.1
  have hm : ∀ key : Key, (TTree.node 1 98 2 (.node 2 97 1 .nil .nil .nil) .nil .nil : Tree).lookup
      (letters key.bytes) = (TTree.node 1 97 1 .nil .nil (.node 2 98 2 .nil .nil .nil) : Tree).lookup
      (letters key.bytes) := by
    intro key
    cases letters key.bytes with
    | nil => rfl
    | cons a k =>
        simp only [TTree.lookup]
        split_ifs <;> omega
  have hfits : Fits 0 (.node 1 97 1 .nil .nil (.node 2 98 2 .nil .nil .nil)) := by decide
  have hfits' : Fits 0 (.node 1 98 2 (.node 2 97 1 .nil .nil .nil) .nil .nil) := by decide
  obtain ⟨less, greater, hagree⟩ := tst_ranges_agree h h' hfits.keysFit hfits'.keysFit _
    (fun key => (h.get_iff key).mpr rfl) (fun key => (h'.get_iff key).mpr (hm key).symm) (.letter 98 (by decide)) 10
  refine ⟨db, db', less, greater, fun e => ?_, hagree⟩
  rw [e, hc'] at hc
  exact absurd hc (by decide)

end Tstdb
