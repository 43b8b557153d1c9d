/-
# `Tstdb.Server.View` — the index as a map, and what a section does to it

What the commands do to an index is best said on maps from keys to offsets.  A
`View` relates the states of an index to such maps and says that its calls, when
they return, answer and change accordingly; a removal may need more than that
(`Ok`).  The map is its own view.  The arena has the view of its representation
invariant, and a removal needs right parent fields on the key's path.

On a view every section is an update of one key or nothing, and `Effective` says
which, from the map alone.
-/
import Mathlib
import Tstdb.Lib.Fuel
import Tstdb.Lib.CText
import Tstdb.Lib.TernaryTree
import Tstdb.Tst.Arena
import Tstdb.Tst.Shape
import Tstdb.Tst.Put
import Tstdb.Tst.Delete
import Tstdb.Tst.Runs
import Tstdb.Server.Index
import Tstdb.Server.Store
import Tstdb.Server.Sections

namespace Tstdb

open Fuel CText

/-- A relation between the states of an index and maps that the calls respect. -/
structure View {ι : Type} (ix : Index ι) where
  Rep : ι → (Key → Nat) → Prop
  Ok : ι → Key → Prop
  get : ∀ {i m key v}, Rep i m → ix.get i key.bytes = some v → v = m key
  put : ∀ {i m key v i'}, Rep i m → ix.put i key.bytes v = some i' → Rep i' (Function.update m key v)
  delete : ∀ {i m key i'}, Rep i m → Ok i key → ix.delete i key.bytes = some i' →
    Rep i' (Function.update m key 0)

def View.map : View Index.map where
  Rep i m := ∀ key : Key, m key = i.get key.bytes
  Ok _ _ := True
  get h hv := (Option.some.inj hv).symm.trans (h _).symm
  put {i m key v i'} h hp := fun key' => by
    obtain rfl := Option.some.inj hp
    by_cases hk : key' = key
    · subst hk
      rw [Function.update_self, KeyMap.get_put_same i key'.ne]
    · rw [Function.update_of_ne hk, KeyMap.get_put_other i (fun e => hk (Key.ext e)), h]
  delete {i m key i'} h _ hd := fun key' => by
    obtain rfl := Option.some.inj hd
    by_cases hk : key' = key
    · subst hk
      rw [Function.update_self, KeyMap.get_delete_same]
    · rw [Function.update_of_ne hk, KeyMap.get_delete_other i (fun e => hk (Key.ext e)), h]

def View.arena (n : Nat) : View (Index.arena n) where
  Rep := Represents
  Ok db key := (TstOp.delete key).Linked db
  get {db m key v} h hv := by
    obtain ⟨t, F, ha, hm⟩ := h
    have hset : Settles (fun n => tstGet n db key.bytes) v := (tstGet_mono db key.bytes).settles hv
    exact (hset.unique (ha.get key.ne)).trans (hm key)
  put {db m key v db'} h hp := by
    obtain ⟨t, F, ha, hm⟩ := h
    simp only [Index.arena] at hp
    split_ifs at hp with hroom
    have hlt : db.size + key.bytes.length < UINT32 := lt_trans hroom (by decide)
    obtain ⟨db₁, hset, ha₁, -, -⟩ := ha.put key.ne v (Arena.put_room t F hlt)
    obtain rfl := ((tstPut_mono db key.bytes v).settles hp).unique hset
    exact ⟨_, _, ha₁, lookup_put_update t m hm key v (by simp)⟩
  delete {db m key db'} h hok hd := by
    obtain ⟨db₁, hset, hr⟩ := @Represents.step db m (.delete key) h trivial hok
    obtain rfl := ((tstDelete_mono db key.bytes).settles hd).unique hset
    exact hr

/-! ## Effects -/

/-- Whether the section changes the index, given what the map says. -/
def Section.Effective (m : Key → Nat) : Section → Prop
  | .set .. => True
  | .cas key _ _ _ sign => m key.toKey = sign
  | .incrOrDecr key _ _ | .delete key | .deleteExpireValue key => m key.toKey ≠ 0

section Effect

variable {ι : Type} {ix : Index ι} {now : Int} {st st' : Store ι} {reply : Reply}

/-- A section that returns leaves the map alone when it is not effective, and
otherwise maps its key to the new record or to nothing. -/
theorem Section.run_view (V : View ix) {m : Key → Nat} {s : Section}
    (h : s.run ix now st = .ok (reply, st')) (hr : V.Rep st.index m)
    (hok : s.removes = true → V.Ok st.index s.key.toKey) :
    (¬ s.Effective m ∧ V.Rep st'.index m ∧ st'.dataFile = st.dataFile) ∨
      (s.Effective m ∧ ∃ flag expire body, Stored ix st st' s.key.bytes flag expire body ∧
        V.Rep st'.index (Function.update m s.key.toKey st.dataFile.length)) ∨
      (s.Effective m ∧ Removed ix st st' s.key.bytes ∧ V.Rep st'.index (Function.update m s.key.toKey 0)) := by
  cases s with
  | set key flag expire body =>
      have hst := (Section.run_set h).2
      exact Or.inr (Or.inl ⟨trivial, _, _, _, hst, V.put hr hst.index⟩)
  | cas key flag expire body sign =>
      obtain ⟨v, hv, ⟨hne, -, rfl⟩ | ⟨rfl, -, hst⟩⟩ := Section.run_cas h
      · exact Or.inl ⟨fun e => hne ((V.get hr hv).trans e), hr, rfl⟩
      · exact Or.inr (Or.inl ⟨(V.get hr hv).symm, _, _, _, hst, V.put hr hst.index⟩)
  | incrOrDecr key delta isDecr =>
      obtain ⟨v, hv, ⟨rfl, -, rfl⟩ | ⟨hne, len, flag, expire, -, -, -, -, hst⟩⟩ := Section.run_incrOrDecr h
      · exact Or.inl ⟨fun hno => hno (V.get hr hv).symm, hr, rfl⟩
      · exact Or.inr (Or.inl ⟨fun e => hne ((V.get hr hv).trans e), _, _, _, hst, V.put hr hst.index⟩)
  | delete key =>
      obtain ⟨v, hv, ⟨rfl, -, rfl⟩ | ⟨hne, -, hrm⟩⟩ := Section.run_delete h
      · exact Or.inl ⟨fun hno => hno (V.get hr hv).symm, hr, rfl⟩
      · exact Or.inr (Or.inr ⟨fun e => hne ((V.get hr hv).trans e), hrm, V.delete hr (hok rfl) hrm.index⟩)
  | deleteExpireValue key =>
      have hrm := (Section.run_deleteExpireValue h).2
      have hrep := V.delete hr (hok rfl) hrm.index
      by_cases hne : m key.toKey = 0
      · refine Or.inl ⟨fun hno => hno hne, ?_, hrm.data⟩
        have hsame : Function.update m key.toKey 0 = m := by rw [← hne, Function.update_eq_self]
        exact hsame ▸ hrep
      · exact Or.inr (Or.inr ⟨hne, hrm, hrep⟩)

/-- Keys other than the section's keep their offset, and the section's own key does
unless the section is effective. -/
theorem Section.run_keeps (V : View ix) (key : Key) {m : Key → Nat} {s : Section}
    (h : s.run ix now st = .ok (reply, st')) (hr : V.Rep st.index m)
    (hok : s.removes = true → V.Ok st.index s.key.toKey)
    (hk : key = s.key.toKey → ¬ s.Effective m) :
    ∃ m', V.Rep st'.index m' ∧ m' key = m key := by
  rcases s.run_view V h hr hok with ⟨-, hr', -⟩ | ⟨heff, -, -, -, -, hr'⟩ | ⟨heff, -, hr'⟩
  · exact ⟨m, hr', rfl⟩
  · have hne : key ≠ s.key.toKey := fun e => hk e heff
    exact ⟨_, hr', Function.update_of_ne hne _ _⟩
  · have hne : key ≠ s.key.toKey := fun e => hk e heff
    exact ⟨_, hr', Function.update_of_ne hne _ _⟩

/-- The data file only grows. -/
theorem Section.run_dataFile {s : Section} (h : s.run ix now st = .ok (reply, st')) :
    ∃ bs, st'.dataFile = st.dataFile ++ bs := by
  rcases Section.run_effect h with rfl | ⟨flag, expire, body, -, hst⟩ | hrm
  · exact ⟨[], (List.append_nil _).symm⟩
  · exact ⟨_, hst.data⟩
  · exact ⟨[], by rw [hrm.data, List.append_nil]⟩

end Effect

end Tstdb
