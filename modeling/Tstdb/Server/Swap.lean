/-
# `Tstdb.Server.Swap` — the sign of a `gets` and the `cas` that carries it

Here the index is a map.  The sign of a value is its offset in the data file.  The
file only grows, over restarts too, and every store takes the end of it as offset;
so an offset names one store for ever, and a key that has been changed never gets
an old sign back (`Offsets`, `Offsets.step_changed`).  A `cas` compares signs, and
that is enough.
-/
import Mathlib
import Tstdb.Lib.Runs
import Tstdb.Lib.CText
import Tstdb.Lib.Bytes
import Tstdb.Tst.Runs
import Tstdb.Server.Index
import Tstdb.Server.Store
import Tstdb.Server.Sections
import Tstdb.Server.View
import Tstdb.Server.Boot
import Tstdb.Server.Workers
import Tstdb.Server.Shutdown

namespace Tstdb

open CText Bytes Runs

/-- A step of the running server, or a clean shutdown and the next start. -/
inductive ServiceEvent (W : Type) where
  | live (e : Event W)
  | restart

section Service

variable {W : Type} [DecidableEq W]

/-- One step and its reply.  The workers have finished when the server shuts down. -/
def ServiceStep (sys : System KeyMap W) (l : ServiceEvent W × Reply) (sys' : System KeyMap W) : Prop :=
  match l with
  | (.live e, reply) => sys.exec Index.map e = some (reply, sys')
  | (.restart, reply) => reply = .silent ∧ (∀ w, sys.reading w = .idle) ∧ ∃ indexFile tmpFile sv,
      boot (dumpTst sys.store.index (Server.disk ⟨sys.store, indexFile, tmpFile⟩) .binlogRemoved) = .ok sv ∧
        sys' = { sys with store := sv.store }

/-- The server has just been started for the first time. -/
def System.Fresh (sys : System KeyMap W) : Prop :=
  (∃ sv, boot emptyDisk = .ok sv ∧ sys.store = sv.store) ∧ ∀ w, sys.reading w = .idle

/-- The offset of a key, `0` without one. -/
def System.offset (sys : System KeyMap W) (key : Key) : Nat := sys.store.index.get key.bytes

/-- The step is a `set`, `cas`, `incr`, `decr`, `delete` or expiry removal of the key and takes
effect. -/
def touches (key : Key) (sys : System KeyMap W) : ServiceEvent W × Reply → Prop
  | (.live e, _) => ∃ s, sys.sectionOf e = some s ∧ s.key.toKey = key ∧ s.Effective sys.offset
  | (.restart, _) => False

/-- The offsets in the index lie in the data file, and not at its start. -/
def Offsets (sys : System KeyMap W) : Prop :=
  0 < sys.store.dataFile.length ∧ ∀ key, sys.offset key < sys.store.dataFile.length

omit [DecidableEq W] in
theorem rep_offset (sys : System KeyMap W) : View.map.Rep sys.store.index sys.offset := fun _ => rfl

omit [DecidableEq W] in
theorem offset_of_rep {sys : System KeyMap W} {m : Key → Nat} (h : View.map.Rep sys.store.index m) :
    sys.offset = m := by
  funext key
  exact (h key).symm

/-! ## What a step does to the offsets -/

theorem restart_store {sys sys' : System KeyMap W} {reply : Reply}
    (h : ServiceStep sys (.restart, reply) sys') :
    sys' = { sys with store :=
      { index := sys.store.index
        dataFile := if sys.store.dataFile.length = 0 then dataFileHead else sys.store.dataFile
        binlog := [] } } := by
  obtain ⟨-, -, indexFile, tmpFile, sv, hb, rfl⟩ := h
  have hboot : boot (dumpTst sys.store.index (Server.disk ⟨sys.store, indexFile, tmpFile⟩) .binlogRemoved)
      = .ok ⟨{ index := sys.store.index
               dataFile := if sys.store.dataFile.length = 0 then dataFileHead else sys.store.dataFile
               binlog := [] }, some sys.store.index, .absent⟩ := rfl
  obtain rfl := Except.ok.inj (hboot.symm.trans hb)
  rfl

theorem ServiceStep.unique {sys sys₁ sys₂ : System KeyMap W} {l : ServiceEvent W × Reply}
    (h₁ : ServiceStep sys l sys₁) (h₂ : ServiceStep sys l sys₂) : sys₁ = sys₂ := by
  obtain ⟨e, reply⟩ := l
  cases e with
  | live e => exact (Prod.mk.inj (Option.some.inj (h₁.symm.trans h₂))).2
  | restart => rw [restart_store h₁, restart_store h₂]

/-- A step leaves all offsets alone, gives one key the end of the data file, which then
grows, or takes one key out of the map. -/
theorem Offsets.step_cases {sys sys' : System KeyMap W} {l : ServiceEvent W × Reply} (ho : Offsets sys)
    (h : ServiceStep sys l sys') :
    ((∀ key, ¬ touches key sys l) ∧ sys'.offset = sys.offset ∧ sys'.store.dataFile = sys.store.dataFile) ∨
      ∃ key, touches key sys l ∧ (∀ key', touches key' sys l → key' = key) ∧
        ((sys'.offset = Function.update sys.offset key sys.store.dataFile.length ∧
            sys.store.dataFile.length < sys'.store.dataFile.length) ∨
          (sys'.offset = Function.update sys.offset key 0 ∧ sys'.store.dataFile = sys.store.dataFile)) := by
  obtain ⟨e, reply⟩ := l
  cases e with
  | restart =>
      obtain rfl := restart_store h
      exact Or.inl ⟨fun _ => id, rfl, if_neg (Nat.ne_of_gt ho.1)⟩
  | live e =>
      rcases System.exec_cases h with ⟨hs, hst⟩ | ⟨s, r, hs, hrun⟩
      · refine Or.inl ⟨fun key ht => ?_, by funext key; simp only [System.offset, hst], by rw [hst]⟩
        obtain ⟨s, hs', -⟩ := ht
        rw [hs] at hs'
        cases hs'
      · have only : ∀ key', touches key' sys (.live e, reply) → key' = s.key.toKey := by
          rintro key' ⟨s', hs', rfl, -⟩
          rw [hs] at hs'
          rw [Option.some.inj hs']
        rcases s.run_view View.map hrun (rep_offset sys) (fun _ => trivial) with
          ⟨hno, hr, hd⟩ | ⟨heff, flag, expire, body, hst, hr⟩ | ⟨heff, hrm, hr⟩
        · refine Or.inl ⟨fun key ht => ?_, offset_of_rep hr, hd⟩
          obtain ⟨s', hs', -, heff⟩ := ht
          rw [hs] at hs'
          exact hno (Option.some.inj hs' ▸ heff)
        · refine Or.inr ⟨s.key.toKey, ⟨s, hs, rfl, heff⟩, only, Or.inl ⟨offset_of_rep hr, ?_⟩⟩
          rw [hst.data, List.length_append]
          simp [recordBytes]
        · exact Or.inr ⟨s.key.toKey, ⟨s, hs, rfl, heff⟩, only, Or.inr ⟨offset_of_rep hr, hrm.data⟩⟩

omit [DecidableEq W] in
theorem Offsets.fresh {sys : System KeyMap W} (h : sys.Fresh) : Offsets sys := by
  obtain ⟨⟨sv, hb, hst⟩, -⟩ := h
  have hboot : boot emptyDisk
      = .ok (⟨{ index := KeyMap.empty, dataFile := dataFileHead, binlog := [] }, none, .absent⟩ : Server) := rfl
  obtain rfl := Except.ok.inj (hboot.symm.trans hb)
  refine ⟨by rw [hst]; decide, fun key => ?_⟩
  have hz : sys.offset key = 0 := by
    simp only [System.offset, hst, KeyMap.get, KeyMap.empty, ite_self]
  rw [hz, hst]
  decide

theorem Offsets.step {sys sys' : System KeyMap W} {l : ServiceEvent W × Reply} (ho : Offsets sys)
    (h : ServiceStep sys l sys') :
    Offsets sys' ∧ sys.store.dataFile.length ≤ sys'.store.dataFile.length := by
  obtain ⟨h0, hlt⟩ := id ho
  rcases ho.step_cases h with ⟨-, hoff, hd⟩ | ⟨key, -, -, ⟨hoff, hd⟩ | ⟨hoff, hd⟩⟩
  · rw [Offsets, hoff, hd]
    exact ⟨⟨h0, hlt⟩, le_rfl⟩
  · refine ⟨⟨by omega, fun k => ?_⟩, by omega⟩
    rw [hoff]
    by_cases hk : k = key
    · rw [hk, Function.update_self]; exact hd
    · rw [Function.update_of_ne hk]
      have := hlt k
      omega
  · rw [Offsets, hd]
    refine ⟨⟨h0, fun k => ?_⟩, le_rfl⟩
    rw [hoff]
    by_cases hk : k = key
    · rw [hk, Function.update_self]; exact h0
    · rw [Function.update_of_ne hk]; exact hlt k

/-- A key keeps its offset in a step that does not touch it. -/
theorem Offsets.step_same {sys sys' : System KeyMap W} {l : ServiceEvent W × Reply} {key : Key}
    (ho : Offsets sys) (h : ServiceStep sys l sys') (hno : ¬ touches key sys l) :
    sys'.offset key = sys.offset key := by
  rcases ho.step_cases h with ⟨-, hoff, -⟩ | ⟨key', ht, -, ⟨hoff, -⟩ | ⟨hoff, -⟩⟩
  · rw [hoff]
  · rw [hoff, Function.update_of_ne fun e : key = key' => hno (e ▸ ht)]
  · rw [hoff, Function.update_of_ne fun e : key = key' => hno (e ▸ ht)]

/-- An offset that lies in the data file and is not the key's does not become the
key's; the one a touched key had does not stay. -/
theorem Offsets.step_changed {sys sys' : System KeyMap W} {l : ServiceEvent W × Reply} {key : Key} {v : Nat}
    (ho : Offsets sys) (h : ServiceStep sys l sys') (hv : v ≠ 0) (hlt : v < sys.store.dataFile.length)
    (hch : sys.offset key ≠ v ∨ touches key sys l) : sys'.offset key ≠ v := by
  rcases ho.step_cases h with ⟨hno, hoff, -⟩ | ⟨key', ht, honly, ⟨hoff, -⟩ | ⟨hoff, -⟩⟩
  · rw [hoff]
    exact hch.resolve_right (hno key)
  · rw [hoff]
    by_cases hk : key = key'
    · rw [hk, Function.update_self]
      omega
    · rw [Function.update_of_ne hk]
      exact hch.resolve_right fun ht' => hk (honly key ht')
  · rw [hoff]
    by_cases hk : key = key'
    · rw [hk, Function.update_self]
      exact Ne.symm hv
    · rw [Function.update_of_ne hk]
      exact hch.resolve_right fun ht' => hk (honly key ht')

/-! ## Over a run -/

theorem Offsets.run {sys sys' : System KeyMap W} {ls : List (ServiceEvent W × Reply)}
    (h : Run ServiceStep sys ls sys') (ho : Offsets sys) :
    Offsets sys' ∧ sys.store.dataFile.length ≤ sys'.store.dataFile.length := by
  induction h with
  | nil s => exact ⟨ho, le_rfl⟩
  | cons hs _ ih =>
      obtain ⟨ho₁, hle₁⟩ := ho.step hs
      obtain ⟨ho₂, hle₂⟩ := ih ho₁
      exact ⟨ho₂, le_trans hle₁ hle₂⟩

/-- Once a key has another offset it never has the old one again. -/
theorem Offsets.run_changed {sys sys' : System KeyMap W} {ls : List (ServiceEvent W × Reply)} {key : Key}
    {v : Nat} (h : Run ServiceStep sys ls sys') (ho : Offsets sys) (hv : v ≠ 0)
    (hlt : v < sys.store.dataFile.length) (hch : sys.offset key ≠ v) : sys'.offset key ≠ v := by
  induction h with
  | nil s => exact hch
  | cons hs _ ih =>
      obtain ⟨ho₁, hle₁⟩ := ho.step hs
      exact ih ho₁ (lt_of_lt_of_le hlt hle₁) (ho.step_changed hs hv hlt (Or.inl hch))

/-- A key has its offset at the end of a run exactly when no step touched it. -/
theorem Offsets.run_same_iff {sys sys' : System KeyMap W} {ls : List (ServiceEvent W × Reply)} {key : Key}
    (h : Run ServiceStep sys ls sys') (ho : Offsets sys) (hv : sys.offset key ≠ 0) :
    sys'.offset key = sys.offset key ↔
      Run (Guarded ServiceStep fun sys l => ¬ touches key sys l) sys ls sys' := by
  induction h with
  | nil s => exact ⟨fun _ => .nil s, fun _ => rfl⟩
  | @cons s s₁ s' l ls hs hrest ih =>
      obtain ⟨ho₁, hle₁⟩ := ho.step hs
      have hlt : s.offset key < s.store.dataFile.length := ho.2 key
      by_cases ht : touches key s l
      · -- touched here: the offset is lost for good
        have hlost := ho₁.run_changed hrest hv (lt_of_lt_of_le hlt hle₁)
          (ho.step_changed hs hv hlt (Or.inr ht))
        refine ⟨fun e => absurd e hlost, fun hg => ?_⟩
        cases hg with
        | cons hg₁ _ => exact absurd ht hg₁.1
      · have hsame := ho.step_same hs ht
        rw [← hsame, ih ho₁ (by rw [hsame]; exact hv)]
        refine ⟨fun hg => .cons ⟨ht, hs⟩ hg, fun hg => ?_⟩
        cases hg with
        | cons hg₁ hg₂ => exact hs.unique hg₁.2 ▸ hg₂

theorem ServiceStep.command {sys sys' : System KeyMap W} {w : W} {s : Section} {reply : Reply}
    (h : ServiceStep sys (.live (.command w s), reply) sys') :
    ∃ st, s.run Index.map sys.now sys.store = .ok (reply, st) ∧ sys' = { sys with store := st } := by
  have h' : sys.exec Index.map (.command w s) = some (reply, sys') := h
  simp only [System.exec] at h'
  split at h'
  · split_ifs at h'
    exact System.runSection_eq h'
  · cases h'

theorem ServiceStep.lookup {sys sys' : System KeyMap W} {w : W} {key : WireKey} {reply : Reply}
    (h : ServiceStep sys (.live (.lookup w key), reply) sys') : sys'.store = sys.store := by
  have h' : sys.exec Index.map (.lookup w key) = some (reply, sys') := h
  rcases System.exec_cases h' with ⟨-, hst⟩ | ⟨s, r, hs, -⟩
  · exact hst
  · cases hs

/-- A store gives its key the end of the data file. -/
theorem ServiceStep.stores {sys sys' : System KeyMap W} {w : W} {s : Section} {reply : Reply}
    (h : ServiceStep sys (.live (.command w s), reply) sys') (hr : reply.stores = true) :
    sys'.offset s.key.toKey = sys.store.dataFile.length ∧
      sys.store.dataFile.length < sys'.store.dataFile.length := by
  obtain ⟨st, hrun, rfl⟩ := h.command
  obtain ⟨flag, expire, body, hst⟩ := Section.run_stores hrun hr
  constructor
  · have hput : sys.store.index.put s.key.bytes sys.store.dataFile.length = st.index :=
      Option.some.inj hst.index
    show st.index.get s.key.bytes = _
    rw [← hput, KeyMap.get_put_same _ s.key.ne]
  · show _ < st.dataFile.length
    rw [hst.data, List.length_append]
    simp [recordBytes]

/-- There is no ABA. -/
structure NoAba (W : Type) [DecidableEq W] : Prop where
  /-- A `cas` that carries the sign a `gets` of the key was given stores exactly when
  nothing touched the key since the lookup. -/
  stored_iff : ∀ {sys₀ sys₁ sys₂ sys₃ sys₄ : System KeyMap W} {ls ls' : List (ServiceEvent W × Reply)}
    {w w' : W} {key : WireKey} {flag expire : Int} {body : Body} {reply : Reply}, sys₀.Fresh →
    Run ServiceStep sys₀ ls sys₁ → ServiceStep sys₁ (.live (.lookup w key), .silent) sys₂ →
    sys₁.offset key.toKey ≠ 0 → Run ServiceStep sys₂ ls' sys₃ →
    ServiceStep sys₃ (.live (.command w' (.cas key flag expire body (sys₁.offset key.toKey))), reply) sys₄ →
    (reply = .stored ↔ Run (Guarded ServiceStep fun sys l => ¬ touches key.toKey sys l) sys₂ ls' sys₃)
  /-- Two stores have two offsets, the later one the greater. -/
  offsets_distinct : ∀ {sys₀ sys₁ sys₂ sys₃ sys₄ : System KeyMap W} {ls ls' : List (ServiceEvent W × Reply)}
    {w w' : W} {s s' : Section} {reply reply' : Reply}, sys₀.Fresh → Run ServiceStep sys₀ ls sys₁ →
    ServiceStep sys₁ (.live (.command w s), reply) sys₂ → reply.stores = true →
    Run ServiceStep sys₂ ls' sys₃ → ServiceStep sys₃ (.live (.command w' s'), reply') sys₄ →
    reply'.stores = true →
    0 < sys₂.offset s.key.toKey ∧ sys₂.offset s.key.toKey < sys₄.offset s'.key.toKey
  /-- A `cas` that does not store changes nothing. -/
  exists_unchanged : ∀ {sys sys' : System KeyMap W} {w : W} {key : WireKey} {flag expire : Int} {body : Body}
    {sign : Nat}, ServiceStep sys (.live (.command w (.cas key flag expire body sign)), .exists) sys' →
    sys'.store = sys.store

/-- Compare-and-swap has no ABA, for any number of workers and over any number of restarts. -/
theorem cas_no_aba : NoAba W where
  stored_iff := by
    intro sys₀ sys₁ sys₂ sys₃ sys₄ ls ls' w w' key flag expire body reply hfresh hrun hlook hne hrun' hcas
    obtain ⟨ho₁, -⟩ := (Offsets.fresh hfresh).run hrun
    have hst : sys₂.store = sys₁.store := hlook.lookup
    have hsame : sys₂.offset key.toKey = sys₁.offset key.toKey := by rw [System.offset, hst, System.offset]
    obtain ⟨ho₂, -⟩ := ho₁.step hlook
    have hiff := Offsets.run_same_iff hrun' ho₂ (by rw [hsame]; exact hne)
    rw [hsame] at hiff
    rw [← hiff]
    obtain ⟨st, hsec, -⟩ := hcas.command
    obtain ⟨v, hv, hcases⟩ := Section.run_cas hsec
    have hv' : v = sys₃.offset key.toKey := (Option.some.inj hv).symm
    rcases hcases with ⟨hno, rfl, -⟩ | ⟨heq, rfl, -⟩
    · refine ⟨fun h => ?_, fun h => absurd (hv'.trans h) hno⟩
      cases h
    · exact ⟨fun _ => hv'.symm.trans heq, fun _ => rfl⟩
  offsets_distinct := by
    intro sys₀ sys₁ sys₂ sys₃ sys₄ ls ls' w w' s s' reply reply' hfresh hrun hs hr hrun' hs' hr'
    obtain ⟨ho₁, -⟩ := (Offsets.fresh hfresh).run hrun
    obtain ⟨ho₂, -⟩ := ho₁.step hs
    obtain ⟨-, hle⟩ := ho₂.run hrun'
    obtain ⟨hoff, hgrow⟩ := hs.stores hr
    obtain ⟨hoff', -⟩ := hs'.stores hr'
    rw [hoff, hoff']
    exact ⟨ho₁.1, lt_of_lt_of_le hgrow hle⟩
  exists_unchanged := by
    intro sys sys' w key flag expire body sign h
    obtain ⟨st, hrun, rfl⟩ := h.command
    exact Section.run_refused hrun (Or.inl rfl)

end Service

end Tstdb
