/-
# `Tstdb.Server.Workers` — clients on different workers

The commands of the clients interleave at the two locks.  `set`, `cas`, `incr`,
`decr` and `delete` are one section each.  A `get` of a key is three steps of its
worker: the lookup under `g_reader_lock`; reading the record, which holds no lock,
and asking for the time; and, when the record has expired, the section of
`delete_expire_value`.  Between the three anything may happen on other workers.

That last section deletes by name: it does not look again at what the key maps to.
So a record stored in between is removed, which is what `Careful` steps exclude and
the run at the end of the file shows.
-/
import Mathlib
import Tstdb.Lib.Fuel
import Tstdb.Lib.Runs
import Tstdb.Lib.CText
import Tstdb.Lib.Bytes
import Tstdb.Tst.Arena
import Tstdb.Tst.Shape
import Tstdb.Tst.Runs
import Tstdb.Server.Index
import Tstdb.Server.Store
import Tstdb.Server.Sections
import Tstdb.Server.View
import Tstdb.Server.Boot

namespace Tstdb

open Fuel CText Bytes Runs

/-- What a worker's `get` is at. -/
inductive Reading where
  | idle
  /-- The lookup found this offset. -/
  | looked (key : WireKey) (valueOffset : Nat)
  /-- The record has expired, `delete_expire_value` comes next. -/
  | expired (key : WireKey)

structure System (ι W : Type) where
  store : Store ι
  now : Int
  reading : W → Reading

inductive Event (W : Type) where
  | tick (seconds : Nat)
  /-- The section of a `set`, `cas`, `incr`, `decr` or `delete`. -/
  | command (w : W) (s : Section)
  | lookup (w : W) (key : WireKey)
  | check (w : W)
  | remove (w : W)

def Section.isCommand : Section → Bool
  | .deleteExpireValue _ => false
  | _ => true

section Exec

variable {ι W : Type} [DecidableEq W] (ix : Index ι)

def System.setReading (sys : System ι W) (w : W) (r : Reading) : System ι W :=
  { sys with reading := Function.update sys.reading w r }

/-- Run a section and go on with the reply and the new store. -/
def System.runSection (sys : System ι W) (s : Section) : Option (Reply × System ι W) :=
  (s.run ix sys.now sys.store).toOption.map fun (reply, st) => (reply, { sys with store := st })

/-- One step; `none` when the worker is at another step or the step does not return. -/
def System.exec (sys : System ι W) : Event W → Option (Reply × System ι W)
  | .tick seconds => some (.silent, { sys with now := sys.now + seconds })
  | .command w s =>
      match sys.reading w with
      | .idle => if s.isCommand then sys.runSection ix s else none
      | _ => none
  | .lookup w key =>
      match sys.reading w with
      | .idle => (ix.get sys.store.index key.bytes).map fun valueOffset =>
          (.silent, if 0 < valueOffset then sys.setReading w (.looked key valueOffset) else sys)
      | _ => none
  | .check w =>
      match sys.reading w with
      | .looked key valueOffset =>
          (readTmp sys.store.dataFile valueOffset).toOption.map fun (_, _, expire) =>
            if 0 < expire ∧ expire ≤ wrap32 sys.now then (.silent, sys.setReading w (.expired key))
            else (.value valueOffset, sys.setReading w .idle)
      | _ => none
  | .remove w =>
      match sys.reading w with
      | .expired key => (sys.runSection ix (.deleteExpireValue key)).map fun (_, sys) =>
          (.silent, sys.setReading w .idle)
      | _ => none

/-- The section a step runs, if it runs one. -/
def System.sectionOf (sys : System ι W) : Event W → Option Section
  | .command _ s => some s
  | .remove w =>
      match sys.reading w with
      | .expired key => some (.deleteExpireValue key)
      | _ => none
  | _ => none

end Exec

section Steps

variable {ι W : Type} [DecidableEq W] {ix : Index ι} {sys sys' : System ι W} {e : Event W} {reply : Reply}

omit [DecidableEq W] in
theorem System.runSection_eq {s : Section} (h : sys.runSection ix s = some (reply, sys')) :
    ∃ st, s.run ix sys.now sys.store = .ok (reply, st) ∧ sys' = { sys with store := st } := by
  obtain ⟨⟨r, st⟩, hr, he⟩ := Option.map_eq_some_iff.mp h
  obtain ⟨rfl, rfl⟩ := Prod.mk.inj he
  cases hs : s.run ix sys.now sys.store with
  | error f => rw [hs] at hr; cases hr
  | ok p => rw [hs] at hr; cases hr; exact ⟨st, rfl, rfl⟩

/-- All a step can do: run its section, or leave the store alone. -/
theorem System.exec_cases (h : sys.exec ix e = some (reply, sys')) :
    (sys.sectionOf e = none ∧ sys'.store = sys.store) ∨
      ∃ s reply', sys.sectionOf e = some s ∧ s.run ix sys.now sys.store = .ok (reply', sys'.store) := by
  cases e with
  | tick seconds =>
      obtain ⟨-, rfl⟩ := Prod.mk.inj (Option.some.inj h)
      exact Or.inl ⟨rfl, rfl⟩
  | command w s =>
      simp only [System.exec] at h
      split at h
      · split_ifs at h
        obtain ⟨st, hrun, rfl⟩ := System.runSection_eq h
        exact Or.inr ⟨s, reply, rfl, hrun⟩
      · cases h
  | lookup w key =>
      simp only [System.exec] at h
      split at h
      · obtain ⟨v, -, he⟩ := Option.map_eq_some_iff.mp h
        obtain ⟨-, rfl⟩ := Prod.mk.inj he
        exact Or.inl ⟨rfl, by split_ifs <;> rfl⟩
      · cases h
  | check w =>
      simp only [System.exec] at h
      split at h
      · obtain ⟨t, -, he⟩ := Option.map_eq_some_iff.mp h
        refine Or.inl ⟨rfl, ?_⟩
        split_ifs at he <;> obtain ⟨-, rfl⟩ := Prod.mk.inj he <;> rfl
      · cases h
  | remove w =>
      simp only [System.exec, System.sectionOf] at h ⊢
      cases hr : sys.reading w with
      | idle => rw [hr] at h; cases h
      | looked key v => rw [hr] at h; cases h
      | expired key =>
          rw [hr] at h
          obtain ⟨⟨r, sys₁⟩, h₁, he⟩ := Option.map_eq_some_iff.mp h
          obtain ⟨-, rfl⟩ := Prod.mk.inj he
          obtain ⟨st, hrun, rfl⟩ := System.runSection_eq h₁
          exact Or.inr ⟨_, r, rfl, hrun⟩

/-- The data file only grows. -/
theorem System.exec_dataFile (h : sys.exec ix e = some (reply, sys')) :
    ∃ bs, sys'.store.dataFile = sys.store.dataFile ++ bs := by
  rcases System.exec_cases h with ⟨-, hst⟩ | ⟨s, r, -, hrun⟩
  · exact ⟨[], by rw [hst, List.append_nil]⟩
  · exact Section.run_dataFile hrun

end Steps

/-! ## Stored values and concurrent readers -/

section Keep

variable {ι W : Type} [DecidableEq W] {ix : Index ι} {sys sys' : System ι W} {e : Event W} {reply : Reply}

/-- The key maps to the offset of the record. -/
def System.Keeps (V : View ix) (sys : System ι W) (key : Key) (v : Nat) (r : Record) : Prop :=
  (∃ m, V.Rep sys.store.index m ∧ m key = v) ∧ recordAt sys.store.dataFile v = some r

/-- A step keeps a mapping unless its section is effective on the key. -/
theorem System.Keeps.step {V : View ix} {key : Key} {v : Nat} {r : Record} (hk : sys.Keeps V key v r)
    (h : sys.exec ix e = some (reply, sys'))
    (hok : ∀ s, sys.sectionOf e = some s → s.removes = true → V.Ok sys.store.index s.key.toKey)
    (hun : ∀ s m, sys.sectionOf e = some s → V.Rep sys.store.index m → m key = v → key = s.key.toKey →
      ¬ s.Effective m ∨ sys'.store = sys.store) : sys'.Keeps V key v r := by
  obtain ⟨⟨m, hrep, hm⟩, hrec⟩ := hk
  obtain ⟨bs, hbs⟩ := System.exec_dataFile h
  refine ⟨?_, by rw [hbs]; exact recordAt_append bs hrec⟩
  rcases System.exec_cases h with ⟨-, hst⟩ | ⟨s, r', hs, hrun⟩
  · exact ⟨m, by rw [hst]; exact hrep, hm⟩
  · by_cases heff : key = s.key.toKey ∧ s.Effective m
    · rcases hun s m hs hrep hm heff.1 with hno | hst
      · exact absurd heff.2 hno
      · exact ⟨m, by rw [hst]; exact hrep, hm⟩
    · obtain ⟨m', hrep', hm'⟩ := Section.run_keeps V key hrun hrep (hok s hs)
        fun hkey he => heff ⟨hkey, he⟩
      exact ⟨m', hrep', hm'.trans hm⟩

end Keep

/-! ## The arena's runs -/

section Arena

variable {W : Type} [DecidableEq W]

/-- A step on the arena, with its reply: with enough fuel every loop ends. -/
def System.ArenaStep (sys : System TstDb W) (l : Event W × Reply) (sys' : System TstDb W) : Prop :=
  ∃ n, sys.exec (Index.arena n) l.1 = some (l.2, sys')

/-- The label is a command on the key that takes effect. -/
def overwrites (key : Key) : Event W × Reply → Bool
  | (.command _ s, reply) => decide (s.key.toKey = key) && reply != .exists && reply != .notFound
  | _ => false

/-- The record stored by a `set` or `cas`. -/
def Section.record (now : Int) : Section → Option Record
  | .set _ flag expire body =>
      some ⟨wrap32 flag, wrap32 (if 0 < expire then wrap32 (expire + now) else expire), body.bytes⟩
  | .cas _ flag expire body _ => some ⟨wrap32 flag, wrap32 expire, body.bytes⟩
  | _ => none

/-- A section that removes finds right parent fields on its key's path, and the
section of `delete_expire_value` finds its key unmapped or mapped to a record that
has expired. -/
structure System.Careful (sys : System TstDb W) (l : Event W × Reply) : Prop where
  linked : ∀ s, sys.sectionOf l.1 = some s → s.removes = true → (TstOp.delete s.key.toKey).Linked sys.store.index
  expired : ∀ key, sys.sectionOf l.1 = some (.deleteExpireValue key) →
    ∀ v, Settles (fun n => tstGet n sys.store.index key.bytes) v →
      v = 0 ∨ ∃ r, recordAt sys.store.dataFile v = some r ∧ r.expired sys.now

/-- The record has not expired, and the step is no command on its key that takes effect. -/
def System.Quiet (key : Key) (r : Record) (sys : System TstDb W) (l : Event W × Reply) : Prop :=
  ¬ r.expired sys.now ∧ overwrites key l = false

theorem Represents.settles {db : TstDb} {m : Key → Nat} (h : Represents db m) (key : Key) :
    Settles (fun n => tstGet n db key.bytes) (m key) := by
  obtain ⟨t, F, ha, hm⟩ := h
  rw [← hm key]
  exact ha.get key.ne

theorem System.ArenaStep.represents {sys sys' : System TstDb W} {l : Event W × Reply}
    (h : sys.ArenaStep l sys') (hc : sys.Careful l) {m : Key → Nat} (hr : Represents sys.store.index m) :
    ∃ m', Represents sys'.store.index m' := by
  obtain ⟨n, h⟩ := h
  rcases System.exec_cases h with ⟨-, hst⟩ | ⟨s, r', hs, hrun⟩
  · exact ⟨m, by rw [hst]; exact hr⟩
  · rcases s.run_view (View.arena n) hrun hr (hc.linked s hs) with
      ⟨-, hr', -⟩ | ⟨-, -, -, -, -, hr'⟩ | ⟨-, -, hr'⟩
    · exact ⟨_, hr'⟩
    · exact ⟨_, hr'⟩
    · exact ⟨_, hr'⟩

/-- A careful and quiet step keeps the mapping of a key to a record. -/
theorem System.ArenaStep.keeps {sys sys' : System TstDb W} {l : Event W × Reply} {key : Key} {v : Nat}
    {r : Record} (h : sys.ArenaStep l sys') (hc : sys.Careful l) (hq : sys.Quiet key r l)
    (hk : sys.Keeps (View.arena 0) key v r) : sys'.Keeps (View.arena 0) key v r := by
  obtain ⟨n, h⟩ := h
  obtain ⟨e, reply⟩ := l
  show sys'.Keeps (View.arena n) key v r
  have hk' : sys.Keeps (View.arena n) key v r := hk
  refine System.Keeps.step hk' h hc.linked fun s m hs hrep hm hkey => ?_
  subst hkey
  cases e with
  | command w c =>
      obtain rfl : c = s := Option.some.inj hs
      have hrefused : reply = .exists ∨ reply = .notFound := by
        have hno : overwrites c.key.toKey ((Event.command w c : Event W), reply) = false := hq.2
        simp only [overwrites, decide_true, Bool.true_and] at hno
        by_contra hne
        rw [not_or] at hne
        simp [hne.1, hne.2] at hno
      simp only [System.exec] at h
      split at h
      · split_ifs at h
        obtain ⟨st, hrun, rfl⟩ := System.runSection_eq h
        exact Or.inr (Section.run_refused hrun hrefused)
      · cases h
  | remove w =>
      obtain ⟨key', rfl⟩ : ∃ key', s = .deleteExpireValue key' := by
        simp only [System.sectionOf] at hs
        split at hs
        · exact ⟨_, (Option.some.inj hs).symm⟩
        · cases hs
      refine Or.inl fun heff => ?_
      rcases hc.expired key' hs (m key'.toKey) (Represents.settles hrep _) with h0 | ⟨r', hr', hexp⟩
      · exact heff h0
      · -- the record in place is the stored one, and that has not expired
        have hv : m key'.toKey = v := hm
        rw [hv, hk.2] at hr'
        exact hq.1 (Option.some.inj hr' ▸ hexp)
  | tick seconds => cases hs
  | lookup w key' => cases hs
  | check w => cases hs

/-- What a stored reply means. -/
theorem System.ArenaStep.stored {sys sys' : System TstDb W} {w : W} {s : Section} {r : Record}
    {m : Key → Nat} (h : sys.ArenaStep (.command w s, .stored) sys') (hr : s.record sys.now = some r)
    (hrep : Represents sys.store.index m) :
    sys'.Keeps (View.arena 0) s.key.toKey sys.store.dataFile.length r := by
  obtain ⟨n, h⟩ := h
  simp only [System.exec] at h
  split at h
  · split_ifs at h
    obtain ⟨st, hrun, rfl⟩ := System.runSection_eq h
    have keep : ∀ {flag expire : Int} {body : Body}, Stored (Index.arena n) sys.store st s.key.bytes flag
        expire body.bytes → r = ⟨wrap32 flag, wrap32 expire, body.bytes⟩ →
        ({ sys with store := st } : System TstDb W).Keeps (View.arena 0) s.key.toKey
          sys.store.dataFile.length r := fun {flag expire body} hst hre => by
      refine ⟨⟨_, (View.arena n).put hrep hst.index, Function.update_self _ _ _⟩, ?_⟩
      show recordAt st.dataFile _ = _
      rw [hst.data, hre]
      exact recordAt_recordBytes _ _ _ (lt_of_le_of_lt body.framed (by decide))
    cases s with
    | set key flag expire body => exact keep (Section.run_set hrun).2 (Option.some.inj hr).symm
    | cas key flag expire body sign =>
        obtain ⟨v, -, ⟨-, e, -⟩ | ⟨-, -, hst⟩⟩ := Section.run_cas hrun
        · cases e
        · exact keep hst (Option.some.inj hr).symm
    | incrOrDecr key delta isDecr => cases hr
    | delete key => cases hr
    | deleteExpireValue key => cases hr
  · cases h

/-- In a run of careful steps, a key that was stored stays mapped to its record until the
record expires or a command on the key takes effect. -/
theorem stored_value_stays {sys₀ sys₁ sys₂ sys₃ : System TstDb W} {ls ls' : List (Event W × Reply)}
    {w : W} {s : Section} {r : Record} {m : Key → Nat} (hstart : Represents sys₀.store.index m)
    (hrun : Run (Guarded System.ArenaStep System.Careful) sys₀ ls sys₁)
    (hstore : sys₁.ArenaStep (.command w s, .stored) sys₂) (hrec : s.record sys₁.now = some r)
    (hrun' : Run (Guarded System.ArenaStep fun sys l => sys.Careful l ∧ sys.Quiet s.key.toKey r l)
      sys₂ ls' sys₃) :
    Settles (fun n => tstGet n sys₃.store.index s.key.bytes) sys₁.store.dataFile.length ∧
      recordAt sys₃.store.dataFile sys₁.store.dataFile.length = some r := by
  obtain ⟨m₁, hrep₁⟩ : ∃ m₁, Represents sys₁.store.index m₁ :=
    hrun.preserves (I := fun sys => ∃ m, Represents sys.store.index m)
      (fun _ _ _ ⟨_, hr⟩ hs => hs.2.represents hs.1 hr) ⟨m, hstart⟩
  have hkeep : sys₃.Keeps (View.arena 0) s.key.toKey sys₁.store.dataFile.length r :=
    hrun'.preserves (fun _ _ _ hk hs => hs.2.keeps hs.1.1 hs.1.2 hk) (hstore.stored hrec hrep₁)
  obtain ⟨⟨m₃, hrep₃, hm₃⟩, hrec₃⟩ := hkeep
  exact ⟨hm₃ ▸ Represents.settles hrep₃ s.key.toKey, hrec₃⟩

/-! ## Two runs -/

/-- Take the step if it answers with the reply. -/
def System.follow (fuel : Nat) (sys : System TstDb W) (l : Event W × Reply) : Option (System TstDb W) :=
  (sys.exec (Index.arena fuel) l.1).bind fun (reply, sys') => if reply = l.2 then some sys' else none

theorem System.arenaStep_of_follow {fuel : Nat} {sys sys' : System TstDb W} {l : Event W × Reply}
    (h : sys.follow fuel l = some sys') : sys.ArenaStep l sys' := by
  obtain ⟨⟨reply, sys₁⟩, h₁, h₂⟩ := Option.bind_eq_some_iff.mp h
  dsimp only at h₂
  split_ifs at h₂ with hl
  obtain rfl := Option.some.inj h₂
  exact ⟨fuel, by rw [h₁, hl]⟩

/-- `Careful`, as far as a given amount of fuel decides it. -/
def System.carefulCheck (fuel : Nat) (sys : System TstDb W) (l : Event W × Reply) : Bool :=
  match sys.sectionOf l.1 with
  | none => true
  | some s =>
      (!s.removes || parentsOnPath fuel sys.store.index s.key.bytes 0 sys.store.index.root 0 == some true) &&
        match s with
        | .deleteExpireValue key =>
            match tstGet fuel sys.store.index key.bytes with
            | none => false
            | some v => v == 0 || (recordAt sys.store.dataFile v).any fun r => decide (r.expired sys.now)
        | _ => true

omit [DecidableEq W] in
theorem System.careful_of_check {fuel : Nat} {sys : System TstDb W} {l : Event W × Reply}
    (h : sys.carefulCheck fuel l = true) : sys.Careful l := by
  unfold System.carefulCheck at h
  constructor
  · intro s hs hrem
    rw [hs] at h
    have hpath : parentsOnPath fuel sys.store.index s.key.bytes 0 sys.store.index.root 0 = some true := by
      have := (Bool.and_eq_true _ _ ▸ h).1
      simpa [hrem] using this
    exact Mono.settles (fun n b => parentsOnPath_mono _ _ n _ _ _ b) hpath
  · intro key hs v hv
    rw [hs] at h
    have h2 := (Bool.and_eq_true _ _ ▸ h).2
    dsimp only at h2
    split at h2
    · cases h2
    · rename_i v' hv'
      obtain rfl := ((tstGet_mono _ _).settles hv').unique hv
      rw [Bool.or_eq_true, beq_iff_eq, Option.any_eq_true] at h2
      rcases h2 with h0 | ⟨r, hr, hexp⟩
      · exact Or.inl h0
      · exact Or.inr ⟨r, hr, of_decide_eq_true hexp⟩

end Arena

/-- A server that starts on no files, at time 100, with all workers idle. -/
def freshSystem : System TstDb Nat :=
  { store := { index := createTstDb fun _ => TstNode.zero, dataFile := dataFileHead, binlog := [] }
    now := 100, reading := fun _ => .idle }

def wireA : WireKey := .letter 97 letter_a_ne

/-- `set a` for five seconds; ten seconds later worker 1 gets `a` and finds it expired. -/
def expiringSteps : List (Event Nat × Reply) :=
  [(.command 0 (.set wireA 0 5 ⟨[120], letter_x_framed⟩), .stored), (.tick 10, .silent), (.lookup 1 wireA, .silent),
    (.check 1, .silent)]

/-- `set a`, for good. -/
def laterSet : Section := .set wireA 0 0 ⟨[121], letter_y_framed⟩

/-- The removal comes before the second store, and the value stays. -/
theorem stored_value_stays_after_removal : ∃ sys₁ sys₂ sys₃ : System TstDb Nat,
    Run (Guarded System.ArenaStep System.Careful) freshSystem (expiringSteps ++ [(.remove 1, .silent)]) sys₁ ∧
    sys₁.ArenaStep (.command 0 laterSet, .stored) sys₂ ∧
    Run (Guarded System.ArenaStep fun sys l => sys.Careful l ∧ sys.Quiet laterSet.key.toKey ⟨0, 0, [121]⟩ l)
      sys₂ [(.lookup 1 wireA, .silent)] sys₃ ∧
    Settles (fun n => tstGet n sys₃.store.index laterSet.key.bytes) sys₁.store.dataFile.length ∧
      recordAt sys₃.store.dataFile sys₁.store.dataFile.length = some ⟨0, 0, [121]⟩ := by
  obtain ⟨sys₁, h₁, h⟩ : ∃ sys₁, runChecked (System.follow 8) (System.carefulCheck 8) freshSystem
      (expiringSteps ++ [(.remove 1, .silent)]) = some sys₁ ∧ ((sys₁.follow 8 (.command 0 laterSet, .stored)).bind
        fun sys₂ => (runChecked (System.follow 8) (fun sys l => sys.carefulCheck 8 l &&
          decide (¬ (⟨0, 0, [121]⟩ : Record).expired sys.now) && !overwrites laterSet.key.toKey l) sys₂
          [(.lookup 1 wireA, .silent)]).map fun _ => ()) = some () :=
    Option.bind_eq_some_iff.mp (by decide +kernel)
  obtain ⟨sys₂, h₂, h⟩ := Option.bind_eq_some_iff.mp h
  obtain ⟨sys₃, h₃, -⟩ := Option.map_eq_some_iff.mp h
  have run₁ : Run (Guarded System.ArenaStep System.Careful) freshSystem
      (expiringSteps ++ [(.remove 1, .silent)]) sys₁ :=
    runChecked_spec (fun _ _ _ => System.arenaStep_of_follow) (fun _ _ => System.careful_of_check) h₁
  have run₃ : Run (Guarded System.ArenaStep fun sys l => sys.Careful l ∧
      sys.Quiet laterSet.key.toKey ⟨0, 0, [121]⟩ l) sys₂ [(.lookup 1 wireA, .silent)] sys₃ :=
    runChecked_spec (fun _ _ _ => System.arenaStep_of_follow) (fun sys l hc => by
      simp only [Bool.and_eq_true, decide_eq_true_eq, Bool.not_eq_true'] at hc
      exact ⟨System.careful_of_check hc.1.1, hc.1.2, hc.2⟩) h₃
  have hstore := System.arenaStep_of_follow h₂
  exact ⟨sys₁, sys₂, sys₃, run₁, hstore, run₃,
    stored_value_stays (Represents.create (fun _ => TstNode.zero) rfl) run₁ hstore rfl run₃⟩

/-- The store comes before the removal, and the value is gone. -/
theorem stored_value_lost : ¬ ∀ (sys₀ sys₁ sys₂ sys₃ : System TstDb Nat) (ls ls' : List (Event Nat × Reply))
    (w : Nat) (s : Section) (r : Record) (m : Key → Nat), Represents sys₀.store.index m →
    Run System.ArenaStep sys₀ ls sys₁ → sys₁.ArenaStep (.command w s, .stored) sys₂ →
    s.record sys₁.now = some r →
    Run (Guarded System.ArenaStep (System.Quiet s.key.toKey r)) sys₂ ls' sys₃ →
    Settles (fun n => tstGet n sys₃.store.index s.key.bytes) sys₁.store.dataFile.length := by
  intro H
  obtain ⟨sys₁, h₁, h⟩ : ∃ sys₁, runChecked (System.follow 8) (fun _ _ => true) freshSystem expiringSteps
      = some sys₁ ∧ ((sys₁.follow 8 (.command 0 laterSet, .stored)).bind fun sys₂ =>
        (runChecked (System.follow 8) (fun sys l => decide (¬ (⟨0, 0, [121]⟩ : Record).expired sys.now) &&
          !overwrites laterSet.key.toKey l) sys₂ [(.remove 1, .silent)]).bind fun sys₃ =>
            if tstGet 8 sys₃.store.index [97] = some 0 ∧ sys₁.store.dataFile.length ≠ 0 then some () else none)
        = some () :=
    Option.bind_eq_some_iff.mp (by decide +kernel)
  obtain ⟨sys₂, h₂, h⟩ := Option.bind_eq_some_iff.mp h
  obtain ⟨sys₃, h₃, hget⟩ := Option.bind_eq_some_iff.mp h
  have run₁ : Run (Guarded System.ArenaStep fun _ _ => True) freshSystem expiringSteps sys₁ :=
    runChecked_spec (fun _ _ _ => System.arenaStep_of_follow) (fun _ _ _ => trivial) h₁
  have run₃ : Run (Guarded System.ArenaStep (System.Quiet laterSet.key.toKey ⟨0, 0, [121]⟩)) sys₂
      [(.remove 1, .silent)] sys₃ :=
    runChecked_spec (fun _ _ _ => System.arenaStep_of_follow) (fun sys l hc => by
      simp only [Bool.and_eq_true, decide_eq_true_eq, Bool.not_eq_true'] at hc
      exact ⟨hc.1, hc.2⟩) h₃
  have hkept := H freshSystem sys₁ sys₂ sys₃ expiringSteps [(.remove 1, .silent)] 0 laterSet ⟨0, 0, [121]⟩ _
    (Represents.create (fun _ => TstNode.zero) rfl) run₁.unguard (System.arenaStep_of_follow h₂) rfl run₃
  split_ifs at hget with hbad
  have h0 : Settles (fun n => tstGet n sys₃.store.index [97]) 0 := (tstGet_mono _ _).settles hbad.1
  exact hbad.2 (hkept.unique h0)

end Tstdb
