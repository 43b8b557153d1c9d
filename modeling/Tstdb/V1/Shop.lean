/-
# `Tstdb.V1.Shop` — what the server of v1 is for

A `Shop` has items under keys, and for each descriptor a value that is being read or a
reply that is being sent.  It knows nothing of the tree, the files and the buffers.  Any
run of the server shows the shop that its events make (`server_shows_shop`), in any order
of the descriptors and through any number of restarts, and a further event fails exactly
where it does not fit: an item of more than a megabyte less eight bytes, or a line that is
too long for its array.  The keys of requests have no white space, so that the hint file,
which would tear such keys, keeps them whole.

The talk of a descriptor outlives its connection, as its payload does: a value that is
broken off is taken up again by whoever is given the descriptor next.
-/
import Mathlib
import Tstdb.Lib.Fuel
import Tstdb.Lib.Runs
import Tstdb.Lib.CText
import Tstdb.Lib.Bytes
import Tstdb.Lib.TernaryTree
import Tstdb.Lib.Outcome
import Tstdb.Tst.Arena
import Tstdb.Tst.Shape
import Tstdb.Tst.Put
import Tstdb.Tst.Runs
import Tstdb.Tst.NullNode
import Tstdb.V1.Library
import Tstdb.V1.Tree
import Tstdb.V1.Map
import Tstdb.V1.Hint
import Tstdb.V1.Server

namespace Tstdb.V1

open Fuel CText Bytes Outcome Runs

/-! ## The store behind it -/

/-- What clients store under a key. -/
structure Item where
  flag : Int
  expire : Int
  value : List UInt8
deriving DecidableEq, Repr

/-- The bytes that are put into the database. -/
def Item.bytes (i : Item) : List UInt8 := int32LE i.flag ++ int32LE i.expire ++ i.value

def Item.expired (now : Int) (i : Item) : Bool := decide (i.expire ≠ 0 ∧ i.expire ≤ now)

/-- What goes on over a descriptor. -/
inductive Talk where
  | idle
  /-- The bytes of a value of the given length and its line end are being read. -/
  | storing (key : List UInt8) (flag expire : Int) (len : Nat) (got : List UInt8)
  /-- A reply is being sent. -/
  | telling (rest : List UInt8)
deriving DecidableEq, Repr

/-- What the server is for: items under keys, and the talks. -/
structure Shop where
  items : List UInt8 → Option Item
  talk : Nat → Talk
  opened : Nat → Bool

namespace Shop

def setTalk (a : Shop) (fd : Nat) (t : Talk) : Shop := { a with talk := Function.update a.talk fd t }

def tell (a : Shop) (fd : Nat) (text : List UInt8) : Shop := a.setTalk fd (.telling text)

def setItem (a : Shop) (key : List UInt8) (i : Option Item) : Shop := { a with items := Function.update a.items key i }

def close (a : Shop) (fd : Nat) : Shop := { a with opened := Function.update a.opened fd false }

/-- The item of a key that has not expired. -/
def fresh (a : Shop) (now : Int) (key : List UInt8) : Option Item := (a.items key).filter fun i => !i.expired now

def getText (key : List UInt8) : Option Item → List UInt8
  | none => ascii "END\r\n"
  | some i => valueHeader key i.flag i.value.length ++ i.value ++ ascii "\r\nEND\r\n"

def deadline (now expire : Int) : Int := if expire ≠ 0 then wrap32 (expire + now) else expire

/-- A request to store, with the first bytes of the value. -/
def beginSet (a : Shop) (fd : Nat) (key : List UInt8) (flag expire : Int) (len : Nat) (rest : List UInt8) : Shop :=
  if len < rest.length then (a.setItem key (some ⟨flag, expire, rest.take len⟩)).tell fd (ascii "STORED\r\n")
  else a.setTalk fd (.storing key flag expire len rest)

def serve (a : Shop) (fd : Nat) (buffer : List UInt8) (now : Int) : Asked → Shop
  | .get key => (a.setItem key (a.fresh now key)).tell fd (getText key (a.fresh now key))
  | .set key flag expire total =>
      if total < 0 ∨ (MAX_VALUE_SIZE : Int) < total then a.tell fd (ascii "ERROR\r\n")
      else
        match lineEnd (cstr buffer) with
        | none => a
        | some pos => a.beginSet fd key flag (deadline now expire) total.toNat (buffer.drop (pos + 2))
  | .delete key =>
      (a.setItem key none).tell fd (if (a.items key).isSome then ascii "DELETED\r\n" else ascii "NOT_FOUND\r\n")
  | .other => a

def receive (a : Shop) (fd : Nat) (buffer : List UInt8) (now : Int) : Shop :=
  match a.talk fd with
  | .idle =>
      match asked buffer with
      | .ok request => a.serve fd buffer now request
      | .error _ => a
  | .storing key flag expire len got =>
      if (got ++ buffer).length = len + 2 then
        (a.setItem key (some ⟨flag, expire, (got ++ buffer).take len⟩)).tell fd (ascii "STORED\r\n")
      else a.setTalk fd (.storing key flag expire len (got ++ buffer))
  | .telling _ => a

/-- A talk that is given up in the middle of a value is taken up again by the next
client of the descriptor. -/
def exec (a : Shop) : ServerEvent → Shop
  | .accept fd => { a with opened := Function.update a.opened fd true }
  | .input fd buffer now => if MAX_FD_OPEN ≤ fd then a.close fd else a.receive fd buffer now
  | .closed fd => a.close fd
  | .output fd ct =>
      match a.talk fd with
      | .telling rest => a.setTalk fd (if rest.length = ct then .idle else .telling (rest.drop ct))
      | _ => a
  | .failed fd => (a.setTalk fd .idle).close fd

end Shop

/-! ## The database and the items -/

/-- Nothing was put at the node of the key, which is there for longer keys. -/
def TstDb.Untouched (db : TstDb) (key : List UInt8) : Prop :=
  ∃ x, Settles (fun n => getNode n db key) x ∧ x ≠ 0 ∧ (db.data x).smallValueLen = 0 ∧ (db.data x).value = NO_VALUE

/-- The bytes last put are those of the item; without an item, there are none. -/
def Stocked : Option (List UInt8) → Option Item → Prop
  | v, none => v = none ∨ v = some []
  | v, some i => v = some i.bytes ∧ wrap32 i.flag = i.flag ∧ wrap32 i.expire = i.expire ∧
      i.value.length ≤ MAX_VALUE_SIZE

/-- The hint file makes the tree again in any arena without one, and what stands behind
it is read after that. -/
def Reloads (db : TstDb) (t : Tree) : Prop :=
  ∀ dbₗ tstₗ, Mirrors dbₗ tstₗ → Planted tstₗ .nil → dbₗ.size = 0 →
    ∃ dbₗ' tstₗ', Mirrors dbₗ' tstₗ' ∧ Planted tstₗ' t ∧ SameFiles dbₗ dbₗ' ∧ dbₗ'.size = db.size ∧
      ∀ rest db', Settles (fun n => loadHint n dbₗ' rest) db' → Settles (fun n => loadHint n dbₗ (db.hint ++ rest)) db'

/-- The items are in the database, to be read there now and after opening it again. -/
def Stocks (db : TstDb) (items : List UInt8 → Option Item) : Prop :=
  ∃ puts tst t, Keeps db puts tst t ∧ Reloads db t ∧ ∀ key, key ≠ [] → Stocked (lastPut puts key) (items key)

/-- What is read under a key. -/
def kept (i : Option Item) : List UInt8 := i.elim [] Item.bytes

theorem Item.length_bytes (i : Item) : i.bytes.length = i.value.length + 8 := by
  simp only [Item.bytes, List.length_append, length_int32LE]
  omega

theorem Stocks.at {db : TstDb} {items : List UInt8 → Option Item} (h : Stocks db items) (pos : Nat) :
    Stocks (db.at pos) items := by
  obtain ⟨puts, tst, t, hk, hs⟩ := h
  exact ⟨puts, tst, t, ⟨hk.mirrors.congr rfl rfl rfl rfl, hk.planted, hk.ready, hk.magic, hk.path, hk.held, hk.pos⟩, hs⟩

/-- A put is read behind the puts before it. -/
theorem Reloads.put {db db' : TstDb} {t : Tree} (h : Reloads db t) {p : PutArgs} (hroom : p.Room db) (hword : p.Untorn)
    (hsize : db'.size = db.size + t.missing (letters p.key))
    (hhint : db'.hint = db.hint ++ hintLine p.key p.value.length (p.cur db.file.length)) :
    Reloads db' (t.put (letters p.key) (holding p.small (p.cur db.file.length)) (supply [] db.size p.key.length)) := by
  intro dbₗ tstₗ hm hp h0
  obtain ⟨dbₗ₁, tstₗ₁, hm₁, hp₁, hf₁, hsize₁, hload⟩ := h dbₗ tstₗ hm hp h0
  obtain ⟨dbₗ₂, tstₗ₂, hset, hm₂, hp₂, hf₂, hsize₂⟩ :=
    put_stores hm₁ hp₁ p.ne (p.cur db.file.length) p.small (by rw [hsize₁]; exact hroom.1)
  rw [hsize₁] at hp₂ hsize₂
  refine ⟨dbₗ₂, tstₗ₂, hm₂, hp₂, hf₁.trans hf₂, hsize₂.trans hsize.symm, fun rest db₂ hrest => ?_⟩
  rw [hhint, List.append_assoc]
  exact hload _ _ (loadHint_line (scanHint_line p.ne hword p.len (PutArgs.cur_lt hroom.2) rest) hset hrest)

/-- `tst_get` reads the bytes of the item. -/
theorem Stocks.get {db : TstDb} {items : List UInt8 → Option Item} (h : Stocks db items) {key : List UInt8}
    (hk : GoodKey key) (hclear : ¬db.Untouched key) : ∃ pos,
    Settles (fun n => tstGet n db key) (some (⟨(kept (items key)).length, kept (items key)⟩, pos)) := by
  obtain ⟨puts, tst, t, hkeeps, -, hs⟩ := h
  have hstocked := hs key hk.ne
  cases hv : lastPut puts key with
  | none =>
      have hnone : kept (items key) = [] := by
        rw [hv] at hstocked
        cases hi : items key with
        | none => rfl
        | some i =>
            rw [hi] at hstocked
            exact absurd hstocked.1 (Option.some_ne_none _).symm
      have hpath : ∀ p ∈ puts, ¬key <+: p.key := by
        by_contra hsome
        obtain ⟨hnode, hcell⟩ := hkeeps.getNode db.readPos hk.ne
        obtain ⟨x, hx⟩ := Option.ne_none_iff_exists'.mp fun hn => hsome ((hkeeps.path key hk.ne).mp hn)
        obtain ⟨hx0, hheld⟩ := hcell x hx
        have hlookup : t.lookup (letters key) = 0 := by
          have := hkeeps.held key hk.ne
          rwa [hv] at this
        rw [hlookup] at hheld
        rw [hx, Option.getD_some] at hnode
        exact hclear ⟨x, hnode, hx0, (Prod.mk.inj hheld).1, (Prod.mk.inj hheld).2⟩
      obtain ⟨pos, hget⟩ := hkeeps.get_pathless db.readPos hk.ne hpath
      exact ⟨pos, by rw [hnone]; exact hget⟩
  | some v =>
      have hvalue : kept (items key) = v ∧ v.length < INT_END := by
        rw [hv] at hstocked
        cases hi : items key with
        | none =>
            rw [hi] at hstocked
            obtain rfl := Option.some.inj (hstocked.resolve_left (Option.some_ne_none _))
            exact ⟨rfl, by decide⟩
        | some i =>
            rw [hi] at hstocked
            obtain rfl := Option.some.inj hstocked.1
            refine ⟨rfl, ?_⟩
            have hlen := i.length_bytes
            have hle := hstocked.2.2.2
            unfold MAX_VALUE_SIZE at hle
            unfold INT_END
            omega
      obtain ⟨pos, hget⟩ := hkeeps.get_put db.readPos hk.ne hv
      rw [if_pos hvalue.2] at hget
      exact ⟨pos, by rw [hvalue.1]; exact hget⟩

/-- `tst_put` with room puts the bytes in place of the item. -/
theorem Stocks.put {db : TstDb} {items : List UInt8 → Option Item} (h : Stocks db items) {key value : List UInt8}
    (hk : GoodKey key) (hsize : db.size + 255 < ARENA_LIMIT) (hfile : db.file.length < LONG_END) {i : Option Item}
    (hv : Stocked (some value) i) : ∃ db', Settles (fun n => tstPut n db key value) db' ∧
      Stocks db' (Function.update items key i) := by
  obtain ⟨puts, tst, t, hkeeps, hreloads, hs⟩ := h
  have hlen : value.length < UINT32 := by
    unfold UINT32
    cases i with
    | none =>
        obtain rfl := Option.some.inj (hv.resolve_left (Option.some_ne_none _))
        decide
    | some i =>
        obtain rfl := Option.some.inj hv.1
        have hlen := i.length_bytes
        have hle := hv.2.2.2
        unfold MAX_VALUE_SIZE at hle
        omega
  have hroom : (PutArgs.mk key value hk.ne hk.le hk.nul hlen).Room db := by
    have hle := hk.le
    exact ⟨by show db.size + key.length < ARENA_LIMIT; omega, hfile⟩
  obtain ⟨db', tst', hstep, hkeeps', hsize', -, hhint', -⟩ := hkeeps.put hroom
  refine ⟨db', hstep, _, tst', _, hkeeps', hreloads.put hroom hk.word hsize' hhint', fun key' hk' => ?_⟩
  rw [lastPut_concat]
  rcases Classical.em (key' = key) with rfl | hne
  · rw [Function.update_self, Function.update_self]
    exact hv
  · rw [Function.update_of_ne hne, Function.update_of_ne hne]
    exact hs key' hk'

theorem Stocks.create {mem : Nat → TstNode} {db : TstDb} (h : Settles (fun n => tstOpen n mem ⟨none, none⟩) (some db)) :
    Stocks db fun _ => none := by
  obtain ⟨-, -, hhint, hsize, tst, hk⟩ := Keeps.create h
  refine ⟨[], tst, .nil, hk, fun dbₗ tstₗ hm hp h0 => ?_, fun _ _ => Or.inl rfl⟩
  exact ⟨dbₗ, tstₗ, hm, hp, .refl dbₗ, h0.trans hsize.symm, fun rest db' h => by rw [hhint]; exact h⟩

/-- Closing the database and opening it again keeps the items. -/
theorem Stocks.reopen {db : TstDb} {items : List UInt8 → Option Item} (h : Stocks db items) (mem : Nat → TstNode) :
    ∃ db', Settles (fun n => tstOpen n mem (tstClose db)) (some db') ∧ Stocks db' items := by
  obtain ⟨puts, tst, t, hk, hreloads, hs⟩ := h
  obtain ⟨tstₗ, hm, hp⟩ := Mirrors.create mem db.file db.hint
  obtain ⟨dbₗ, tstₗ', hm', hp', hf, hsize, hload⟩ := hreloads _ _ hm hp rfl
  have hset := hload [] dbₗ (loadHint_nil dbₗ)
  rw [List.append_nil] at hset
  refine ⟨_, tstOpen_close mem hk.magic hset, puts, tstₗ', t, ?_, ?_, hs⟩
  · exact ⟨hm'.congr rfl rfl rfl rfl, hp', rfl, by rw [show _ = db.file from hf.file]; exact hk.magic, hk.path,
      by rw [show _ = db.file from hf.file]; exact hk.held, hk.pos⟩
  · intro dbₘ tstₘ hmₘ hpₘ h0
    rw [show ({ dbₗ with ready := true } : TstDb).hint = db.hint from hf.hint,
      show ({ dbₗ with ready := true } : TstDb).size = db.size from hsize]
    exact hreloads dbₘ tstₘ hmₘ hpₘ h0

/-! ## The server and the shop -/

/-- The payload of a descriptor, for what goes on over it. -/
def Carries (p : Payload) : Talk → Prop
  | .idle => p.needRead = 0
  | .storing key flag expire len got =>
      p.putkey = key ∧ p.readBuf = Item.bytes ⟨flag, expire, got⟩ ∧ p.needRead = len + 10 ∧ got.length < len + 2 ∧
        GoodKey key ∧ wrap32 flag = flag ∧ wrap32 expire = expire ∧ len ≤ MAX_VALUE_SIZE
  | .telling rest => p.needRead = 0 ∧ p.writeBuf.drop p.writeCur = rest ∧ p.writeCur < p.writeBuf.length

def Talk.wait : Talk → Wait
  | .telling _ => .epollout
  | _ => .epollin

def Shop.waits (a : Shop) (fd : Nat) : Option Wait := if a.opened fd then some (a.talk fd).wait else none

/-- The server holds what the shop says: the items are in the database, and each
descriptor has the payload of its talk and waits for what the talk needs. -/
structure Shows (s : Server) (a : Shop) : Prop where
  stocks : Stocks s.db a.items
  carries : ∀ fd, Carries (s.dataTable fd) (a.talk fd)
  waits : ∀ fd, s.epoll fd = a.waits fd
  telling : ∀ fd rest, a.talk fd = .telling rest → a.opened fd = true ∧ fd < MAX_FD_OPEN

/-- Room for one more record. -/
def Server.Room (s : Server) : Prop := s.db.size + 255 < ARENA_LIMIT ∧ s.db.file.length < LONG_END

section Shows

variable {s : Server} {a : Shop} (h : Shows s a)

include h

/-- Another database and other bytes in `big_buffer`. -/
theorem Shows.restock {db : TstDb} {items : List UInt8 → Option Item} (hs : Stocks db items) (b : Buf) :
    Shows { s with db := db, bigBuffer := b } { a with items := items } :=
  ⟨hs, h.carries, h.waits, h.telling⟩

/-- The payload of one descriptor changes with its talk. -/
theorem Shows.talks {fd : Nat} {p : Payload} {t : Talk} (hp : Carries p t) (w : Option Wait)
    (hw : w = if a.opened fd then some t.wait else none)
    (ht : ∀ rest, t = .telling rest → a.opened fd = true ∧ fd < MAX_FD_OPEN) :
    Shows { s.setPayload fd p with epoll := Function.update s.epoll fd w } (a.setTalk fd t) := by
  refine ⟨h.stocks, fun fd' => ?_, fun fd' => ?_, fun fd' rest => ?_⟩
  · show Carries (Function.update s.dataTable fd p fd') (Function.update a.talk fd t fd')
    rcases Classical.em (fd' = fd) with rfl | hne
    · rw [Function.update_self, Function.update_self]
      exact hp
    · rw [Function.update_of_ne hne, Function.update_of_ne hne]
      exact h.carries fd'
  · show Function.update s.epoll fd w fd' = if a.opened fd' then some (Function.update a.talk fd t fd').wait else none
    rcases Classical.em (fd' = fd) with rfl | hne
    · rw [Function.update_self, Function.update_self]
      exact hw
    · rw [Function.update_of_ne hne, Function.update_of_ne hne]
      exact h.waits fd'
  · show Function.update a.talk fd t fd' = .telling rest → _
    rcases Classical.em (fd' = fd) with rfl | hne
    · rw [Function.update_self]
      exact ht rest
    · rw [Function.update_of_ne hne]
      exact h.telling fd' rest

/-- The same without a change of what is waited for. -/
theorem Shows.keeps_on {fd : Nat} {p : Payload} {t : Talk} (hp : Carries p t) (hw : (a.talk fd).wait = t.wait)
    (ht : ∀ rest, t ≠ .telling rest) : Shows (s.setPayload fd p) (a.setTalk fd t) := by
  have hwait : s.epoll fd = if a.opened fd then some t.wait else none := by rw [h.waits fd, Shop.waits, hw]
  have hs := h.talks hp (s.epoll fd) hwait fun rest e => absurd e (ht rest)
  rw [Function.update_eq_self] at hs
  exact hs

/-- A reply is the start of a telling. -/
theorem Shows.reply {fd : Nat} (hfd : fd < MAX_FD_OPEN) (hopen : a.opened fd = true)
    (hread : (s.dataTable fd).needRead = 0) {text : List UInt8} (hne : text ≠ []) :
    Shows (s.reply fd text) (a.tell fd text) := by
  have hp : Carries { s.dataTable fd with writeBuf := text, writeCur := 0 } (.telling text) :=
    ⟨hread, rfl, List.length_pos_iff.mpr hne⟩
  exact h.talks hp (some .epollout) (by rw [if_pos hopen]; rfl) fun _ _ => ⟨hopen, hfd⟩

end Shows

/-! ## The requests -/

/-- The outcome is the shop's, or a failure where the request does not fit. -/
def Follows (f : Nat → Except ServerFault Server) (fits : Prop) (a : Shop) : Prop :=
  ∃ r, Concludes f r ∧ Ends (fun _ => ¬fits) (fun s => fits ∧ Shows s a) r

theorem follows_of_concludes {f : Nat → Except ServerFault Server} {fits : Prop} {a : Shop} {s : Server}
    (hf : Concludes f (.ok s)) (hfits : fits) (hs : Shows s a) : Follows f fits a := ⟨_, hf, hfits, hs⟩

section Requests

variable {s : Server} {a : Shop} (h : Shows s a) {key : List UInt8} (hk : GoodKey key)

include h hk

/-- `tst_get` into `big_buffer`, where the bytes fit. -/
theorem Shows.get (hclear : ¬s.db.Untouched key) : ∃ pos,
    Concludes (fun n => s.get n key) (if MAX_VALUE_SIZE < (kept (a.items key)).length then .error .overrun
      else .ok ((kept (a.items key)).length,
        { s with db := s.db.at pos, bigBuffer := s.bigBuffer.write 0 (kept (a.items key)) })) := by
  obtain ⟨pos, N, hN⟩ := h.stocks.get hk hclear
  refine ⟨pos, N, fun n hn => ?_⟩
  have hget : tstGet n s.db key = some (some (⟨(kept (a.items key)).length, kept (a.items key)⟩, pos)) := hN n hn
  simp only [Server.get, hget]

theorem Shows.put (hroom : s.Room) {value : List UInt8} {i : Option Item} (hv : Stocked (some value) i) :
    ∃ s', Concludes (fun n => s.put n key value) (.ok s') ∧ Shows s' (a.setItem key i) ∧
      s'.dataTable = s.dataTable ∧ s'.bigBuffer = s.bigBuffer := by
  obtain ⟨db, ⟨N, hN⟩, hs⟩ := h.stocks.put hk hroom.1 hroom.2 hv
  refine ⟨{ s with db := db }, ⟨N, fun n hn => ?_⟩, h.restock hs s.bigBuffer, rfl, rfl⟩
  have hput : tstPut n s.db key value = some db := hN n hn
  simp only [Server.put, hput]

end Requests

/-- The bytes of an item read back from `big_buffer`. -/
theorem read_item (b : Buf) (i : Item) : (b.write 0 i.bytes).read 0 4 = int32LE i.flag ∧
    (b.write 0 i.bytes).read 4 4 = int32LE i.expire ∧
    (b.write 0 i.bytes).read 8 (i.bytes.length - 8) = i.value := by
  have hbytes : i.bytes = int32LE i.flag ++ (int32LE i.expire ++ i.value) := List.append_assoc _ _ _
  have hnil : i.bytes = (int32LE i.flag ++ int32LE i.expire) ++ (i.value ++ []) := by rw [List.append_nil]; rfl
  have h1 := Buf.read_write_middle b 0 [] (int32LE i.flag) (int32LE i.expire ++ i.value)
  have h2 := Buf.read_write_middle b 0 (int32LE i.flag) (int32LE i.expire) i.value
  have h3 := Buf.read_write_middle b 0 (int32LE i.flag ++ int32LE i.expire) i.value []
  rw [← hnil] at h3
  rw [List.nil_append, ← hbytes] at h1
  rw [← hbytes] at h2
  simp only [List.length_append, length_int32LE, List.length_nil, Nat.zero_add, Nat.reduceAdd] at h1 h2 h3
  refine ⟨h1, h2, ?_⟩
  rw [i.length_bytes, Nat.add_sub_cancel]
  exact h3

/-- The flags and the deadline of an item are those it was stored with. -/
theorem Stocks.item {db : TstDb} {items : List UInt8 → Option Item} (h : Stocks db items) {key : List UInt8}
    (hk : key ≠ []) {i : Item} (hi : items key = some i) : wrap32 i.flag = i.flag ∧ wrap32 i.expire = i.expire := by
  obtain ⟨puts, tst, t, -, -, hs⟩ := h
  have hstocked := hs key hk
  rw [hi] at hstocked
  exact ⟨hstocked.2.1, hstocked.2.2.1⟩

/-- A `get` goes well: the item fits `big_buffer` and the line fits `rsps_msg`. -/
def Shop.GetFits (a : Shop) (now : Int) (key : List UInt8) : Prop :=
  ∀ i, a.items key = some i → i.bytes.length ≤ MAX_VALUE_SIZE ∧
    (i.expired now = false → (valueHeader key i.flag i.value.length).length < LINE_SIZE)

def Shop.DeleteFits (a : Shop) (key : List UInt8) : Prop :=
  ∀ i, a.items key = some i → i.bytes.length ≤ MAX_VALUE_SIZE

section Requests

variable {s : Server} {a : Shop} (h : Shows s a) {key : List UInt8} (hk : GoodKey key) (hclear : ¬s.db.Untouched key)
  (hroom : s.Room) {fd : Nat} (hfd : fd < MAX_FD_OPEN) (hopen : a.opened fd = true)
  (hread : (s.dataTable fd).needRead = 0)

include h hk hclear hroom hfd hopen hread

theorem Shows.doDelete : Follows (fun n => s.doDelete n fd key) (a.DeleteFits key) (a.serve fd [] 0 (.delete key)) := by
  obtain ⟨pos, hget⟩ := h.get hk hclear
  cases hi : a.items key with
  | none =>
      rw [hi] at hget
      have hsame : a.serve fd [] 0 (.delete key) = a.tell fd (ascii "NOT_FOUND\r\n") := by
        simp only [Shop.serve, hi, Shop.setItem, Option.isSome_none]
        rw [← hi, Function.update_eq_self]
        rfl
      rw [hsame]
      refine follows_of_concludes (Concludes.bind_ok hget (concludes_const _)) (fun i e => ?_) ?_
      · rw [hi] at e
        cases e
      · exact (h.restock (h.stocks.at pos) _).reply hfd hopen hread (by decide)
  | some i =>
      rw [hi] at hget
      have hlen := i.length_bytes
      rcases Nat.lt_or_ge MAX_VALUE_SIZE i.bytes.length with hlong | hfits
      · rw [if_pos (show MAX_VALUE_SIZE < (kept (some i)).length from hlong)] at hget
        exact ⟨_, Concludes.bind_error hget, fun hall => absurd (hall i hi) (Nat.not_le.mpr hlong)⟩
      · rw [if_neg (show ¬MAX_VALUE_SIZE < (kept (some i)).length from Nat.not_lt.mpr hfits)] at hget
        have hs := h.restock (h.stocks.at pos) (s.bigBuffer.write 0 (kept (some i)))
        obtain ⟨s', hput, hs', htable, -⟩ := @Shows.put _ _ hs _ hk hroom [] none (Or.inr rfl)
        have hshop : a.serve fd [] 0 (.delete key) = (a.setItem key none).tell fd (ascii "DELETED\r\n") := by
          simp only [Shop.serve, hi, Option.isSome_some, if_true]
        have hmore : ¬(kept (some i)).length = 0 := by
          show ¬i.bytes.length = 0
          omega
        rw [hshop]
        refine @follows_of_concludes _ _ _ (s'.reply fd (ascii "DELETED\r\n")) (Concludes.bind_ok hget ?_)
          (fun i' e => by rw [hi] at e; cases e; exact hfits) ?_
        · simp only [if_neg hmore]
          exact Concludes.bind_ok hput (concludes_const _)
        · exact hs'.reply hfd hopen (by rw [htable]; exact hread) (by decide)

/-- The reply to a `get`, once the bytes of the item are in `big_buffer`. -/
theorem Shows.doGet (now : Int) : Follows (fun n => s.doGet n now fd key) (a.GetFits now key)
    (a.serve fd [] now (.get key)) := by
  obtain ⟨pos, hget⟩ := h.get hk hclear
  have hs := h.restock (h.stocks.at pos) (s.bigBuffer.write 0 (kept (a.items key)))
  cases hi : a.items key with
  | none =>
      rw [hi] at hget hs
      have hshop : a.serve fd [] now (.get key) = a.tell fd (ascii "END\r\n") := by
        simp only [Shop.serve, Shop.fresh, hi, Option.filter_none, Shop.getText, Shop.setItem]
        rw [← hi, Function.update_eq_self]
      rw [hshop]
      refine follows_of_concludes (Concludes.bind_ok hget (concludes_const _)) (fun i e => ?_)
        (hs.reply hfd hopen hread (by decide))
      rw [hi] at e
      cases e
  | some i =>
      rw [hi] at hget hs
      have hlen := i.length_bytes
      obtain ⟨hflag, hexpire⟩ := h.stocks.item hk.ne hi
      rcases Nat.lt_or_ge MAX_VALUE_SIZE i.bytes.length with hlong | hfits
      · rw [if_pos (show MAX_VALUE_SIZE < (kept (some i)).length from hlong)] at hget
        exact ⟨_, Concludes.bind_error hget, fun hall => absurd (hall i hi).1 (Nat.not_le.mpr hlong)⟩
      · rw [if_neg (show ¬MAX_VALUE_SIZE < (kept (some i)).length from Nat.not_lt.mpr hfits)] at hget
        obtain ⟨h1, h2, h3⟩ := read_item s.bigBuffer i
        have hmore : ¬i.bytes.length = 0 := by omega
        have height : ¬i.bytes.length < 8 := by omega
        rcases Classical.em (i.expire ≠ 0 ∧ i.expire ≤ now) with hexp | hexp
        · obtain ⟨s', hput, hs', htable, -⟩ := @Shows.put _ _ hs _ hk hroom [] none (Or.inr rfl)
          have hshop : a.serve fd [] now (.get key) = (a.setItem key none).tell fd (ascii "END\r\n") := by
            simp only [Shop.serve, Shop.fresh, hi, Option.filter_some, Item.expired, hexp, ne_eq, not_false_eq_true,
              and_self, decide_true, Bool.not_true, Bool.false_eq_true, if_false, Shop.getText]
          rw [hshop]
          refine @follows_of_concludes _ _ _ (s'.reply fd (ascii "END\r\n")) (Concludes.bind_ok hget ?_)
            (fun i' e => ?_) (hs'.reply hfd hopen (by rw [htable]; exact hread) (by decide))
          · simp only [kept, Option.elim_some, if_neg hmore, h1, h2, int32Of_int32LE, hexpire, if_pos hexp]
            exact Concludes.bind_ok hput (concludes_const _)
          · rw [hi] at e
            obtain rfl := Option.some.inj e
            refine ⟨hfits, fun hno => ?_⟩
            rw [Item.expired, decide_eq_true hexp] at hno
            cases hno
        · have hshop : a.serve fd [] now (.get key) =
              a.tell fd (valueHeader key i.flag i.value.length ++ i.value ++ ascii "\r\nEND\r\n") := by
            have hfresh : a.fresh now key = some i := by
              rw [Shop.fresh, hi, Option.filter_some, Item.expired, decide_eq_false hexp]
              rfl
            simp only [Shop.serve, hfresh, Shop.getText, Shop.setItem]
            rw [← hi, Function.update_eq_self]
          rw [hshop]
          have hwidth : i.bytes.length - 8 = i.value.length := by omega
          have hroom8 : 8 + i.value.length ≤ MAX_VALUE_SIZE := by omega
          rw [hwidth] at h3
          rcases Nat.lt_or_ge (valueHeader key i.flag i.value.length).length LINE_SIZE with hline | hline
          · refine @follows_of_concludes _ _ _ (Server.reply _ fd _) (Concludes.bind_ok hget ?_) (fun i' e => ?_)
              (hs.reply hfd hopen hread ?_)
            · simp only [kept, Option.elim_some, if_neg hmore, h1, h2, h3, hwidth, int32Of_int32LE, hexpire, hflag,
                if_neg hexp, if_neg height, if_neg (not_or.mpr ⟨Nat.not_le.mpr hline, Nat.not_lt.mpr hroom8⟩)]
              exact concludes_const _
            · rw [hi] at e
              obtain rfl := Option.some.inj e
              exact ⟨hfits, fun _ => hline⟩
            · exact List.append_ne_nil_of_right_ne_nil _ (by decide)
          · refine ⟨.error .overrun, Concludes.bind_ok hget ?_, fun hall => ?_⟩
            · simp only [kept, Option.elim_some, if_neg hmore, h1, h2, h3, hwidth, int32Of_int32LE, hexpire, hflag,
                if_neg hexp, if_neg height, if_pos (Or.inl hline)]
              exact concludes_const _
            · exact absurd ((hall i hi).2 (by rw [Item.expired, decide_eq_false hexp])) (Nat.not_lt.mpr hline)

end Requests

theorem write_item (b : Buf) (i : Item) :
    ((b.write 0 (int32LE i.flag)).write 4 (int32LE i.expire)).write 8 i.value = b.write 0 i.bytes := by
  have h1 := Buf.write_write b 0 (int32LE i.flag) (int32LE i.expire)
  have h2 := Buf.write_write b 0 (int32LE i.flag ++ int32LE i.expire) i.value
  simp only [List.length_append, length_int32LE, Nat.zero_add, Nat.reduceAdd] at h1 h2
  rw [h1, h2]
  rfl

/-- The first bytes of the value with the flags and the deadline before them. -/
theorem read_first (b : Buf) (flag expire : Int) {rest : List UInt8} {len : Nat} (hlen : len ≤ rest.length) :
    (b.write 0 (Item.bytes ⟨flag, expire, rest⟩)).read 0 (len + 8) = Item.bytes ⟨flag, expire, rest.take len⟩ := by
  have hsplit : Item.bytes ⟨flag, expire, rest⟩ = [] ++ (Item.bytes ⟨flag, expire, rest.take len⟩ ++ rest.drop len) := by
    simp only [Item.bytes, List.append_assoc, List.take_append_drop, List.nil_append]
  have hread := Buf.read_write_middle b 0 [] (Item.bytes ⟨flag, expire, rest.take len⟩) (rest.drop len)
  rw [← hsplit, Item.length_bytes, List.length_take, min_eq_left hlen] at hread
  exact hread

theorem wrap32_deadline (now : Int) {expire : Int} (he : wrap32 expire = expire) :
    wrap32 (Shop.deadline now expire) = Shop.deadline now expire := by
  unfold Shop.deadline
  split_ifs
  · exact wrap32_wrap32 _
  · exact he

/-- A `set` goes well: the line has an end, if it is looked for. -/
def SetFits (buffer : List UInt8) (total : Int) : Prop :=
  0 ≤ total → total ≤ MAX_VALUE_SIZE → lineEnd (cstr buffer) ≠ none

theorem Stocked.item {flag expire : Int} {value : List UInt8} (hf : wrap32 flag = flag) (he : wrap32 expire = expire)
    (hlen : value.length ≤ MAX_VALUE_SIZE) :
    Stocked (some (Item.bytes ⟨flag, expire, value⟩)) (some ⟨flag, expire, value⟩) := ⟨rfl, hf, he, hlen⟩

section Requests

variable {s : Server} {a : Shop} (h : Shows s a) {key : List UInt8} (hroom : s.Room) {fd : Nat}
  (hfd : fd < MAX_FD_OPEN) (hopen : a.opened fd = true)

include h hroom hfd hopen

theorem Shows.doSet (hk : GoodKey key) (hidle : a.talk fd = .idle) (buffer : List UInt8) (now : Int)
    {flag expire total : Int} (hf : wrap32 flag = flag) (he : wrap32 expire = expire) :
    Follows (fun n => s.doSet n now fd buffer key flag expire total) (SetFits buffer total)
      (a.serve fd buffer now (.set key flag expire total)) := by
  have hread : (s.dataTable fd).needRead = 0 := by
    have hc := h.carries fd
    rwa [hidle] at hc
  rcases Classical.em (total < 0 ∨ (MAX_VALUE_SIZE : Int) < total) with hrange | hrange
  · simp only [Server.doSet, Shop.serve, if_pos hrange]
    refine follows_of_concludes (concludes_const _) (fun h0 h1 => ?_) (h.reply hfd hopen hread (by decide))
    omega
  · have hd := wrap32_deadline now he
    have hlen : total.toNat ≤ MAX_VALUE_SIZE := by omega
    cases hline : lineEnd (cstr buffer) with
    | none =>
        simp only [Server.doSet, if_neg hrange, hline]
        exact ⟨_, concludes_const _, fun hall => hall (by omega) (by omega) hline⟩
    | some pos =>
        simp only [Server.doSet, Shop.serve, if_neg hrange, hline, Shop.beginSet]
        have hfits : SetFits buffer total := fun _ _ e => by rw [hline] at e; cases e
        have hwrite : ((s.bigBuffer.write 0 (int32LE flag)).write 4 (int32LE (Shop.deadline now expire))).write 8
            (buffer.drop (pos + 2)) = s.bigBuffer.write 0 (Item.bytes ⟨flag, Shop.deadline now expire,
              buffer.drop (pos + 2)⟩) := write_item s.bigBuffer ⟨flag, Shop.deadline now expire, buffer.drop (pos + 2)⟩
        have hs := h.restock h.stocks (s.bigBuffer.write 0 (Item.bytes ⟨flag, Shop.deadline now expire,
          buffer.drop (pos + 2)⟩))
        have hshort : pos + 2 + (total.toNat + 8) - 8 < buffer.length ↔ total.toNat < (buffer.drop (pos + 2)).length := by
          rw [List.length_drop]
          omega
        have hdeadline : (if expire ≠ 0 then wrap32 (expire + now) else expire) = Shop.deadline now expire := rfl
        simp only [hdeadline, hwrite]
        rcases Nat.lt_or_ge total.toNat (buffer.drop (pos + 2)).length with hone | hmore
        · have hvalue : ((buffer.drop (pos + 2)).take total.toNat).length ≤ MAX_VALUE_SIZE :=
            le_trans (List.length_take_le _ _) hlen
          obtain ⟨s', hput, hs', htable, -⟩ := hs.put hk hroom (Stocked.item hf hd hvalue)
          have hbytes := read_first s.bigBuffer flag (Shop.deadline now expire) hone.le
          simp only [if_pos (hshort.mpr hone), if_pos hone, hbytes]
          exact follows_of_concludes (Concludes.bind_ok hput (concludes_const _)) hfits
            (hs'.reply hfd hopen (by rw [htable]; exact hread) (by decide))
        · have hall : (s.bigBuffer.write 0 (Item.bytes ⟨flag, Shop.deadline now expire, buffer.drop (pos + 2)⟩)).read 0
              ((buffer.drop (pos + 2)).length + 8) = Item.bytes ⟨flag, Shop.deadline now expire, buffer.drop (pos + 2)⟩ := by
            rw [read_first s.bigBuffer flag (Shop.deadline now expire) le_rfl, List.take_length]
          simp only [if_neg (mt hshort.mp (Nat.not_lt.mpr hmore)), if_neg (Nat.not_lt.mpr hmore), hall]
          refine follows_of_concludes (concludes_const _) hfits (hs.keeps_on ?_ (by rw [hidle]; rfl)
            fun _ e => by cases e)
          exact ⟨rfl, rfl, rfl, by omega, hk, hf, hd, hlen⟩

/-- More of a value, up to its line end. -/
theorem Shows.readOn {key : List UInt8} {flag expire : Int} {len : Nat} {got : List UInt8}
    (htalk : a.talk fd = .storing key flag expire len got) {buffer : List UInt8} (now : Int)
    (hlimit : buffer.length ≤ s.readLimit fd) :
    Follows (fun n => s.readOn n fd buffer) True (a.receive fd buffer now) := by
  obtain ⟨hkey, hbuf, hneed, hgot, hk, hf, he, hlen⟩ : Carries (s.dataTable fd) (.storing key flag expire len got) := by
    have hc := h.carries fd
    rwa [htalk] at hc
  have hjoin : (s.dataTable fd).readBuf ++ buffer = Item.bytes ⟨flag, expire, got ++ buffer⟩ := by
    rw [hbuf, Item.bytes, List.append_assoc, Item.bytes]
  have hcount : (Item.bytes ⟨flag, expire, got ++ buffer⟩).length = (got ++ buffer).length + 8 := Item.length_bytes _
  have hle : (got ++ buffer).length ≤ len + 2 := by
    have hrb : (s.dataTable fd).readBuf.length = got.length + 8 := by rw [hbuf]; exact Item.length_bytes _
    unfold Server.readLimit at hlimit
    rw [if_neg (by omega), hneed, hrb] at hlimit
    rw [List.length_append]
    omega
  simp only [Server.readOn, Shop.receive, htalk, hjoin, hneed, hkey]
  rcases Classical.em ((got ++ buffer).length = len + 2) with hdone | hmore
  · have hfull : (Item.bytes ⟨flag, expire, got ++ buffer⟩).length = len + 10 := by omega
    have htake : (Item.bytes ⟨flag, expire, got ++ buffer⟩).take ((Item.bytes ⟨flag, expire, got ++ buffer⟩).length - 2) =
        Item.bytes ⟨flag, expire, (got ++ buffer).take len⟩ := by
      have hcut : (Item.bytes ⟨flag, expire, got ++ buffer⟩).length - 2 =
          (int32LE flag ++ int32LE expire).length + len := by
        rw [List.length_append, length_int32LE, length_int32LE]
        omega
      rw [hcut]
      exact List.take_length_add_append len
    have hvalue : ((got ++ buffer).take len).length ≤ MAX_VALUE_SIZE := le_trans (List.length_take_le _ _) hlen
    obtain ⟨s', hput, hs', htable, -⟩ := h.put hk hroom (Stocked.item hf he hvalue)
    simp only [if_pos hfull, if_pos hdone, htake]
    have hidle := @Shows.keeps_on _ _ hs' fd { s'.dataTable fd with readBuf := [], putkey := [], needRead := 0 } .idle rfl
      (by rw [show (a.setItem key _).talk fd = a.talk fd from rfl, htalk]; rfl) fun _ e => by cases e
    have hshop : ∀ b : Shop, (b.setTalk fd .idle).tell fd (ascii "STORED\r\n") = b.tell fd (ascii "STORED\r\n") := by
      intro b
      simp only [Shop.tell, Shop.setTalk, Function.update_idem]
    have hreply := @Shows.reply _ _ hidle fd hfd hopen (show (Function.update s'.dataTable fd _ fd).needRead = 0 by
      rw [Function.update_self]) (ascii "STORED\r\n") (by decide)
    rw [hshop] at hreply
    exact follows_of_concludes (Concludes.bind_ok hput (concludes_const _)) trivial hreply
  · have hpart : ¬(Item.bytes ⟨flag, expire, got ++ buffer⟩).length = len + 10 := by omega
    simp only [if_neg hpart, if_neg hmore]
    refine follows_of_concludes (concludes_const _) trivial (h.keeps_on ?_ (by rw [htalk]; rfl) fun _ e => by cases e)
    exact ⟨rfl, rfl, rfl, by omega, hk, hf, he, hlen⟩

end Requests

/-! ## Steps and runs -/

/-- The event is served without a failure. -/
def Shop.Fits (a : Shop) : ServerEvent → Prop
  | .input fd buffer now => fd < MAX_FD_OPEN → a.talk fd = .idle →
      match asked buffer with
      | .ok (.get key) => a.GetFits now key
      | .ok (.set _ _ _ total) => SetFits buffer total
      | .ok (.delete key) => a.DeleteFits key
      | .ok .other => True
      | .error _ => False
  | _ => True

/-- There is room for a record, and no key is asked for of which only longer ones were put. -/
def Server.Careful (s : Server) : ServerEvent → Prop
  | .input fd buffer _ => s.Room ∧ ((s.dataTable fd).needRead = 0 →
      ∀ key, asked buffer = .ok (.get key) ∨ asked buffer = .ok (.delete key) → ¬s.db.Untouched key)
  | _ => True

section Steps

variable {s : Server} {a : Shop} (h : Shows s a) {fd : Nat}

include h

/-- Which descriptors can be read from. -/
theorem Shows.reads (he : s.epoll fd = some .epollin) : a.opened fd = true ∧ ∀ rest, a.talk fd ≠ .telling rest := by
  rw [h.waits fd, Shop.waits] at he
  split_ifs at he with hopen
  refine ⟨hopen, fun rest ht => ?_⟩
  rw [ht] at he
  cases he

/-- Which descriptors can be written to. -/
theorem Shows.writes (he : s.epoll fd = some .epollout) : a.opened fd = true ∧ fd < MAX_FD_OPEN ∧
    ∃ rest, a.talk fd = .telling rest ∧ (s.dataTable fd).needRead = 0 ∧
      (s.dataTable fd).writeBuf.drop (s.dataTable fd).writeCur = rest ∧
      (s.dataTable fd).writeCur < (s.dataTable fd).writeBuf.length := by
  rw [h.waits fd, Shop.waits] at he
  split_ifs at he with hopen
  cases ht : a.talk fd with
  | idle => rw [ht] at he; cases he
  | storing key flag expire len got => rw [ht] at he; cases he
  | telling rest =>
      have hc := h.carries fd
      rw [ht] at hc
      exact ⟨hopen, (h.telling fd rest ht).2, rest, rfl, hc⟩

theorem Shows.close (hno : ∀ rest, a.talk fd ≠ .telling rest) : Shows (s.close fd) (a.close fd) := by
  refine ⟨h.stocks, h.carries, fun fd' => ?_, fun fd' rest ht => ?_⟩
  · show Function.update s.epoll fd none fd' =
      if Function.update a.opened fd false fd' then some (a.talk fd').wait else none
    rcases Classical.em (fd' = fd) with rfl | hne
    · rw [Function.update_self, Function.update_self]
      rfl
    · rw [Function.update_of_ne hne, Function.update_of_ne hne]
      exact h.waits fd'
  · have hne : fd' ≠ fd := fun e => hno rest (e ▸ ht)
    show Function.update a.opened fd false fd' = true ∧ _
    rw [Function.update_of_ne hne]
    exact h.telling fd' rest ht

theorem Shows.accept (he : s.epoll fd = none) : Shows { s with epoll := Function.update s.epoll fd (some .epollin) }
    { a with opened := Function.update a.opened fd true } := by
  have hclosed : a.opened fd = false := by
    rw [h.waits fd, Shop.waits] at he
    split_ifs at he with hopen
    exact Bool.eq_false_iff.mpr hopen
  have hwait : (a.talk fd).wait = .epollin := by
    cases ht : a.talk fd with
    | idle => rfl
    | storing key flag expire len got => rfl
    | telling rest =>
        rw [(h.telling fd rest ht).1] at hclosed
        cases hclosed
  refine ⟨h.stocks, h.carries, fun fd' => ?_, fun fd' rest ht => ?_⟩
  · show Function.update s.epoll fd (some .epollin) fd' =
      if Function.update a.opened fd true fd' then some (a.talk fd').wait else none
    rcases Classical.em (fd' = fd) with rfl | hne
    · rw [Function.update_self, Function.update_self, hwait]
      rfl
    · rw [Function.update_of_ne hne, Function.update_of_ne hne]
      exact h.waits fd'
  · obtain ⟨hopen, hlt⟩ := h.telling fd' rest ht
    have hne : fd' ≠ fd := fun e => by rw [e, hclosed] at hopen; cases hopen
    show Function.update a.opened fd true fd' = true ∧ _
    rw [Function.update_of_ne hne]
    exact ⟨hopen, hlt⟩

/-- The bytes of a `recv`. -/
theorem Shows.received (hfd : fd < MAX_FD_OPEN) {buffer : List UInt8} {now : Int}
    (hen : s.enabled (.input fd buffer now)) (hc : s.Careful (.input fd buffer now)) :
    Follows (fun n => s.received n now fd buffer) (a.Fits (.input fd buffer now)) (a.receive fd buffer now) := by
  obtain ⟨hwait, -, hlimit⟩ := hen
  obtain ⟨hopen, hno⟩ := h.reads hwait
  obtain ⟨hroom, hclear⟩ := hc
  have hcarries := h.carries fd
  cases ht : a.talk fd with
  | telling rest => exact absurd ht (hno rest)
  | storing key flag expire len got =>
      rw [ht] at hcarries
      have hread : (s.dataTable fd).needRead ≠ 0 := by
        rw [hcarries.2.2.1]
        omega
      have hfits : a.Fits (.input fd buffer now) := fun _ hidle => by rw [ht] at hidle; cases hidle
      simp only [Server.received, if_pos hread, eq_true hfits]
      exact h.readOn hroom hfd hopen ht now hlimit
  | idle =>
      rw [ht] at hcarries
      have hread : (s.dataTable fd).needRead = 0 := hcarries
      have hzero : ¬(s.dataTable fd).needRead ≠ 0 := not_not.mpr hread
      cases hasked : asked buffer with
      | error e =>
          simp only [Server.received, if_neg hzero, hasked]
          refine ⟨_, concludes_const _, fun hall => ?_⟩
          have := hall hfd ht
          rw [hasked] at this
          exact this
      | ok r =>
          obtain ⟨hgood, hints⟩ := asked_spec hasked
          have hfits : a.Fits (.input fd buffer now) ↔ (match r with
              | .get key => a.GetFits now key
              | .set _ _ _ total => SetFits buffer total
              | .delete key => a.DeleteFits key
              | .other => True) := by
            simp only [Shop.Fits, hasked, hfd, ht, forall_const]
            cases r <;> rfl
          simp only [Server.received, if_neg hzero, hasked, Shop.receive, ht, propext hfits]
          cases r with
          | get key =>
              exact h.doGet (hgood key rfl) (hclear hread key (Or.inl hasked)) hroom hfd hopen hread now
          | set key flag expire total =>
              exact h.doSet hroom hfd hopen (hgood key rfl) ht buffer now hints.1 hints.2.1
          | delete key =>
              exact h.doDelete (hgood key rfl) (hclear hread key (Or.inr hasked)) hroom hfd hopen hread
          | other => exact follows_of_concludes (concludes_const _) trivial h

end Steps

/-- One step of the server is one step of the shop. -/
theorem Shows.exec {s : Server} {a : Shop} (h : Shows s a) {e : ServerEvent} (hen : s.enabled e) (hc : s.Careful e) :
    Follows (fun n => s.exec n e) (a.Fits e) (a.exec e) := by
  cases e with
  | accept fd => exact follows_of_concludes (concludes_const _) trivial (h.accept hen)
  | closed fd => exact follows_of_concludes (concludes_const _) trivial (h.close (h.reads hen).2)
  | input fd buffer now =>
      rcases Nat.lt_or_ge fd MAX_FD_OPEN with hfd | hfd
      · simp only [Server.exec, Shop.exec, if_neg (Nat.not_le.mpr hfd)]
        exact h.received hfd hen hc
      · simp only [Server.exec, Shop.exec, if_pos hfd]
        exact follows_of_concludes (concludes_const _) (fun hlt => absurd hlt (Nat.not_lt.mpr hfd))
          (h.close (h.reads hen.1).2)
  | output fd ct =>
      obtain ⟨hopen, hfd, rest, ht, hread, hrest, hcur⟩ := h.writes hen.1
      have hct := hen.2
      have hlen : rest.length = (s.dataTable fd).writeBuf.length - (s.dataTable fd).writeCur := by
        rw [← hrest, List.length_drop]
      simp only [Server.exec, Shop.exec, if_neg (Nat.not_le.mpr hfd), ht]
      rcases Classical.em (rest.length = ct) with hall | hpart
      · rw [if_pos (by omega), if_pos hall]
        exact follows_of_concludes (concludes_const _) trivial (h.talks
          (show Carries { s.dataTable fd with writeBuf := [], writeCur := 0 } .idle from hread) _
          (by rw [if_pos hopen]; rfl) fun rest' e => by cases e)
      · rw [if_neg (by omega), if_neg hpart]
        have hp : Carries { s.dataTable fd with writeCur := (s.dataTable fd).writeCur + ct }
            (.telling (rest.drop ct)) := by
          refine ⟨hread, ?_, show (s.dataTable fd).writeCur + ct < (s.dataTable fd).writeBuf.length by omega⟩
          show (s.dataTable fd).writeBuf.drop ((s.dataTable fd).writeCur + ct) = _
          rw [← hrest, List.drop_drop]
        have hs := h.talks hp (s.epoll fd) (by rw [hen.1, if_pos hopen]; rfl) fun _ _ => ⟨hopen, hfd⟩
        rw [Function.update_eq_self] at hs
        exact follows_of_concludes (concludes_const _) trivial hs
  | failed fd =>
      obtain ⟨hopen, hfd, rest, ht, hread, -, -⟩ := h.writes hen
      simp only [Server.exec, Shop.exec, if_neg (Nat.not_le.mpr hfd)]
      have hs := h.talks (show Carries { s.dataTable fd with writeBuf := [], writeCur := 0 } .idle from hread)
        (some .epollin) (by rw [if_pos hopen]; rfl) fun rest' e => by cases e
      have hclose := @Shows.close _ _ hs fd fun rest' e => by
        have hidle : (a.setTalk fd .idle).talk fd = .idle := Function.update_self _ _ _
        rw [hidle] at e
        cases e
      refine follows_of_concludes (concludes_const _) trivial ?_
      have hsame : Function.update (Function.update s.epoll fd (some Wait.epollin)) fd none =
          Function.update s.epoll fd none := Function.update_idem _ _ _
      rw [Server.close, Server.setPayload, hsame] at hclose
      exact hclose

/-- A step that is enabled and careful takes place exactly when it fits the shop. -/
theorem Shows.step {s : Server} {a : Shop} (h : Shows s a) {e : ServerEvent} (hen : s.enabled e) (hc : s.Careful e) :
    ((∃ s', ServerStep s e s') ↔ a.Fits e) ∧ ∀ s', ServerStep s e s' → Shows s' (a.exec e) := by
  obtain ⟨r, hr, hends⟩ := h.exec hen hc
  refine ⟨⟨?_, fun hfits => ?_⟩, ?_⟩
  · rintro ⟨s', -, hs'⟩
    rw [hr.settles_iff] at hs'
    subst hs'
    exact hends.1
  · cases r with
    | ok s' => exact ⟨s', hen, hr.settles_iff.mpr rfl⟩
    | error e => exact absurd hfits hends
  · rintro s' ⟨-, hs'⟩
    rw [hr.settles_iff] at hs'
    subst hs'
    exact hends.2

theorem Shows.run {s s' : Server} {a : Shop} {events : List ServerEvent} (h : Shows s a)
    (hrun : Run (Guarded ServerStep Server.Careful) s events s') : Shows s' (events.foldl Shop.exec a) :=
  hrun.simulates Shop.exec (fun _ _ _ _ hr hstep => (hr.step hstep.2.1 hstep.1).2 _ hstep.2) _ h

/-! ## Starting again -/

/-- The server as `main` starts it, on an open database. -/
def Server.start (db : TstDb) : Server :=
  { db := db, bigBuffer := fun _ => 0, dataTable := fun _ => .zero, epoll := fun _ => none }

inductive Occurrence where
  | event (e : ServerEvent)
  /-- `exit_hook` between two events, and a new start, with anything in the memory. -/
  | restart (mem : Nat → TstNode)

def LifeStep (s : Server) : Occurrence → Server → Prop
  | .event e, s' => ServerStep s e s'
  | .restart mem, s' => ∃ db, Settles (fun n => tstOpen n mem (tstClose s.db)) (some db) ∧ s' = Server.start db

def Server.Minds (s : Server) : Occurrence → Prop
  | .event e => s.Careful e
  | .restart _ => True

/-- Items over which nobody talks. -/
def Shop.quiet (items : List UInt8 → Option Item) : Shop := { items, talk := fun _ => .idle, opened := fun _ => false }

def Shop.occur (a : Shop) : Occurrence → Shop
  | .event e => a.exec e
  | .restart _ => .quiet a.items

theorem Stocks.shows {db : TstDb} {items : List UInt8 → Option Item} (h : Stocks db items) :
    Shows (Server.start db) (.quiet items) := ⟨h, fun _ => rfl, fun _ => rfl, fun _ _ e => by cases e⟩

theorem Shows.restart {s : Server} {a : Shop} (h : Shows s a) (mem : Nat → TstNode) :
    (∃ s', LifeStep s (.restart mem) s') ∧ ∀ s', LifeStep s (.restart mem) s' → Shows s' (.quiet a.items) := by
  obtain ⟨db, hopen, hs⟩ := h.stocks.reopen mem
  refine ⟨⟨_, db, hopen, rfl⟩, ?_⟩
  rintro s' ⟨db', hopen', rfl⟩
  obtain rfl := Option.some.inj (hopen.unique hopen')
  exact hs.shows

theorem Shows.life {life : List Occurrence} {s₀ s : Server} {a : Shop} (hs : Shows s₀ a)
    (h : Run (Guarded LifeStep Server.Minds) s₀ life s) : Shows s (life.foldl Shop.occur a) := by
  refine h.simulates Shop.occur (fun s a x s' hr hstep => ?_) _ hs
  cases x with
  | event e => exact (hr.step hstep.2.1 hstep.1).2 _ hstep.2
  | restart mem' => exact (hr.restart mem').2 _ hstep.2

/-- After any run of a server that began on no files, whatever the descriptors of its events
and however often it was ended and started, the server shows the shop that all this makes:
every item, every value that is being read and every reply that is being sent.  From there a
careful event is served exactly when it fits, and otherwise an array is overrun or a line
end missed; and a new start always succeeds. -/
theorem server_shows_shop {mem : Nat → TstNode} {db : TstDb} {life : List Occurrence} {s : Server}
    (hdb : Settles (fun n => tstOpen n mem ⟨none, none⟩) (some db))
    (h : Run (Guarded LifeStep Server.Minds) (Server.start db) life s) :
    Shows s (life.foldl Shop.occur (.quiet fun _ => none)) ∧
      (∀ e, s.enabled e → s.Careful e →
        ((∃ s', ServerStep s e s') ↔ (life.foldl Shop.occur (.quiet fun _ => none)).Fits e)) ∧
      ∀ mem', ∃ s', LifeStep s (.restart mem') s' := by
  have hs := (Stocks.create hdb).shows.life h
  exact ⟨hs, fun e hen hc => (hs.step hen hc).1, fun mem' => (hs.restart mem').1⟩

/-- One connection, and nothing stored. -/
def Server.first (db : TstDb) (fd : Nat) : Server :=
  { Server.start db with epoll := Function.update (Server.start db).epoll fd (some .epollin) }

theorem step_first (db : TstDb) (fd : Nat) :
    Guarded ServerStep Server.Careful (Server.start db) (.accept fd) (Server.first db fd) :=
  ⟨trivial, rfl, 0, fun _ _ => rfl⟩

theorem room_first {mem : Nat → TstNode} {db : TstDb} (h : Settles (fun n => tstOpen n mem ⟨none, none⟩) (some db))
    (fd : Nat) : (Server.first db fd).Room := by
  obtain ⟨-, hfile, -, hsize, -⟩ := Keeps.create h
  refine ⟨?_, ?_⟩
  · show db.size + 255 < ARENA_LIMIT
    rw [hsize]
    decide
  · show db.file.length < LONG_END
    rw [hfile]
    decide

/-- `set k` with the whole value, and a new start. -/
def setK : List Occurrence :=
  [.event (.accept 7), .event (.input 7 (ascii "set k 5 0 1\r\nv\r\n") 100), .restart fun _ => TstNode.fresh]

theorem server_shows_shop_setK : ∃ (db : TstDb) (s : Server),
    Settles (fun n => tstOpen n (fun _ => TstNode.fresh) ⟨none, none⟩) (some db) ∧
    Run (Guarded LifeStep Server.Minds) (Server.start db) setK s ∧
    Shows s (setK.foldl Shop.occur (.quiet fun _ => none)) ∧
    (setK.foldl Shop.occur (.quiet fun _ => none)).items [107] = some ⟨5, 0, [118]⟩ := by
  obtain ⟨db, hdb⟩ := tstOpen_new fun _ => TstNode.fresh
  have haccept := step_first db 7
  have hshows := ((Stocks.create hdb).shows.step haccept.2.1 trivial).2 _ haccept.2
  have hasked : asked (ascii "set k 5 0 1\r\nv\r\n") = .ok (.set [107] 5 0 1) := by decide +kernel
  have hcareful : (Server.first db 7).Careful (.input 7 (ascii "set k 5 0 1\r\nv\r\n") 100) := by
    refine ⟨room_first hdb 7, fun _ key h => ?_⟩
    rw [hasked] at h
    rcases h with h | h <;> cases h
  have hfits : Shop.Fits (Shop.exec (.quiet fun _ => none) (.accept 7))
      (.input 7 (ascii "set k 5 0 1\r\nv\r\n") 100) := by
    intro _ _
    rw [hasked]
    exact fun _ _ => by decide +kernel
  have hen : (Server.first db 7).enabled (.input 7 (ascii "set k 5 0 1\r\nv\r\n") 100) :=
    ⟨rfl, by decide +kernel, by show _ ≤ IN_BUF_SIZE; decide +kernel⟩
  obtain ⟨s₁, hs₁⟩ := (hshows.step hen hcareful).1.mpr hfits
  obtain ⟨s, hs⟩ := (((hshows.step hen hcareful).2 _ hs₁).restart fun _ => TstNode.fresh).1
  have hrun : Run (Guarded LifeStep Server.Minds) (Server.start db) setK s :=
    .cons ⟨haccept.1, haccept.2⟩ (.cons ⟨hcareful, hs₁⟩ (.cons ⟨trivial, hs⟩ (.nil s)))
  exact ⟨db, s, hdb, hrun, (server_shows_shop hdb hrun).1, by decide +kernel⟩

end Tstdb.V1
