import Keyspace.Proofs.Chunked.Present
import Keyspace.Proofs.Chunked.Storage

/-!
# Deletions during a put

One put goes on while any number of deletions of its key do. A deletion takes along the chunks that the put
has written, and the put turns to its version all the same: of the chunks that the info record then tells of,
just those are there that were written since (`deletion_during_put`).
-/

namespace Keyspace.Chunked

/-! ## Runs -/

/-- The number of chunks that a put has written. -/
def Stage.written : Stage → Nat
  | writing _ n | turned _ n => n
  | _ => 0

/-- The info record that a put turns to. -/
def Stage.info? (chunkSize size : Nat) : Stage → Option Info
  | writing version _ | turned version _ => some (nextInfo chunkSize size version)
  | _ => none

namespace Clash

structure Bench where
  backend : Backend
  /-- How far the put has come. -/
  stage : Stage
  /-- The number of chunks that the put had written when the last deletion took effect. -/
  wiped : Nat

namespace Bench

abbrev store (β : Bench) : Store := β.backend.store

def servePut (t : Turn) (c : Call) (β : Bench) : Outcome c.Answer × Bench :=
  let (r, b) := β.backend.serve t c
  (r, { β with backend := b, stage := β.stage.hear c r })

def serveDelete (t : Turn) (c : Call) (β : Bench) : Outcome c.Answer × Bench :=
  let (r, b) := β.backend.serve t c
  (r, { β with backend := b, wiped := if β.backend.takes t c then β.stage.written else β.wiped })

end Bench

end Clash

structure Clash (φ : Call → Type) where
  bench : Clash.Bench
  put : Prog Call.Answer φ (Outcome Info)
  deletes : List (Prog Call.Answer φ (Outcome Unit))

namespace Clash

variable {φ : Call → Type}

inductive Event
  /-- Something else moves the backend. -/
  | other (now : Nat) (m : Move)
  | beginDelete (c : Client)
  | turnPut (t : Turn)
  /-- The deletion that was begun as the `i`th, counted from 0, makes a step. -/
  | turnDelete (i : Nat) (t : Turn)

def next (key : String) (x : Clash φ) : Event → Clash φ
  | .other now m => { x with bench := { x.bench with backend := x.bench.backend.move now m } }
  | .beginDelete c => { x with deletes := x.deletes ++ [(delete c key).run] }
  | .turnPut t =>
    let (p, β) := x.put.step (Bench.servePut t) t x.bench
    { x with bench := β, put := p }
  | .turnDelete i t =>
    match x.deletes[i]? with
    | none => x
    | some p =>
      let (p, β) := p.step (Bench.serveDelete t) t x.bench
      { x with bench := β, deletes := x.deletes.set i p }

def run (key : String) (x : Clash φ) (events : List Event) : Clash φ := events.foldl (next key) x

def start (b : Backend) (c : Client) (key : String) (size : Nat) (source : Source φ) : Clash φ :=
  ⟨⟨b, .looking, 0⟩, (Chunked.put c key size source).run, []⟩

def Has (s : Store) (key : String) (info : Info) (i : Nat) : Prop :=
  (s.current (Utf8.encode (chunkKey key info.version i))).isSome

instance (s : Store) (key : String) (info : Info) (i : Nat) : Decidable (Has s key info i) :=
  inferInstanceAs (Decidable (_ = true))

/-- A store in which the key has no value, or one whose chunks are all there. -/
structure Proper (key : String) (s : Store) : Prop where
  sound : s.Sound
  unleased : Unleased key s
  value : ∀ record, s.current (Utf8.encode (infoKey key)) = some record →
    ∃ info, Info.ofBytes? record.value = some info ∧ 0 ≤ info.version ∧
      -- the next version is a 64-bit number too
      info.version + 1 < 9223372036854775808 ∧
      ∀ i : Nat, (i : Int) < info.count → Has s key info i

/-! ## What lies on the shelf -/

variable {key : String} {f : Shelf} {version : Int} {n w chunkSize size : Nat}

/-- There is no info record, or one of the version, whose chunks are all there. -/
def Old (key : String) (f : Shelf) (version : Int) : Prop :=
  ∀ b, f (Utf8.encode (infoKey key)) = some b → ∃ info, Info.ofBytes? b = some info ∧ info.version = version ∧
    ∀ i : Nat, (i : Int) < info.count → (f (Utf8.encode (chunkKey key info.version i))).isSome

theorem Old.of_none (h : f (Utf8.encode (infoKey key)) = none) : Old key f version := by
  intro b hb
  rw [h] at hb
  cases hb

theorem Old.congr {g : Shelf} (h : Old key f version)
    (hi : g (Utf8.encode (infoKey key)) = f (Utf8.encode (infoKey key)))
    (hc : ∀ i : Int, g (Utf8.encode (chunkKey key version i)) = f (Utf8.encode (chunkKey key version i))) :
    Old key g version := by
  intro b hb
  obtain ⟨info, ho, rfl, hall⟩ := h b (hi ▸ hb)
  exact ⟨info, ho, rfl, fun i hlt => hc i ▸ hall i hlt⟩

/-- Of the first `n` chunks of the version those from `w` on are there. -/
def Since (key : String) (f : Shelf) (version : Int) (w n : Nat) : Prop :=
  ∀ i < n, ((f (Utf8.encode (chunkKey key version i))).isSome ↔ w ≤ i)

theorem Since.congr {g : Shelf} (h : Since key f version w n)
    (hc : ∀ i < n, g (Utf8.encode (chunkKey key version i)) = f (Utf8.encode (chunkKey key version i))) :
    Since key g version w n := fun i hi => hc i hi ▸ h i hi

/-- What the put and the deletions have left on the shelf, if `w` chunks were written when the last deletion
took effect. -/
def Left (key : String) (chunkSize size w : Nat) : Stage → Shelf → Prop
  | .looking, f => w = 0 ∧ Room (versionOf (f (Utf8.encode (infoKey key)))) ∧
    Old key f (versionOf (f (Utf8.encode (infoKey key))))
  | .clearing version, f => w = 0 ∧ Room version ∧ Old key f version
  | .writing version n, f => Room version ∧ w ≤ n ∧ Since key f (version + 1) w n ∧
    -- the turn may have been made unheard
    (Old key f version ∨ n = chunkCount size chunkSize ∧
      f (Utf8.encode (infoKey key)) = some (nextInfo chunkSize size version).toBytes)
  | .turned version n, f => Room version ∧ w ≤ n ∧ Since key f (version + 1) w n ∧
    (f (Utf8.encode (infoKey key)) = none ∨ n = chunkCount size chunkSize ∧
      f (Utf8.encode (infoKey key)) = some (nextInfo chunkSize size version).toBytes)
  | _, _ => False

theorem Since.chunk (h : Since key f version w n) (hw : w ≤ n) (b : Bytes) :
    Since key (f.apply (.put (Utf8.encode (chunkKey key version n)) b none)) version w (n + 1) := by
  intro i hi
  by_cases he : i = n
  · subst he
    have hs : f.apply (.put (Utf8.encode (chunkKey key version i)) b none)
        (Utf8.encode (chunkKey key version i)) = some b := if_pos rfl
    rw [hs]
    exact ⟨fun _ => hw, fun _ => rfl⟩
  · rw [f.chunk_of_chunk (.inr (by omega)) b]
    exact h i (by omega)

/-- Turning makes the info record the put's own, whatever became of its chunks. -/
theorem Left.turn (h : Left key chunkSize size w (.writing version (chunkCount size chunkSize)) f) :
    Left key chunkSize size w (.turned version (chunkCount size chunkSize))
      (f.applyAll (commitTxn key (nextInfo chunkSize size version) version).success) := by
  obtain ⟨hr, hw, hs, _⟩ := h
  refine ⟨hr, hw, hs.congr fun i _ => ?_, .inr ⟨rfl, f.info_of_turn _ version⟩⟩
  exact (Shelf.chunk_of_clear _ (by omega) i).trans (if_neg (chunkKey_ne_infoKey _ _).symm)

theorem Left.serve {b : Backend} {R : Int} {c : Call} {st : Stage} (hk : Kept key b.store)
    (h : Left key chunkSize size w st (shelf key b.store)) (hm : Calls R key chunkSize size st c) (t : Turn) :
    Kept key (b.serve t c).2.store ∧
      Left key chunkSize size w (st.hear c (b.serve t c).1) (shelf key (b.serve t c).2.store) := by
  cases hm with
  | look =>
    refine hk.hear (.range _ _) t h h fun a ha => ?_
    show Left key chunkSize size w (.clearing (versionOf (a.records.head?.map (·.value)))) (shelf key b.store)
    rw [hk.heard ha]
    exact h
  | clear version =>
    obtain ⟨rfl, hr, ho⟩ := h
    rw [hr.versionAfter]
    have ho' := ho.congr (Shelf.info_of_clear _ (version + 1)) (Shelf.chunk_of_clear _ (by omega))
    exact hk.hear (.deleteRange _) t ⟨rfl, hr, ho⟩ ⟨rfl, hr, ho'⟩ fun a _ =>
      ⟨hr, Nat.le_refl 0, fun i hi => absurd hi (Nat.not_lt_zero i), .inl ho'⟩
  | source version n span => exact hk.hear (.range _ _) t h h fun a _ => h
  | chunk version n hn x =>
    obtain ⟨hr, hw, hs, ho⟩ := id h
    rw [hr.versionAfter]
    have ho' := (ho.resolve_right fun h => absurd h.1 (Nat.ne_of_lt hn)).congr
      (Shelf.info_of_chunk _ (version + 1) n x) fun i => Shelf.chunk_of_chunk _ (.inl (by omega)) x
    refine hk.hear (.put (owns_chunkKey _ _) x) t h ?_ fun a _ => ?_
    · exact ⟨hr, hw, hs.congr fun i hi => Shelf.chunk_of_chunk _ (.inr (by omega)) x, .inl ho'⟩
    · exact ⟨hr, Nat.le_succ_of_le hw, hs.chunk hw x, .inl ho'⟩
  | turn version =>
    have ht := h.turn
    obtain ⟨hr, hw, hs, ho⟩ := id ht
    exact hk.hear (.turn key _ version) t h ⟨hr, hw, hs, ho.imp .of_none id⟩ fun a _ => ht
  | remove => exact h.elim

/-- A deletion leaves nothing, and of the chunks written so far none. -/
theorem Left.wipe {st : Stage} (h : Left key chunkSize size w st f) :
    Left key chunkSize size st.written st (f.applyAll (deleteTxn key).success) := by
  have hi : f.applyAll (deleteTxn key).success (Utf8.encode (infoKey key)) = none :=
    f.none_of_remove owns_infoKey
  have hs : ∀ version n, Since key (f.applyAll (deleteTxn key).success) version n n := by
    intro version n i hlt
    rw [f.none_of_remove (owns_chunkKey version i)]
    exact ⟨fun h => (by cases h), fun h => absurd hlt (Nat.not_lt.2 h)⟩
  cases st with
  | looking =>
    refine ⟨rfl, ?_, .of_none hi⟩
    rw [hi]
    exact ⟨Int.le_refl 0, by decide⟩
  | clearing version => exact ⟨rfl, h.2.1, .of_none hi⟩
  | writing version n => exact ⟨h.1, Nat.le_refl n, hs _ n, .inl (.of_none hi)⟩
  | turned version n => exact ⟨h.1, Nat.le_refl n, hs _ n, .inl hi⟩
  | removing => exact h.elim
  | removed => exact h.elim

theorem Left.serveDelete {β : Bench} (hk : Kept key β.store)
    (h : Left key chunkSize size β.wiped β.stage (shelf key β.store)) (t : Turn) :
    Kept key (Bench.serveDelete t (.txn (deleteTxn key)) β).2.store ∧
      Left key chunkSize size (Bench.serveDelete t (.txn (deleteTxn key)) β).2.wiped β.stage
        (shelf key (Bench.serveDelete t (.txn (deleteTxn key)) β).2.store) := by
  obtain ⟨hk', hf⟩ := hk.serve (.remove key) t
  refine ⟨hk', ?_⟩
  show Left key chunkSize size
    (if β.backend.takes t (.txn (deleteTxn key)) then β.stage.written else β.wiped) β.stage
    (shelf key (β.backend.serve t (.txn (deleteTxn key))).2.store)
  rw [hf]
  split
  · exact h.wipe
  · exact h

/-! ## Steps -/

structure Keeps (key : String) (chunkSize size : Nat) (R : Int) (v : SortedMap Bytes Record) (x : Clash φ) :
    Prop where
  kept : Kept key x.bench.store
  pinned : x.bench.store.Pinned R v
  left : Left key chunkSize size x.bench.wiped x.bench.stage (shelf key x.bench.store)
  put : x.put.Ensures (stages R v key chunkSize size) (fun _ _ => True) x.bench.stage
  deletes : ∀ p ∈ x.deletes, ∃ st, (st = .removing ∨ st = .removed) ∧
    p.Ensures (stages R v key chunkSize size) (fun _ _ => True) st

namespace Keeps

variable {R : Int} {v : SortedMap Bytes Record} {x : Clash φ}

theorem start {b : Backend} (hb : Proper key b.store) (c : Client) {source : Source φ}
    (hv : ∀ k r, v.get? k = some r → r.createRevision ≠ 0) (hp : b.store.Pinned R v) (hr : source.Reads R v) :
    Keeps key c.config.chunkSize size R v (.start b c key size source) where
  kept := ⟨hb.sound, hb.unleased⟩
  pinned := hp
  left := by
    have hsome : ∀ {k : Bytes}, Owns key k → (b.store.current k).isSome → (shelf key b.store k).isSome := by
      intro k hk h
      rw [shelf_of_owns hk, Option.isSome_map]
      exact h
    have hi : shelf key b.store (Utf8.encode (infoKey key)) = _ := shelf_of_owns owns_infoKey
    refine ⟨rfl, ?_⟩
    show Room (versionOf (shelf key b.store _)) ∧ Old key (shelf key b.store) (versionOf (shelf key b.store _))
    cases hc : b.store.current (Utf8.encode (infoKey key)) with
    | none =>
      rw [hc] at hi
      refine ⟨?_, .of_none hi⟩
      rw [hi]
      exact ⟨Int.le_refl 0, by decide⟩
    | some record =>
      obtain ⟨info, ho, h0, h1, hall⟩ := hb.value record hc
      rw [hc] at hi
      have hver : versionOf (shelf key b.store (Utf8.encode (infoKey key))) = info.version := by
        rw [hi, versionOf, Option.map_some, Option.bind_some, ho]
        rfl
      rw [hver]
      refine ⟨⟨h0, h1⟩, fun y hy => ?_⟩
      cases hi.symm.trans hy
      exact ⟨info, ho, rfl, fun i hlt => hsome (owns_chunkKey _ _) (hall i hlt)⟩
  put := (ensures_put_stages hv hr).mono fun _ _ _ => trivial
  deletes p hp := by cases hp

theorem turnPut (h : Keeps key chunkSize size R v x) (t : Turn) :
    Keeps key chunkSize size R v (next key x (.turnPut t)) := by
  have hstep := Prog.Ensures.step_beside (s := x.bench) (Bench.servePut t)
    (fun st β => β.stage = st ∧ Kept key β.store ∧ β.store.Pinned R v ∧
      Left key chunkSize size β.wiped β.stage (shelf key β.store))
    h.put t ⟨rfl, h.kept, h.pinned, h.left⟩ fun i hm => ?_
  · obtain ⟨st, ⟨rfl, hk, hp, hl⟩, he⟩ := hstep
    exact ⟨hk, hp, hl, he, h.deletes⟩
  · obtain ⟨hk, hl⟩ := h.left.serve h.kept hm t
    exact ⟨_, ⟨Backend.hears_serve h.kept.sound h.pinned t i, rfl⟩, rfl, hk,
      (Holds.serve ⟨h.kept.sound, h.pinned⟩ t i).2, hl⟩

theorem turnDelete (h : Keeps key chunkSize size R v x) (i : Nat) (t : Turn) :
    Keeps key chunkSize size R v (next key x (.turnDelete i t)) := by
  cases hi : x.deletes[i]? with
  | none =>
    have hx : next key x (.turnDelete i t) = x := by simp only [next, hi]
    rw [hx]
    exact h
  | some p =>
    have hx : next key x (.turnDelete i t) = ⟨(p.step (Bench.serveDelete t) t x.bench).2, x.put,
        x.deletes.set i (p.step (Bench.serveDelete t) t x.bench).1⟩ := by simp only [next, hi]
    obtain ⟨st, hst, hp⟩ := h.deletes p (List.mem_of_getElem? hi)
    have hstep := Prog.Ensures.step_beside (s := x.bench) (Bench.serveDelete t)
      (fun st β => (st = .removing ∨ st = .removed) ∧ β.stage = x.bench.stage ∧ Kept key β.store ∧
        β.store.Pinned R v ∧ Left key chunkSize size β.wiped β.stage (shelf key β.store))
      hp t ⟨hst, rfl, h.kept, h.pinned, h.left⟩ fun c hm => ?_
    · obtain ⟨st', ⟨hst', heq, hk, hpin, hl⟩, he⟩ := hstep
      rw [hx]
      refine ⟨hk, hpin, hl, heq.symm ▸ h.put, fun q hq => ?_⟩
      rcases List.mem_or_eq_of_mem_set hq with hq | rfl
      · exact h.deletes q hq
      · exact ⟨st', hst', he⟩
    · obtain rfl | rfl := hst
      · cases hm with
        | remove =>
          obtain ⟨hk, hl⟩ := h.left.serveDelete h.kept t
          exact ⟨_, ⟨Backend.hears_serve h.kept.sound h.pinned t _, rfl⟩, Stage.hear_removing _ _, rfl, hk,
            (Holds.serve ⟨h.kept.sound, h.pinned⟩ t _).2, hl⟩
      · cases hm

theorem next (h : Keeps key chunkSize size R v x) {e : Event}
    (he : ∀ now m, e = .other now m → ∀ k, Owns key k → ¬ m.Writes k) :
    Keeps key chunkSize size R v (x.next key e) := by
  cases e with
  | other now m =>
    have hl := h.kept.leads_move now (he now m rfl)
    exact ⟨h.kept.leads hl, h.pinned.leads hl, (Kept.shelf_leads hl).symm ▸ h.left, h.put, h.deletes⟩
  | beginDelete c =>
    refine ⟨h.kept, h.pinned, h.left, h.put, fun p hp => ?_⟩
    rcases List.mem_append.1 hp with hp | hp
    · exact h.deletes p hp
    · rw [List.mem_singleton.1 hp]
      exact ⟨.removing, .inl rfl, ensures_delete_stages.mono fun _ _ _ => trivial⟩
  | turnPut t => exact h.turnPut t
  | turnDelete i t => exact h.turnDelete i t

theorem run (events : List Event) : ∀ {x : Clash φ}, Keeps key chunkSize size R v x →
    (∀ now m, Event.other now m ∈ events → ∀ k, Owns key k → ¬ m.Writes k) →
      Keeps key chunkSize size R v (x.run key events) := by
  induction events with
  | nil => exact fun h _ => h
  | cons e events ih =>
    intro x h he
    exact ih (h.next fun now m hm => he now m (hm ▸ List.mem_cons_self)) fun now m hm =>
      he now m (List.mem_cons_of_mem _ hm)

end Keeps

/-! ## Broken values -/

/-- The info record, if there is one, tells of chunks that are all there, or it is the put's own and a deletion
took effect when `w` chunks were written. -/
theorem Left.cases {s : Store} {st : Stage} (hc : 0 < chunkSize) (hsize : size < 9223372036854775808)
    (h : Left key chunkSize size w st (shelf key s)) {record : Record}
    (hr : s.current (Utf8.encode (infoKey key)) = some record) :
    ∃ info, Info.ofBytes? record.value = some info ∧
      ((∀ i : Nat, (i : Int) < info.count → Has s key info i) ∨
        st.info? chunkSize size = some info ∧ ∀ i : Nat, (i : Int) < info.count → (Has s key info i ↔ w ≤ i)) := by
  have hb : shelf key s (Utf8.encode (infoKey key)) = some record.value := by
    rw [shelf_of_owns owns_infoKey, hr]
    rfl
  have hiff : ∀ version i : Int, (shelf key s (Utf8.encode (chunkKey key version i))).isSome =
      (s.current (Utf8.encode (chunkKey key version i))).isSome := by
    intro version i
    rw [shelf_of_owns (owns_chunkKey _ _), Option.isSome_map]
  have old : ∀ {version}, Old key (shelf key s) version → ∃ info, Info.ofBytes? record.value = some info ∧
      ∀ i : Nat, (i : Int) < info.count → Has s key info i := by
    intro version ho
    obtain ⟨info, hi, _, hall⟩ := ho _ hb
    exact ⟨info, hi, fun i hlt => (hiff _ _).symm.trans (hall i hlt)⟩
  have own : ∀ {version n}, Room version → Since key (shelf key s) (version + 1) w n →
      n = chunkCount size chunkSize ∧
        shelf key s (Utf8.encode (infoKey key)) = some (nextInfo chunkSize size version).toBytes →
      Info.ofBytes? record.value = some (nextInfo chunkSize size version) ∧
        ∀ i : Nat, (i : Int) < (nextInfo chunkSize size version).count →
          (Has s key (nextInfo chunkSize size version) i ↔ w ≤ i) := by
    rintro version n hroom hs ⟨rfl, hn⟩
    refine ⟨?_, fun i hlt => ?_⟩
    · rw [Option.some.inj (hb.symm.trans hn)]
      exact Info.ofBytes?_toBytes (hroom.fits hc hsize)
    · rw [Has, ← hiff, nextInfo, hroom.versionAfter]
      exact hs i (Int.ofNat_lt.1 hlt)
  cases st with
  | looking =>
    obtain ⟨info, hi, hall⟩ := old h.2.2
    exact ⟨info, hi, .inl hall⟩
  | clearing version =>
    obtain ⟨info, hi, hall⟩ := old h.2.2
    exact ⟨info, hi, .inl hall⟩
  | writing version n =>
    obtain ⟨hroom, _, hs, ho | hn⟩ := h
    · obtain ⟨info, hi, hall⟩ := old ho
      exact ⟨info, hi, .inl hall⟩
    · obtain ⟨hi, hall⟩ := own hroom hs hn
      exact ⟨_, hi, .inr ⟨rfl, hall⟩⟩
  | turned version n =>
    obtain ⟨hroom, _, hs, ho | hn⟩ := h
    · rw [ho] at hb
      cases hb
    · obtain ⟨hi, hall⟩ := own hroom hs hn
      exact ⟨_, hi, .inr ⟨rfl, hall⟩⟩
  | removing => exact h.elim
  | removed => exact h.elim

/-- Whatever a put and deletions that go on at once do, and whatever becomes of their calls: if there is an info
record, its chunks are all there, or it is the put's own and a deletion took effect after the put had written
some chunk. Then just those chunks are there that were written since. A reader that is opened when all are there
does not miss one. -/
theorem deletion_during_put {b : Backend} (hb : Proper key b.store) {c : Client} (hc : 0 < c.config.chunkSize)
    (hsize : size < 9223372036854775808) {source : Source φ} {content : Bytes} (hs : source.Gives b.store content)
    (events : List Event) (he : ∀ now m, Event.other now m ∈ events → ∀ k, Owns key k → ¬ m.Writes k) :
    let β := (run key (start b c key size source) events).bench
    ∀ record, β.store.current (Utf8.encode (infoKey key)) = some record →
      ∃ info, Info.ofBytes? record.value = some info ∧
        ((∀ i : Nat, (i : Int) < info.count → Has β.store key info i) ∨
          β.stage.info? c.config.chunkSize size = some info ∧ 0 < β.wiped ∧
            ∀ i : Nat, (i : Int) < info.count → (Has β.store key info i ↔ β.wiped ≤ i)) ∧
        ((∀ i : Nat, (i : Int) < info.count → Has β.store key info i) → ∀ (d : Client) now a,
          (β.backend.answer now (.range (.single (Utf8.encode (infoKey key))) none)).1 = .ok a →
          ∀ reads, (∀ e ∈ reads, ¬ Mixed.Event.Misses e) →
            ∀ x ∈ (Mixed.Desk.run ⟨(β.backend.answer now (.range (.single (Utf8.encode (infoKey key))) none)).2,
              .idle ⟨d, key, ⟨info, a.revision⟩, 0, [], none⟩⟩ [] reads).2, ¬ Misses x) := by
  intro β record hr
  obtain ⟨R, v, hp, hv, hreads, _⟩ := hs
  have hk : Keeps key c.config.chunkSize size R v _ := (Keeps.start hb c hv hp hreads).run events he
  obtain ⟨info, hi, hcases⟩ := hk.left.cases hc hsize hr
  refine ⟨info, hi, ?_, fun hall d now a ha reads hreads => ?_⟩
  · rcases hcases with hall | ⟨hown, hiff⟩
    · exact .inl hall
    · by_cases h0 : β.wiped = 0
      · exact .inl fun i hlt => (hiff i hlt).2 (h0 ▸ Nat.zero_le i)
      · exact .inr ⟨hown, Nat.pos_of_ne_zero h0, hiff⟩
  · -- opening ends leases at most, and no chunk is bound to one
    have hl := hk.kept.leads_move now (m := .call (.range (.single (Utf8.encode (infoKey key))) none))
      fun _ _ hw => hw
    rw [(Backend.answer_range_single hk.kept.sound ha).1]
    refine Mixed.never_missing hl.1 d key info (fun i hlt => ?_) reads hreads
    rw [Kept.current_leads hl (owns_chunkKey _ _)]
    exact hall i hlt

theorem proper_ofMembers (names : List String) : Proper key (.ofMembers names) where
  sound := .ofMembers names
  unleased k _ r hr := by cases hr
  value record hr := by cases hr

/-- The deletion comes when two of three chunks are written. -/
theorem deletion_during_put_third_left :
    let c : Client := .ofConfig { Config.standard with chunkSize := 1 }
    let b : Backend := .ofMembers ["a"]
    let turn : Event := .turnPut ⟨0, ⟨0, 0⟩, .answered⟩
    let events := [.beginDelete c, turn, turn, turn, turn, .turnDelete 0 ⟨0, ⟨0, 0⟩, .answered⟩, turn, turn]
    let β := (run (φ := fun _ => Unit) "k" (start b c "k" 3 (.bytes [7, 8, 9])) events).bench
    Proper "k" b.store ∧ β.wiped = 2 ∧ ∃ record, β.store.current (Utf8.encode (infoKey "k")) = some record ∧
      Info.ofBytes? record.value = some ⟨3, 3, 1⟩ ∧
        ∀ i : Nat, (i : Int) < 3 → (Has β.store "k" ⟨3, 3, 1⟩ i ↔ β.wiped ≤ i) := by
  intro c b turn events β
  have hβ : (run (φ := fun _ => Unit) "k" (start b c "k" 3 (.bytes [7, 8, 9])) events).bench = β := rfl
  have hw : β.wiped = 2 := by decide +kernel
  have hd : ((β.store.current (Utf8.encode (infoKey "k"))).bind fun r => Info.ofBytes? r.value) =
      some ⟨3, 3, 1⟩ := by decide +kernel
  have h0 : ¬ Has β.store "k" ⟨3, 3, 1⟩ 0 := by decide +kernel
  have hp : Proper "k" b.store := proper_ofMembers ["a"]
  have h := deletion_during_put (φ := fun _ => Unit) hp (c := c) (by decide)
    (show 3 < 9223372036854775808 by decide) (Source.gives_bytes hp.sound [7, 8, 9]) events
    fun now m hm => by simp [events, turn] at hm
  rw [hβ] at h
  -- from here on the run need not be looked into
  clear_value β
  obtain ⟨record, hr, hi⟩ := Option.bind_eq_some_iff.1 hd
  obtain ⟨info, hi', hcases, _⟩ := h record hr
  cases hi.symm.trans hi'
  refine ⟨hp, hw, record, hr, hi, ?_⟩
  rcases hcases with hall | ⟨_, _, hiff⟩
  · exact absurd (hall 0 (by decide)) h0
  · exact hiff

/-- A deletion between the only chunk and the turn, with no call that fails: the put ends well, and its value
has no chunk. -/
theorem broken_by_deletion :
    let c : Client := .ofConfig { Config.standard with chunkSize := 1 }
    let b : Backend := .ofMembers ["a"]
    let turn : Event := .turnPut ⟨0, ⟨0, 0⟩, .answered⟩
    let x := run (φ := fun _ => Unit) "k" (start b c "k" 1 (.bytes [7]))
      [.beginDelete c, turn, turn, turn, .turnDelete 0 ⟨0, ⟨0, 0⟩, .answered⟩, turn]
    Proper "k" b.store ∧ x.put.result?.bind Except.toOption = some ⟨1, 1, 1⟩ ∧
      ((x.bench.store.current (Utf8.encode (infoKey "k"))).bind fun r => Info.ofBytes? r.value) = some ⟨1, 1, 1⟩ ∧
      ¬ Has x.bench.store "k" ⟨1, 1, 1⟩ 0 :=
  ⟨proper_ofMembers ["a"], by decide +kernel, by decide +kernel, by decide +kernel⟩

end Clash

end Keyspace.Chunked
