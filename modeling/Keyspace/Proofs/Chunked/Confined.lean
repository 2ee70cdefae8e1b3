import Keyspace.Proofs.Chunked.Neighbours
import Keyspace.Proofs.Chunked.Snapshot
import Keyspace.Proofs.Run.Lines
import Keyspace.Proofs.Store.Ending

/-!
# Operations stay inside their key

Every call that an operation on a chunked key makes writes or deletes only keys of that value: a put, from when it has
found a version, those of this version and the next one. Of a value at a key apart the store then shows what it showed.
-/

namespace Keyspace

open Ledger (Line)

/-! ## Calls in an area -/

/-- The calls that write or delete only keys of an area, and have to do with no lease. -/
inductive Call.Within (area : Bytes → Prop) : Call → Prop
  | range (span : Span) (revision : Option Int) : Within area (.range span revision)
  | put {k : Bytes} (h : area k) (value : Bytes) : Within area (.put k value none)
  | deleteRange {span : Span} (h : ∀ k, span.contains k = true → area k) : Within area (.deleteRange span)
  | txn {t : Txn} (h : ∀ op, op ∈ t.success ∨ op ∈ t.failure → ∀ k, op.Writes k → area k) : Within area (.txn t)

variable {area area' : Bytes → Prop}

theorem Call.Within.mono {c : Call} (h : c.Within area) (ha : ∀ k, area k → area' k) : c.Within area' := by
  cases h with
  | range span revision => exact .range span revision
  | put h value => exact .put (ha _ h) value
  | deleteRange h => exact .deleteRange fun k hk => ha k (h k hk)
  | txn h => exact .txn fun op ho k hk => ha k (h op ho k hk)

theorem Call.Within.always {ops : List Op} (h : ∀ op ∈ ops, ∀ k, op.Writes k → area k) :
    (Call.txn (.always ops)).Within area :=
  .txn fun op ho => ho.elim (h op) fun ho => nomatch ho

theorem Call.Within.leads {c : Call} (h : c.Within area) {s : Store} (hs : s.Sound) (now : Nat) :
    (s.expire now).Leads (fun e => area e.record.key) (s.answer now c).2 := by
  cases h with
  | range span revision => exact (Store.leads_answer_of_ends hs now _).mono fun _ he => nomatch he
  | put h value => exact (Store.leads_answer_of_ends hs now _).mono fun _ (he : _ = _) => he ▸ h
  | deleteRange h => exact (Store.leads_answer_of_ends hs now _).mono fun _ => h _
  | txn h => exact (Store.leads_answer_of_ends hs now _).mono fun _ ⟨op, ho, hw⟩ => h op ho _ hw

/-- Of what it finds, once the leases that are due have ended, the call changes no more than keys of the area. -/
structure Ledger.Line.Touches (area : Bytes → Prop) (e : Line) : Prop where
  leads : (e.found.expire e.now).Leads (fun ev => area ev.record.key) e.made
  floor : e.made.floor = (e.found.expire e.now).floor

theorem Ledger.Line.Honest.touches {e : Line} (he : e.Honest) (h : e.call.Within area) : e.Touches area := by
  obtain ⟨_, hmade⟩ := Store.posts_answer he.sound e.now e.call
  obtain ⟨_, hexpire⟩ := Store.posts_endAll (e.found.due e.now) he.sound
  exact ⟨h.leads he.sound e.now, hmade.floor.trans hexpire.floor.symm⟩

/-! ## Readers in a run -/

theorem Ledger.Reached.reading {α : Type} {R : Int} {v : SortedMap Bytes Record} {Q : α → Unit → Prop} {b : Backend}
    {φ : Call → Type} {p₀ p : Prog Call.Answer φ α} {σ : Ledger} (h : Ledger.Reached b p₀ p σ)
    (hb : Chunked.Holds R v b) (hp : p₀.Ensures (reading R v) Q ()) :
    Chunked.Holds R v σ.backend ∧ p.Ensures (reading R v) Q () := by
  induction h with
  | start => exact ⟨hb, hp⟩
  | @turn p σ h t ih =>
    obtain ⟨hσ, hp⟩ := ih
    exact ⟨Prog.step_inv (I := fun σ : Ledger => Chunked.Holds R v σ.backend) hσ (fun c => hσ.serve t c) t p,
      hp.step_unit t σ fun c => Backend.hears_serve hσ.1 hσ.2 t c⟩
  | other _ now m ih => exact ⟨ih.1.move now m, ih.2⟩

namespace Chunked

variable {φ : Call → Type} {key other : String}

/-! ## What is left alone -/

theorem chunksFrom_congr {v v' : SortedMap Bytes Record} {version : Int}
    (h : ∀ i, chunk? v' key version i = chunk? v key version i) (n : Nat) :
    ∀ i, chunksFrom v' key version n i = chunksFrom v key version n i := by
  induction n with
  | zero => exact fun _ => rfl
  | succ n ih =>
    intro i
    rw [chunksFrom, chunksFrom, h, ih]

/-- From `s` to `t` nothing of the value at a key has changed: neither its info record, nor a chunk, nor what its
readers have before them. At revisions that are new to `t` it is what it was last in `s`. -/
structure Spares (key : String) (s t : Store) : Prop where
  current : ∀ k, KeyOf key k → t.current k = s.current k
  shown : ∀ k, KeyOf key k → ∀ r, t.floor ≤ r → r ≤ t.revision → (t.asOf r).get? k = (s.asOf (min r s.revision)).get? k
  latest : ∀ k, KeyOf key k → t.read (.single k) none = s.read (.single k) none
  read : ∀ k, KeyOf key k → ∀ r ≤ s.revision, t.read (.single k) (some r) = s.read (.single k) (some r)
  remaining : ∀ (φ : Call → Type) (rd : Reader φ), rd.key = key → ∀ r, t.floor ≤ r → r ≤ t.revision →
    rd.remaining (t.asOf r) = rd.remaining (s.asOf (min r s.revision))
  returns : ∀ (φ : Call → Type) (rd : Reader φ), rd.key = key → rd.pending = none → 0 < rd.pin.revision →
    t.floor ≤ rd.pin.revision → rd.pin.revision ≤ t.revision → ∀ (b : Backend) p σ, b.store = t →
      Ledger.Reached b rd.rest p σ → ∀ x, p.result? = some (.ok x) →
        x = rd.remaining (s.asOf (min rd.pin.revision s.revision))

theorem read_single (s : Store) (k : Bytes) (revision : Option Int) :
    s.read (.single k) revision = (s.readRevision revision).map fun r => ((s.asOf r).get? k).toList := by
  simp only [Store.read_eq, SortedMap.values_filter_single]

section
variable {s t : Store}

theorem read_single_congr {k : Bytes} (hfloor : t.floor = s.floor) (hrev : s.revision ≤ t.revision)
    (hlatest : (t.asOf t.revision).get? k = (s.asOf s.revision).get? k)
    (hview : ∀ r, s.floor ≤ r → r ≤ s.revision → (t.asOf r).get? k = (s.asOf r).get? k) :
    t.read (.single k) none = s.read (.single k) none ∧
      ∀ r ≤ s.revision, t.read (.single k) (some r) = s.read (.single k) (some r) := by
  have found : ∀ {o o' : Option Record}, o = o' → (Except.ok o.toList : Outcome (List Record)) = .ok o'.toList :=
    fun h => h ▸ rfl
  refine ⟨by rw [read_single, read_single]; exact found hlatest, fun r hr => ?_⟩
  rw [read_single, read_single]
  unfold Store.readRevision
  simp only
  by_cases h0 : r ≤ 0
  · rw [if_pos h0, if_pos h0]
    exact found hlatest
  · rw [if_neg h0, if_neg h0, hfloor]
    by_cases hf : r < s.floor
    · rw [if_pos hf, if_pos hf]
      rfl
    · rw [if_neg hf, if_neg hf, if_neg (by omega), if_neg (by omega)]
      exact found (hview r (by omega) hr)

theorem remaining_congr {v v' : SortedMap Bytes Record} (h : ∀ k, KeyOf key k → v'.get? k = v.get? k) {rd : Reader φ}
    (hkey : rd.key = key) : rd.remaining v' = rd.remaining v := by
  have hchunk : ∀ i, chunk? v' rd.key rd.pin.info.version i = chunk? v rd.key rd.pin.info.version i := fun i => by
    rw [chunk?, chunk?, h _ (hkey ▸ .chunk _ i)]
  rw [Reader.remaining, Reader.remaining, Reader.beyond, Reader.beyond, chunksFrom_congr hchunk]

theorem returns_remaining {b : Backend} (hs : b.store.Sound) {rd : Reader φ} (hpending : rd.pending = none)
    (hpos : 0 < rd.pin.revision) (hle : rd.pin.revision ≤ b.store.revision) {p : Prog Call.Answer φ (Outcome Bytes)}
    {σ : Ledger} (h : Ledger.Reached b rd.rest p σ) {x : Bytes} (hx : p.result? = some (.ok x)) :
    x = rd.remaining (b.store.asOf rd.pin.revision) := by
  have hreads : rd.Reads rd.pin.revision (b.store.asOf rd.pin.revision) :=
    ⟨rfl, fun q hq => by rw [hpending] at hq; cases hq⟩
  have hrest := Reader.ensures_rest (fun _ _ => hs.dated.created_of_asOf) hreads
  have hend := (h.reading ⟨hs, hpos, hle, fun _ => rfl⟩ hrest).2
  obtain rfl : p = .done (.ok x) := Prog.eq_done_of_result? (by rw [hx]; rfl)
  exact hend () trivial x rfl

theorem spares_of_leads (hs : s.Sound) (h : s.Leads (fun e => Owns key e.record.key) t) (hfloor : t.floor = s.floor)
    (ha : Apart key other) : Spares other s t := by
  have hforeign : ∀ k, KeyOf other k → ∀ e : Event, Owns key e.record.key → e.record.key ≠ k :=
    fun k hk e he hek => ha.not_owns hk (hek ▸ he)
  have hrev := h.revision_le
  have hshown : ∀ k, KeyOf other k → ∀ r, t.floor ≤ r → r ≤ t.revision →
      (t.asOf r).get? k = (s.asOf (min r s.revision)).get? k :=
    fun k hk r hf hr => h.get?_asOf_min hs (hforeign k hk) hf hr
  have hread : ∀ k, KeyOf other k → _ := fun k hk =>
    read_single_congr hfloor hrev (by rw [hshown k hk _ h.1.floor_le (Int.le_refl _), Int.min_eq_right hrev])
      fun r hf hr => by rw [hshown k hk r (by omega) (by omega), Int.min_eq_left hr]
  refine ⟨fun k hk => h.current_eq (hforeign k hk), hshown, fun k hk => (hread k hk).1, fun k hk => (hread k hk).2,
    fun φ rd hrd r hf hr => remaining_congr (fun k hk => hshown k hk r hf hr) hrd,
    fun φ rd hrd hpending hpos hf hr b p σ hb hrun x hx => ?_⟩
  subst hb
  rw [returns_remaining h.1 hpending hpos hr hrun hx]
  exact remaining_congr (fun k hk => hshown k hk _ hf hr) hrd

end

/-! ## Readers write nothing -/

abbrev Silent : Call → Prop := Call.Within fun _ => False

/-- The fetch that the reader may have begun only reads. -/
def Reader.Quiet (r : Reader φ) : Prop :=
  ∀ p, r.pending = some p → p.OnlyCalls Silent

def Source.Quiet : Source φ → Prop
  | .bytes _ => True
  | .reader r => r.Quiet

namespace Reader

variable {r : Reader φ}

theorem Quiet.forget : Quiet (φ := φ) { r with pending := none } := fun _ hp => nomatch hp

theorem Quiet.fetched : r.fetched.Quiet := fun _ hp => nomatch hp

theorem Quiet.setBuffer (h : r.Quiet) (b : Bytes) : Quiet { r with buffer := b } := h

theorem Quiet.fetchOrPending (h : r.Quiet) : r.fetchOrPending.OnlyCalls Silent := by
  unfold Reader.fetchOrPending
  cases hp : r.pending with
  | some p => exact h p hp
  | none =>
    refine Action.onlyCalls_bind ?_ fun x => ?_
    · exact Action.onlyCalls_bind (r.client.onlyCalls_call (.range _ _)) fun _ _ _ => trivial
    · cases x <;> exact fun _ _ => trivial

theorem Quiet.nextChunk (h : r.Quiet) : r.nextChunk.Ensures (asking Silent) (fun x _ => x.2.Quiet) () := by
  unfold Reader.nextChunk
  split
  · exact fun _ _ => h
  · refine h.fetchOrPending.bind fun x s _ => ?_
    cases x with
    | ok b => exact fun _ _ => .fetched
    | error f => exact fun _ _ => .forget

theorem Quiet.fill (k : Nat) : ∀ {r : Reader φ}, r.Quiet →
    (r.fill k).Ensures (asking Silent) (fun x _ => x.2.Quiet) () := by
  induction k with
  | zero => exact fun h _ _ => h
  | succ k ih =>
    intro r h
    unfold Reader.fill
    split
    · refine h.nextChunk.bind fun x s hx => ?_
      obtain ⟨f | (_ | b), r'⟩ := x
      · exact fun _ _ => hx
      · exact fun _ _ => hx
      · exact ih (hx.setBuffer b)
    · exact fun _ _ => h

theorem Quiet.read (h : r.Quiet) (n : Nat) : (r.read n).Ensures (asking Silent) (fun x _ => x.2.Quiet) () := by
  unfold Reader.read
  split
  · exact fun _ _ => h
  · refine (h.fill _).bind fun x s hx => ?_
    obtain ⟨f | _, r'⟩ := x
    · exact fun _ _ => hx
    · exact fun _ _ => hx.setBuffer _

theorem Quiet.chunks (k : Nat) : ∀ {r : Reader φ}, r.Quiet →
    (r.chunks k).OnlyCalls Silent := by
  induction k with
  | zero => exact fun _ _ _ => trivial
  | succ k ih =>
    intro r h
    unfold Reader.chunks
    refine h.nextChunk.bind fun x s hx => ?_
    obtain ⟨f | (_ | b), r'⟩ := x
    · exact fun _ _ => trivial
    · exact fun _ _ => trivial
    · exact (ih hx).bind fun _ _ _ _ _ => trivial

theorem Quiet.rest (h : r.Quiet) : r.rest.OnlyCalls Silent :=
  (h.chunks _).bind fun _ _ _ _ _ => trivial

theorem Quiet.drain (k : Nat) : ∀ {r : Reader φ}, r.Quiet →
    (r.drain k).Ensures (asking Silent) (fun x _ => x.2.Quiet) () := by
  induction k with
  | zero => exact fun h _ _ => h.setBuffer []
  | succ k ih =>
    intro r h
    unfold Reader.drain
    refine (h.setBuffer []).nextChunk.bind fun x s hx => ?_
    obtain ⟨f | (_ | c), r'⟩ := x
    · exact fun _ _ => hx
    · exact fun _ _ => hx
    · exact (ih (hx.setBuffer c)).bind fun _ _ hy _ _ => hy

theorem Quiet.readExact (k : Nat) : ∀ (n : Nat) {r : Reader φ}, r.Quiet →
    (r.readExact k n).Ensures (asking Silent) (fun x _ => x.2.Quiet) () := by
  induction k with
  | zero => exact fun _ _ h _ _ => h
  | succ k ih =>
    intro n r h
    unfold Reader.readExact
    split
    · exact fun _ _ => h.setBuffer _
    · refine (h.setBuffer []).nextChunk.bind fun x s hx => ?_
      obtain ⟨f | (_ | c), r'⟩ := x
      · exact fun _ _ => hx
      · exact fun _ _ => hx
      · exact (ih _ (hx.setBuffer c)).bind fun _ _ hy _ _ => hy

theorem Quiet.poll {W : Type} (h : Env Call.Answer φ W) (n k : Nat) : ∀ {r : Reader φ} {w : W}, r.Quiet →
    (Reader.poll h n k r w).2.1.Quiet := by
  have hserves : h.ServesIn (asking Silent) fun _ => True := ⟨fun _ => trivial, fun _ => trivial, fun _ _ => trivial⟩
  induction k with
  | zero => exact fun hr => hr
  | succ k ih =>
    intro r w hr
    unfold Reader.poll
    split
    · exact hr.setBuffer _
    · split
      · exact hr
      · have hp := (Prog.Ensures.advance_in hserves r.fetchOrPending (w := w) trivial hr.fetchOrPending).1
        split
        · exact ih (Quiet.setBuffer .fetched _)
        · exact .forget
        · rename_i p _ _ _ hx
          rw [hx] at hp
          rintro _ hq
          cases hq
          exact hp

end Reader

theorem Source.Quiet.take {s : Source φ} (h : s.Quiet) (n : Nat) :
    (s.take n).run.Ensures (asking Silent) (fun x _ => ∀ b s', x = .ok (b, s') → s'.Quiet) () := by
  cases s with
  | bytes c =>
    unfold Source.take
    by_cases hn : c.length < n
    · simp only [if_pos hn]
      exact fun _ _ _ _ hx => nomatch hx
    · simp only [if_neg hn]
      rintro _ _ b s' hx
      cases hx
      trivial
  | reader r =>
    refine (Reader.Quiet.readExact _ n h).bind fun x s hx => ?_
    obtain ⟨x, r'⟩ := x
    cases x with
    | error f => exact fun _ _ _ _ hx => nomatch hx
    | ok c =>
      rintro _ _ b s' hb
      cases hb
      exact hx

/-! ## Operations -/

/-- The keys that a put may write or delete once it has found a version. -/
def Around (key : String) (version : Int) (k : Bytes) : Prop :=
  k = Utf8.encode (infoKey key) ∨ Utf8.encode (versionHead key version) <+: k ∨
    Utf8.encode (versionHead key (versionAfter version)) <+: k

theorem Around.owns {version : Int} {k : Bytes} (h : Around key version k) : Owns key k := by
  rcases h with h | h | h
  · exact .inl h
  · exact .inr ((chunksHead_prefix_versionHead _).trans h)
  · exact .inr ((chunksHead_prefix_versionHead _).trans h)

theorem onlyCalls_pin? (c : Client) (key : String) :
    (pin? c key : Action Call.Answer φ (Option Pin)).run.OnlyCalls Silent := by
  refine Action.onlyCalls_bind (c.onlyCalls_call (.range _ _)) fun a => ?_
  cases a.records with
  | nil => exact fun _ _ => trivial
  | cons r rs =>
    simp only
    cases Info.ofBytes? r.value <;> exact fun _ _ => trivial

theorem onlyCalls_writeChunks (c : Client) (key : String) (version : Int) (size : Nat) {area : Bytes → Prop}
    (harea : ∀ index, area (Utf8.encode (chunkKey key version index))) (left : Nat) :
    ∀ (index : Nat) {s : Source φ}, s.Quiet →
      (writeChunks c key version size left index s).run.OnlyCalls (Call.Within area) := by
  induction left with
  | zero => exact fun _ _ _ _ _ => trivial
  | succ left ih =>
    intro index s h
    refine Action.ensures_ok (fun _ _ => trivial) ((h.take _).asking_mono fun _ hc => hc.mono fun _ => False.elim) ?_
    rintro ⟨b, s'⟩ _ hs'
    exact Action.onlyCalls_bind (c.onlyCalls_call (Call.Within.put (harea index) b))
      fun _ => ih (index + 1) (hs' b s' rfl)

/-- What a put does once it has found a version. -/
def putFrom (c : Client) (key : String) (size : Nat) (source : Source φ) (version : Int) :
    Action Call.Answer φ Info := do
  c.clearUnder (versionHead key (versionAfter version))
  let count := chunkCount size c.config.chunkSize
  writeChunks c key (versionAfter version) size count 0 source
  let info : Info := ⟨size, count, versionAfter version⟩
  let a ← c.call (.txn (commitTxn key info version))
  if !a.succeeded then
    throw (.txnFailed ("advancing " ++ key ++ " to version " ++ toString (versionAfter version)))
  return info

theorem put_eq (c : Client) (key : String) (size : Nat) (source : Source φ) :
    put c key size source = pin? c key >>= fun p => putFrom c key size source (p.elim 0 (·.info.version)) := rfl

theorem onlyCalls_putFrom (c : Client) (key : String) (size : Nat) {source : Source φ} (h : source.Quiet)
    (version : Int) : (putFrom c key size source version).run.OnlyCalls (Call.Within (Around key version)) := by
  have hclear : (Call.deleteRange (.under (Utf8.encode (versionHead key (versionAfter version))))).Within
      (Around key version) := .deleteRange fun k hk => .inr (.inr ((Span.contains_under _ _).1 hk))
  have hturn : (Call.txn (commitTxn key ⟨size, chunkCount size c.config.chunkSize, versionAfter version⟩
      version)).Within (Around key version) := by
    refine .always (List.forall_mem_cons.2 ⟨fun k hk => ?_, List.forall_mem_singleton.2 fun k hk => ?_⟩)
    · exact .inl hk.symm
    · exact .inr (.inl ((Span.contains_under _ _).1 hk))
  refine Action.onlyCalls_bind ?_ fun _ => ?_
  · exact Action.onlyCalls_bind (c.onlyCalls_call hclear) fun _ _ _ => trivial
  · refine Action.onlyCalls_bind (onlyCalls_writeChunks c key (versionAfter version) size
      (fun index => .inr (.inr (versionHead_prefix_chunkKey _ index))) _ 0 h) fun _ => ?_
    refine Action.onlyCalls_bind (c.onlyCalls_call hturn) fun a => ?_
    split <;> exact fun _ _ => trivial

theorem onlyCalls_delete (c : Client) (key : String) :
    (delete c key : Action Call.Answer φ Unit).run.OnlyCalls (Call.Within (Owns key)) := by
  have htxn : (Call.txn (deleteTxn key)).Within (Owns key) := by
    refine .always (List.forall_mem_cons.2 ⟨fun k hk => ?_, List.forall_mem_singleton.2 fun k hk => ?_⟩)
    · exact .inl (of_decide_eq_true hk)
    · exact .inr ((Span.contains_under _ _).1 hk)
  exact Action.onlyCalls_bind (c.onlyCalls_call htxn) fun _ _ _ => trivial

/-- The operations on the value at a key. Reads that do not wait go on with the fetch. -/
inductive Operation (key : String) : {α : Type} → Prog Call.Answer φ α → Prop
  | put (c : Client) (size : Nat) {source : Source φ} (h : source.Quiet) : Operation key (put c key size source).run
  | delete (c : Client) : Operation key (delete c key).run
  | opens (c : Client) : Operation key (open? c key).run
  | fetch {r : Reader φ} (hkey : r.key = key) (h : r.Quiet) : Operation key r.fetchOrPending
  | nextChunk {r : Reader φ} (hkey : r.key = key) (h : r.Quiet) : Operation key r.nextChunk
  | read {r : Reader φ} (hkey : r.key = key) (h : r.Quiet) (n : Nat) : Operation key (r.read n)
  | readExact {r : Reader φ} (hkey : r.key = key) (h : r.Quiet) (n : Nat) :
    Operation key (r.readExact (r.left + 2) n)
  | rest {r : Reader φ} (hkey : r.key = key) (h : r.Quiet) : Operation key r.rest
  | stream {r : Reader φ} (hkey : r.key = key) (h : r.Quiet) : Operation key r.stream

theorem Operation.within {α : Type} {p : Prog Call.Answer φ α} (h : Operation key p) :
    p.OnlyCalls (Call.Within (Owns key)) := by
  have silent : ∀ {β : Type} {q : Prog Call.Answer φ β} {Q : β → Unit → Prop}, q.Ensures (asking Silent) Q () →
      q.OnlyCalls (Call.Within (Owns key)) := fun hq =>
    (hq.asking_mono fun _ hc => hc.mono fun _ => False.elim).mono fun _ _ _ => trivial
  cases h with
  | put c size h =>
    rw [put_eq]
    refine Action.onlyCalls_bind (silent (onlyCalls_pin? c key)) fun p => ?_
    exact (onlyCalls_putFrom c key size h _).asking_mono fun _ hc => hc.mono fun _ => Around.owns
  | delete c => exact onlyCalls_delete c key
  | opens c =>
    exact Action.onlyCalls_bind (silent (onlyCalls_pin? c key)) fun _ _ _ => trivial
  | fetch hkey h => exact silent h.fetchOrPending
  | nextChunk hkey h => exact silent h.nextChunk
  | read hkey h n => exact silent (h.read n)
  | readExact hkey h n => exact silent (h.readExact _ n)
  | rest hkey h => exact silent h.rest
  | stream hkey h => exact silent (h.drain _)

/-! ## The lines of a put -/

/-- By a record, or none, at the info key a put goes on from the version. -/
def VersionAt (version : Int) : Option Record → Prop
  | none => version = 0
  | some r => ∃ info, Info.ofBytes? r.value = some info ∧ info.version = version

abbrev look (key : String) : Call := .range (.single (Utf8.encode (infoKey key))) none

def Told (key : String) (version : Int) (ls : List Line) : Prop :=
  ∃ us now found reached a, ls = us ++ [⟨now, look key, found, reached, .ok a⟩] ∧ VersionAt version a.records.head?

theorem throughout_pin? (c : Client) (key : String) :
    (pin? c key : Action Call.Answer φ (Option Pin)).run.Throughout Logs (fun o ls => (∀ e ∈ ls, e.call = look key) ∧
      ∀ p, o = some (.ok p) → Told key (p.elim 0 (·.info.version)) ls) [] := by
  have hcalls : ∀ {o ls}, Asks (look key) [] o ls → ∀ e ∈ ls, e.call = look key := by
    rintro o _ ⟨⟨new, rfl, hnew⟩, -⟩
    exact hnew
  refine Action.throughout_bind (c.throughout_call _ []) (fun ls h => ⟨hcalls h, nofun⟩)
    (fun e ls h => ⟨hcalls h, nofun⟩) fun a ls h => ?_
  obtain ⟨us, now, found, reached, hls⟩ := h.heard _ rfl
  cases ha : a.records with
  | nil =>
    refine ⟨hcalls h, fun p hp => ⟨us, now, found, reached, a, hls, ?_⟩⟩
    cases hp
    rw [ha]
    rfl
  | cons r rs =>
    simp only
    cases hi : Info.ofBytes? r.value with
    | none => exact ⟨hcalls h, nofun⟩
    | some info =>
      refine ⟨hcalls h, fun p hp => ⟨us, now, found, reached, a, hls, ?_⟩⟩
      cases hp
      rw [ha]
      exact ⟨info, hi, rfl⟩

def Calling (key : String) (ls : List Line) : Prop :=
  ∃ looks rest, ls = looks ++ rest ∧ (∀ e ∈ looks, e.call = look key) ∧
    (rest = [] ∨ ∃ version, Told key version looks ∧ ∀ e ∈ rest, e.call.Within (Around key version))

theorem throughout_put (c : Client) (key : String) (size : Nat) {source : Source φ} (hsource : source.Quiet) :
    (put c key size source).run.Throughout Logs (fun _ => Calling key) [] := by
  rw [put_eq]
  refine Action.throughout_bind (throughout_pin? c key) (fun ls h => ?_) (fun _ ls h => ?_) fun p ls h => ?_
  · exact ⟨ls, [], (List.append_nil _).symm, h.1, .inl rfl⟩
  · exact ⟨ls, [], (List.append_nil _).symm, h.1, .inl rfl⟩
  · refine ((onlyCalls_putFrom c key size hsource _).throughout_asking ls
      ⟨[], (List.append_nil _).symm, List.forall_mem_nil _⟩).mono ?_
    rintro _ _ ⟨rest, rfl, hrest⟩
    exact ⟨ls, rest, rfl, h.1, .inr ⟨_, h.2 p rfl, hrest⟩⟩

/-- The line heard what is at the info key, and that was the version. -/
structure Finds (key : String) (version : Int) (e : Line) : Prop where
  call : e.call = look key
  answered : e.heard.isOk = true
  reached : e.reached = true
  found : VersionAt version ((e.found.expire e.now).current (Utf8.encode (infoKey key)))

/-- Until it has found a version a put changes nothing, and then only what is around this version. -/
def Advancing (key : String) (ls : List Line) : Prop :=
  ∃ looks rest, ls = looks ++ rest ∧ (∀ e ∈ looks, e.Touches fun _ => False) ∧
    (rest = [] ∨ ∃ version, (∃ e, looks.getLast? = some e ∧ Finds key version e) ∧
      ∀ e ∈ rest, e.Touches (Around key version))

theorem Told.finds {version : Int} {ls : List Line} (h : Told key version ls) (honest : ∀ e ∈ ls, e.Honest) :
    ∃ e, ls.getLast? = some e ∧ Finds key version e := by
  obtain ⟨us, now, found, reached, a, rfl, hversion⟩ := h
  have hline := honest _ (List.mem_append_right _ List.mem_cons_self)
  obtain ⟨hreached, ha⟩ := hline.answered a rfl
  refine ⟨_, List.getLast?_concat .., rfl, rfl, hreached, ?_⟩
  rwa [(Store.answer_range_single hline.sound ha).2, Option.head?_toList] at hversion

theorem Calling.advancing {ls : List Line} (h : Calling key ls) (honest : ∀ e ∈ ls, e.Honest) : Advancing key ls := by
  obtain ⟨looks, rest, rfl, hlooks, hrest⟩ := h
  obtain ⟨honestLooks, honestRest⟩ := List.forall_mem_append.1 honest
  refine ⟨looks, rest, rfl, fun e he => (honestLooks e he).touches (hlooks e he ▸ .range _ _), ?_⟩
  refine hrest.imp_right fun ⟨version, htold, hwithin⟩ => ⟨version, htold.finds honestLooks, fun e he => ?_⟩
  exact (honestRest e he).touches (hwithin e he)

/-! ## All operations -/

/-- What the operations on the value at a key do to the stores that their calls find, in runs from a backend. -/
structure Confined (key : String) (b : Backend) : Prop where
  put : ∀ (φ : Call → Type) (c : Client) (size : Nat) (source : Source φ), source.Quiet → ∀ p σ,
    Ledger.Reached b (put c key size source).run p σ → Advancing key σ.lines
  delete : ∀ (φ : Call → Type) (c : Client) (p : Prog Call.Answer φ (Outcome Unit)) σ,
    Ledger.Reached b (delete c key).run p σ → ∀ e ∈ σ.lines, e.Touches (Owns key)
  apart : ∀ other, Apart key other → ∀ (φ : Call → Type) (α : Type) (p₀ : Prog Call.Answer φ α), Operation key p₀ →
    ∀ p σ, Ledger.Reached b p₀ p σ → ∀ e ∈ σ.lines, Spares other (e.found.expire e.now) e.made

theorem touches_of_reached {α : Type} {b : Backend} (hb : b.Reached) {area : Bytes → Prop} {p₀ p : Prog Call.Answer φ α}
    {σ : Ledger} (h : Ledger.Reached b p₀ p σ) (hp : p₀.OnlyCalls (Call.Within area)) :
    ∀ e ∈ σ.lines, e.Touches area := by
  obtain ⟨new, hnew, hwithin⟩ :=
    (h.throughout (hp.throughout_asking [] ⟨[], rfl, List.forall_mem_nil _⟩)).now
  rw [List.nil_append] at hnew
  exact fun e he => (h.honest hb e he).touches (hwithin e (hnew ▸ he))

theorem confined_of_reached (key : String) {b : Backend} (hb : b.Reached) : Confined key b where
  put φ c size source hsource p σ h := (h.throughout (throughout_put c key size hsource)).now.advancing (h.honest hb)
  delete φ c p σ h := touches_of_reached hb h (onlyCalls_delete c key)
  apart other ha φ α p₀ hop p σ h e he := by
    have htouch := touches_of_reached hb h hop.within e he
    exact spares_of_leads (Store.leads_expire (h.honest hb e he).sound e.now).1 htouch.leads htouch.floor ha

/-- Operations on a chunked key write or delete only keys of its value, and leave what is at keys apart as it is. The
versions of a value have their keys apart as well. -/
theorem operations_confined {b : Backend} (hb : b.Reached) (key : String) : Confined key b ∧
    (∀ m n index : Int, m ≠ n →
      (Span.under (Utf8.encode (versionHead key m))).contains (Utf8.encode (chunkKey key n index)) = false) ∧
    ∀ tail ∈ ["-x", "2", "/info"], Apart key (key ++ tail) :=
  ⟨confined_of_reached key hb, fun m n index hne => by rw [contains_versionHead, decide_eq_false hne],
    Apart.siblings key⟩

/-- Puts at a key beside one that begins with it, and at one whose version is the last: the first one comes after. -/
theorem operations_confined_siblings :
    let value (key : String) (version : Int) (x : UInt8) : List (Nat × Move) :=
      [(0, .call (.put (Utf8.encode (infoKey key)) (Info.toBytes ⟨1, 1, version⟩) none)),
        (0, .call (.put (Utf8.encode (chunkKey key version 0)) [x] none))]
    let b := (Backend.ofMembers ["a"]).moves
      (value "k" 1 1 ++ value "k-x" 1 2 ++ value "l" 9223372036854775807 3)
    let c : Client := .ofConfig .standard
    let p₀ (key : String) : Prog Call.Answer (fun _ => Unit) (Outcome Info) := (put c key 1 (.bytes [4])).run
    let σ (key : String) := (Prog.steps Ledger.serve (List.replicate 4 ⟨0, ⟨0, 0⟩, .answered⟩) (p₀ key) ⟨b, []⟩).2
    b.Reached ∧ Advancing "k" (σ "k").lines ∧
      (∀ e ∈ (σ "k").lines, Spares "k-x" (e.found.expire e.now) e.made) ∧
      (σ "k").lines.length = 4 ∧ (σ "k").store.latest.keys.length = 6 ∧
      (Span.under (Utf8.encode (versionHead "k" 1))).contains (Utf8.encode (chunkKey "k" 10 0)) = false ∧
      Advancing "l" (σ "l").lines ∧
      (σ "l").store.latest.keys.filter (Span.under (Utf8.encode "l/")).contains =
        [Utf8.encode (chunkKey "l" (-9223372036854775808) 0), Utf8.encode (infoKey "l")] := by
  intro value b c p₀ σ
  have hb : b.Reached := Backend.moves_inv (fun now m h => .move h now m) _ (.ofMembers ["a"])
  obtain ⟨hk, hversions, hsiblings⟩ := operations_confined hb "k"
  have hl := (operations_confined hb "l").1
  have hrun : ∀ key, ∃ p, Ledger.Reached b (p₀ key) p (σ key) := fun key => ⟨_, .turns _ .start⟩
  obtain ⟨p, hp⟩ := hrun "k"
  obtain ⟨q, hq⟩ := hrun "l"
  have hsource : (Source.bytes [4] : Source fun _ => Unit).Quiet := trivial
  exact ⟨hb, hk.put _ c 1 _ hsource p _ hp,
    hk.apart _ (hsiblings "-x" (by decide)) _ _ _ (.put c 1 hsource) p _ hp,
    by decide +kernel, by decide +kernel, hversions 1 10 0 (by decide),
    hl.put _ c 1 _ hsource q _ hq, by decide +kernel⟩

end Chunked

end Keyspace
