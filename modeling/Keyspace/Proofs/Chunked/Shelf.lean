import Keyspace.Proofs.Chunked.Writing
import Keyspace.Proofs.Store.Transaction

/-!
# What lies at the keys of a value

The shelf of a key is its info record and its chunks, as they lie in the store, with nothing else. A call
of a put or of a deletion does to the shelf what its operations say, or nothing (`Kept.serve`); what
others do elsewhere is not seen on it (`Kept.shelf_leads`).
-/

namespace Keyspace.Chunked

variable {key : String} {s s' : Store}

instance (key : String) : DecidablePred (Owns key) := fun _ => inferInstanceAs (Decidable (_ ∨ _))

abbrev Shelf := Bytes → Option Bytes

def shelf (key : String) (s : Store) : Shelf := fun k => if Owns key k then (s.current k).map (·.value) else none

theorem shelf_of_owns {k : Bytes} (h : Owns key k) : shelf key s k = (s.current k).map (·.value) := if_pos h

/-! ## Operations -/

/-- Puts at the keys of the value only, and binds nothing to a lease. -/
def Op.Own (key : String) : Op → Prop
  | .put k _ lease => Owns key k ∧ lease = none
  | .delete _ => True

def Shelf.apply (f : Shelf) : Op → Shelf
  | .put key value _ => fun k => if key = k then some value else f k
  | .delete span => fun k => if span.contains k then none else f k

def Shelf.applyAll (f : Shelf) (ops : List Op) : Shelf := ops.foldl Shelf.apply f

theorem shelf_apply {op : Op} (h : Op.Own key op) (e : Edit) :
    shelf key (e.apply op).store = (shelf key e.store).apply op := by
  funext k
  cases op with
  | put a value lease =>
    show (if Owns key k then ((e.put a value lease).store.current k).map (·.value) else none) =
      if a = k then some value else shelf key e.store k
    rw [Edit.current_put]
    by_cases hk : a = k
    · rw [if_pos hk, if_pos hk, if_pos (hk ▸ h.1)]
      rfl
    · rw [if_neg hk, if_neg hk]
      rfl
  | delete span =>
    show (if Owns key k then ((e.delete span).store.current k).map (·.value) else none) =
      if span.contains k then none else shelf key e.store k
    rw [Edit.current_delete]
    cases span.contains k with
    | true => exact ite_self none
    | false => rfl

theorem Unleased.apply {e : Edit} (hu : Unleased key e.store) {op : Op} (h : Op.Own key op) :
    Unleased key (e.apply op).store := by
  intro k hk r hr
  cases op with
  | put a value lease =>
    have hr : (e.put a value lease).store.current k = some r := hr
    rw [Edit.current_put] at hr
    split at hr
    · cases hr
      show lease.getD 0 = 0
      rw [h.2]
      rfl
    · exact hu k hk r hr
  | delete span =>
    have hr : (e.delete span).store.current k = some r := hr
    rw [Edit.current_delete] at hr
    split at hr
    · cases hr
    · exact hu k hk r hr

theorem shelf_applyAll {ops : List Op} (h : ∀ op ∈ ops, Op.Own key op) : ∀ {e : Edit}, Unleased key e.store →
    shelf key (e.applyAll ops).store = (shelf key e.store).applyAll ops ∧
      Unleased key (e.applyAll ops).store := by
  induction ops with
  | nil => exact fun hu => ⟨rfl, hu⟩
  | cons op ops ih =>
    intro e hu
    have ho := h op List.mem_cons_self
    obtain ⟨hs, hu'⟩ := ih (fun o ho => h o (List.mem_cons_of_mem _ ho)) (hu.apply ho)
    exact ⟨hs.trans (congrArg (Shelf.applyAll · ops) (shelf_apply ho e)), hu'⟩

/-! ## What is cleared, written and removed -/

namespace Shelf

variable (f : Shelf) {version m i j : Int}

theorem info_of_clear (m : Int) : f.apply (.delete (.under (Utf8.encode (versionHead key m))))
    (Utf8.encode (infoKey key)) = f (Utf8.encode (infoKey key)) := if_neg (Bool.eq_false_iff.1 (under_infoKey m))

theorem chunk_of_clear (h : m ≠ version) (i : Int) : f.apply (.delete (.under (Utf8.encode (versionHead key m))))
    (Utf8.encode (chunkKey key version i)) = f (Utf8.encode (chunkKey key version i)) :=
  if_neg (Bool.eq_false_iff.1 (under_chunkKey h i))

theorem info_of_chunk (m i : Int) (b : Bytes) : f.apply (.put (Utf8.encode (chunkKey key m i)) b none)
    (Utf8.encode (infoKey key)) = f (Utf8.encode (infoKey key)) := if_neg (chunkKey_ne_infoKey m i)

theorem chunk_of_chunk (h : m ≠ version ∨ i ≠ j) (b : Bytes) :
    f.apply (.put (Utf8.encode (chunkKey key m i)) b none) (Utf8.encode (chunkKey key version j)) =
      f (Utf8.encode (chunkKey key version j)) := by
  refine if_neg fun he => ?_
  have hm := version_eq_of_chunkKey_eq he
  subst hm
  exact h.elim (fun h => h rfl) fun h => h (index_eq_of_chunkKey_eq he)

theorem info_of_turn (info : Info) (previous : Int) :
    f.applyAll (commitTxn key info previous).success (Utf8.encode (infoKey key)) = some info.toBytes :=
  (info_of_clear _ previous).trans (if_pos rfl)

theorem none_of_remove {k : Bytes} (hk : Owns key k) : f.applyAll (deleteTxn key).success k = none := by
  show (if (Span.under (Utf8.encode (chunksHead key))).contains k then none
    else if (Span.single (Utf8.encode (infoKey key))).contains k then none else f k) = none
  rcases hk with rfl | hk
  · split
    · rfl
    · exact if_pos (decide_eq_true rfl)
  · exact if_pos ((Span.contains_under _ _).2 hk)

end Shelf

/-! ## Stores that hold a value -/

namespace Kept

theorem shelf_leads (hl : s.Leads (Foreign key) s') : shelf key s' = shelf key s := by
  funext k
  by_cases hk : Owns key k
  · rw [shelf_of_owns hk, shelf_of_owns hk, current_leads hl hk]
  · exact (if_neg hk).trans (if_neg hk).symm

theorem commit (h : Kept key s) {ops : List Op} (ho : ∀ op ∈ ops, Op.Own key op) :
    Kept key (s.commit ops) ∧ shelf key (s.commit ops) = (shelf key s).applyAll ops := by
  obtain ⟨hs, hu⟩ := shelf_applyAll ho (e := Edit.start s) h.unleased
  have hc := Store.current_commit s ops
  refine ⟨⟨(Store.leads_commit h.sound ops).1, fun k hk r hr => hu k hk r (hc k ▸ hr)⟩, ?_⟩
  rw [← show shelf key (Edit.start s).store = shelf key s from rfl, ← hs]
  funext k
  unfold shelf
  rw [hc]

end Kept

/-! ## Calls -/

/-- What calls of puts and deletions commit. -/
inductive Does (key : String) : Call → List Op → Prop
  | range (span : Span) (revision : Option Int) : Does key (.range span revision) []
  | put {k : Bytes} (h : Owns key k) (b : Bytes) : Does key (.put k b none) [.put k b none]
  | deleteRange (span : Span) : Does key (.deleteRange span) [.delete span]
  | txn {ops : List Op} (h : ∀ op ∈ ops, Op.Own key op) : Does key (.txn (.always ops)) ops

namespace Does

variable {c : Call} {ops : List Op}

theorem turn (key : String) (info : Info) (previous : Int) :
    Does key (.txn (commitTxn key info previous)) (commitTxn key info previous).success := by
  refine .txn fun op ho => ?_
  rcases List.mem_cons.1 ho with rfl | ho
  · exact ⟨owns_infoKey, rfl⟩
  · cases List.mem_singleton.1 ho
    trivial

theorem remove (key : String) : Does key (.txn (deleteTxn key)) (deleteTxn key).success := by
  refine .txn fun op ho => ?_
  rcases List.mem_cons.1 ho with rfl | ho
  · trivial
  · cases List.mem_singleton.1 ho
    trivial

theorem own (h : Does key c ops) : ∀ op ∈ ops, Op.Own key op := by
  intro op ho
  cases h with
  | range => cases ho
  | put hk b =>
    cases List.mem_singleton.1 ho
    exact ⟨hk, rfl⟩
  | deleteRange span =>
    cases List.mem_singleton.1 ho
    trivial
  | txn h => exact h op ho

theorem missingLease?_eq_none {ops : List Op} (h : ∀ op ∈ ops, Op.Own key op) (s : Store) :
    s.missingLease? ops = none := by
  cases hm : s.missingLease? ops with
  | none => rfl
  | some l =>
    obtain ⟨op, ho, _, _, a, value, rfl⟩ := Store.missingLease?_eq_some hm
    cases (h _ ho).2

/-- Such a call does not fail in the store, unless it is a read. -/
theorem answer (h : Does key c ops) (s : Store) (now : Nat) :
    (s.answer now c).2 = (s.expire now).commit ops ∧ ((s.answer now c).1.isOk = false → ops = []) := by
  cases h with
  | range span revision => exact ⟨rfl, fun _ => rfl⟩
  | put hk b => exact ⟨rfl, fun h => nomatch h⟩
  | deleteRange span => exact ⟨rfl, fun h => nomatch h⟩
  | txn h =>
    rw [Store.answer_txn, Store.chosen_always, missingLease?_eq_none h]
    exact ⟨rfl, fun h => nomatch h⟩

end Does

namespace Kept

variable {b : Backend} {c : Call} {ops : List Op}

/-- A call that takes effect does to the shelf what it is for, and another leaves it as it is. -/
theorem serve (h : Kept key b.store) (hc : Does key c ops) (t : Turn) :
    Kept key (b.serve t c).2.store ∧ shelf key (b.serve t c).2.store =
      if b.takes t c then (shelf key b.store).applyAll ops else shelf key b.store := by
  rcases b.store_serve t c with ⟨hs, ht⟩ | ⟨hs, ht⟩
  · rw [hs, ht]
    exact ⟨h, rfl⟩
  · have hx := h.leads_expire t.now
    obtain ⟨ha, hok⟩ := hc.answer b.store t.now
    obtain ⟨hk, hf⟩ := (h.leads hx).commit hc.own
    rw [hs, ht, ha, hf, shelf_leads hx]
    refine ⟨hk, ?_⟩
    cases hr : (b.store.answer t.now c).1.isOk with
    | true => rfl
    | false =>
      rw [hok hr]
      rfl

/-- A read of the info record hears of what is on the shelf. -/
theorem heard (h : Kept key b.store) {t : Turn} {a : RangeAnswer}
    (ha : (b.serve t (.range (.single (Utf8.encode (infoKey key))) none)).1 = .ok a) :
    (a.records.head?).map (·.value) = shelf key b.store (Utf8.encode (infoKey key)) := by
  obtain ⟨_, hrec⟩ := Store.answer_range_single h.sound (Backend.takes_of_ok ha).2
  rw [hrec, ← shelf_leads (h.leads_expire t.now), shelf_of_owns owns_infoKey]
  cases (b.store.expire t.now).current (Utf8.encode (infoKey key)) <;> rfl

end Kept

end Keyspace.Chunked
