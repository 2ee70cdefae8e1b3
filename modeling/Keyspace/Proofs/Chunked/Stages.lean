import Keyspace.Proofs.Chunked.Shelf

/-!
# The stages of a put

Which calls a put makes follows from what it has heard so far: it looks for the info record, clears what
lies at the next version, writes chunk after chunk and then turns to them. `Stage` is how far it has come
by what it has heard, whatever was done to the store meanwhile (`ensures_put_stages`).
-/

namespace Keyspace.Chunked

inductive Stage
  | looking
  /-- It heard of a version, or of none, which counts as 0. -/
  | clearing (version : Int)
  /-- It wrote so many chunks of the version after the one that it heard of. -/
  | writing (version : Int) (n : Nat)
  | turned (version : Int) (n : Nat)
  /-- A deletion that was not yet heard to have ended well. -/
  | removing
  | removed

/-- The version that an info record tells of. -/
def versionOf (info : Option Bytes) : Int := (info.bind Info.ofBytes?).elim 0 (·.version)

/-- The info record of the version after one. -/
def nextInfo (chunkSize size : Nat) (version : Int) : Info :=
  ⟨size, chunkCount size chunkSize, versionAfter version⟩

/-- The version after it is one more: versions are 64-bit numbers. -/
def Room (version : Int) : Prop := 0 ≤ version ∧ version + 1 < 9223372036854775808

theorem Room.versionAfter {version : Int} (h : Room version) : versionAfter version = version + 1 :=
  versionAfter_of_lt h.1 h.2

theorem Room.fits {chunkSize size : Nat} {version : Int} (h : Room version) (hc : 0 < chunkSize)
    (hsize : size < 9223372036854775808) : (nextInfo chunkSize size version).Fits := by
  rw [nextInfo, h.versionAfter]
  exact Live.Fits.info (l := ⟨version + 1, chunkSize, size, []⟩) ⟨hc, hsize, Int.lt_add_one_of_le h.1, h.2⟩

namespace Stage

/-- A stage stays until a call of it ends well. -/
def hear : (st : Stage) → (c : Call) → Outcome c.Answer → Stage
  | looking, .range _ _, .ok a => clearing (versionOf (a.records.head?.map (·.value)))
  | clearing version, .deleteRange _, .ok _ => writing version 0
  | writing version n, .put .., .ok _ => writing version (n + 1)
  | writing version n, .txn _, .ok _ => turned version n
  | removing, .txn _, .ok _ => removed
  | st, _, _ => st

theorem hear_error (st : Stage) (c : Call) (f : Failure) : st.hear c (.error f) = st := by
  cases st <;> cases c <;> rfl

theorem hear_removing (t : Txn) (r : Outcome TxnAnswer) :
    removing.hear (.txn t) r = removing ∨ removing.hear (.txn t) r = removed := by
  cases r with
  | ok a => exact .inr rfl
  | error f => exact .inl rfl

end Stage

/-- The calls of each stage. A put that writes may also read, from the source that it is given. -/
inductive Calls (R : Int) (key : String) (chunkSize size : Nat) : Stage → Call → Prop
  | look : Calls R key chunkSize size .looking (.range (.single (Utf8.encode (infoKey key))) none)
  | clear (version : Int) : Calls R key chunkSize size (.clearing version)
    (.deleteRange (.under (Utf8.encode (versionHead key (versionAfter version)))))
  | source (version : Int) (n : Nat) (span : Span) :
    Calls R key chunkSize size (.writing version n) (.range span (some R))
  | chunk (version : Int) (n : Nat) (h : n < chunkCount size chunkSize) (b : Bytes) :
    Calls R key chunkSize size (.writing version n) (.put (Utf8.encode (chunkKey key (versionAfter version) n)) b none)
  | turn (version : Int) : Calls R key chunkSize size (.writing version (chunkCount size chunkSize))
    (.txn (commitTxn key (nextInfo chunkSize size version) version))
  | remove : Calls R key chunkSize size .removing (.txn (deleteTxn key))

def stages (R : Int) (v : SortedMap Bytes Record) (key : String) (chunkSize size : Nat) : Setting Stage where
  may := Calls R key chunkSize size
  serves c st r st' := Hears R v c r ∧ st' = st.hear c r
  others st st' := st' = st
  refl _ := rfl
  trans h h' := h'.trans h

/-- What is to be shown of a call at a stage: that its effect on the shelf is fine unheard and heard. -/
theorem Kept.hear {key : String} {b : Backend} {c : Call} {ops : List Op} {P : Stage → Shelf → Prop} {st : Stage}
    (h : Kept key b.store) (hc : Does key c ops) (t : Turn) (hstay : P st (shelf key b.store))
    (hunheard : P st ((shelf key b.store).applyAll ops))
    (hheard : ∀ a, (b.serve t c).1 = .ok a → P (st.hear c (.ok a)) ((shelf key b.store).applyAll ops)) :
    Kept key (b.serve t c).2.store ∧ P (st.hear c (b.serve t c).1) (shelf key (b.serve t c).2.store) := by
  obtain ⟨hk, hf⟩ := h.serve hc t
  refine ⟨hk, ?_⟩
  rw [hf]
  cases hr : (b.serve t c).1 with
  | error e =>
    rw [st.hear_error]
    split
    · exact hunheard
    · exact hstay
  | ok a =>
    rw [if_pos (Backend.takes_of_ok hr).1]
    exact hheard a hr

section
variable {φ : Call → Type} {R : Int} {v : SortedMap Bytes Record} {c : Client} {key : String} {size : Nat}

theorem ensures_call_stages {chunkSize : Nat} {st : Stage} {i : Call} (h : Calls R key chunkSize size st i) :
    (c.call i : Action Call.Answer φ i.Answer).run.Ensures (stages R v key chunkSize size)
      (fun r st' => st' = st.hear i r) st := by
  refine Prog.Ensures.runWith (Γ := stages R v key chunkSize size) (P := fun s => s = st)
    (Q := fun r st' => st' = st.hear i r) (fun h ho => Eq.trans ho h) (fun h ho => Eq.trans ho h)
    (fun hs => hs ▸ h) ?_ c.policy.retries rfl
  rintro s r s' rfl ⟨_, rfl⟩
  exact ⟨rfl, fun f hf => hf ▸ s.hear_error i f⟩

theorem ensures_pin?_stages {chunkSize : Nat} :
    (pin? c key : Action Call.Answer φ (Option Pin)).run.Ensures (stages R v key chunkSize size)
      (fun x st => ∀ p, x = .ok p → st = .clearing (p.elim 0 (·.info.version))) .looking := by
  refine Action.ensures_ok (fun _ _ _ h => by cases h) (ensures_call_stages .look) ?_
  rintro a _ rfl
  show Prog.Ensures _ _ _ (Stage.clearing (versionOf (a.records.head?.map (·.value))))
  cases a.records with
  | nil =>
    rintro _ rfl p hp
    cases hp
    rfl
  | cons r rs =>
    simp only
    cases hi : Info.ofBytes? r.value with
    | none => exact fun _ _ p hp => by cases hp
    | some info =>
      rintro _ rfl p hp
      cases hp
      rw [List.head?_cons, Option.map_some, versionOf, Option.bind_some, hi]
      rfl

variable (hv : ∀ k r, v.get? k = some r → r.createRevision ≠ 0)
include hv

theorem ensures_writeChunks_stages {content : Bytes} (version : Int) : ∀ (left index : Nat) {s : Source φ},
    s.Stands R v content size c.config.chunkSize index left →
      (writeChunks c key (versionAfter version) size left index s).run.Ensures (stages R v key c.config.chunkSize size)
        (fun x st => x = .ok () → st = .writing version (chunkCount size c.config.chunkSize))
        (.writing version index) := by
  intro left
  induction left with
  | zero =>
    intro index s h
    have hcount : index = _ := h.count
    rintro _ rfl _
    rw [← hcount]
  | succ left ih =>
    intro index s h
    have hcount := h.count
    refine Action.ensures_bind (Q := fun x st => st = .writing version index ∧
      x.2.Stands R v content size c.config.chunkSize (index + 1) left) (fun _ _ h => by cases h) ?_ ?_
    · refine ((h.ensures_take hv).pinned (P := fun st => st = .writing version index)
        (fun h ho => Eq.trans ho h) ?_ rfl).mono ?_
      · rintro _ i rfl hl
        cases i with
        | range span revision =>
          cases hl
          refine ⟨.source version index span, ?_⟩
          rintro r _ ⟨hr, rfl⟩
          exact ⟨hr, rfl⟩
        | _ => exact hl.elim
      · rintro x st ⟨rfl, hx⟩
        cases x with
        | error f => exact fun h => by cases h
        | ok x => exact ⟨rfl, (hx x.1 x.2 rfl).2⟩
    · rintro ⟨b, s'⟩ _ ⟨rfl, hs'⟩
      refine Action.ensures_ok (fun _ _ h => by cases h)
        (ensures_call_stages (.chunk version index (by omega) b)) ?_
      rintro a _ rfl
      exact ih (index + 1) hs'

/-- A put ends well only when it has turned to the version after the one that it heard of. -/
theorem ensures_put_stages {s : Source φ} (hs : s.Reads R v) :
    (put c key size s).run.Ensures (stages R v key c.config.chunkSize size)
      (fun x st => ∀ info, x = .ok info →
        ∃ version, st = .turned version (chunkCount size c.config.chunkSize) ∧
          info = nextInfo c.config.chunkSize size version) .looking := by
  refine Action.ensures_ok (fun _ _ _ h => by cases h) ensures_pin?_stages fun p st hp => ?_
  obtain rfl := hp p rfl
  generalize p.elim 0 (·.info.version) = version
  refine Action.ensures_ok (Q := fun x st => x = .ok () → st = .writing version 0) (fun _ _ _ h => by cases h) ?_ ?_
  · refine Action.ensures_ok (fun _ _ h => by cases h) (ensures_call_stages (.clear version)) ?_
    rintro a _ rfl _ rfl _
    rfl
  · rintro _ st hst
    obtain rfl := hst rfl
    refine Action.ensures_ok (fun _ _ _ h => by cases h)
      (ensures_writeChunks_stages hv version _ 0 (hs.stands size _)) ?_
    rintro _ st hst
    obtain rfl := hst rfl
    refine Action.ensures_ok (fun _ _ _ h => by cases h) (ensures_call_stages (.turn version)) ?_
    rintro a _ rfl
    split
    · exact fun _ _ info h => by cases h
    · rintro _ rfl info h
      cases h
      exact ⟨version, rfl, rfl⟩

omit hv

theorem ensures_delete_stages {chunkSize : Nat} :
    (delete c key : Action Call.Answer φ Unit).run.Ensures (stages R v key chunkSize size)
      (fun x st => x = .ok () → st = .removed) .removing := by
  refine Action.ensures_ok (fun _ _ h => by cases h) (ensures_call_stages .remove) ?_
  rintro a _ rfl _ rfl _
  rfl

end

end Keyspace.Chunked
