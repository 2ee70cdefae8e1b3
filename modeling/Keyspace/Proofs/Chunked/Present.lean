import Keyspace.Proofs.Chunked.Mixed

/-!
# Readers that miss nothing

A reader whose chunks are all there at the revision that it is pinned to never finds one missing, in
whichever ways it is read and whatever others do (`Mixed.never_missing`): it fails only as its calls do.
-/

namespace Keyspace

/-- Some chunk was not there. -/
def Failure.Missing (f : Failure) : Prop := ∃ key revision, f = .chunkMissing key revision

def Misses {α : Type} (x : Outcome α) : Prop := ∃ f : Failure, x = .error f ∧ f.Missing

theorem not_misses_ok {α : Type} (a : α) : ¬ Misses (.ok a) := fun ⟨_, h, _⟩ => by cases h

theorem misses_error_iff {α : Type} {f : Failure} : Misses (.error f : Outcome α) ↔ f.Missing :=
  ⟨fun ⟨_, h, hm⟩ => by cases h; exact hm, fun h => ⟨f, rfl, h⟩⟩

/-- A failure is passed on. -/
theorem Misses.of_error {α β : Type} {f : Failure} (h : Misses (.error f : Outcome α)) :
    Misses (.error f : Outcome β) := misses_error_iff.2 (misses_error_iff.1 h)

theorem misses_map_iff {α β : Type} {g : α → β} {x : Outcome α} : Misses (x.map g) ↔ Misses x := by
  cases x with
  | ok a => exact ⟨fun h => absurd h (not_misses_ok _), fun h => absurd h (not_misses_ok _)⟩
  | error f => exact misses_error_iff.trans misses_error_iff.symm

/-! ## Reads that are answered -/

variable {R : Int} {v : SortedMap Bytes Record}

/-- The setting of programs that read at `R`, in which no call fails for a missing chunk. -/
def answering (R : Int) (v : SortedMap Bytes Record) : Setting Unit where
  may _ c := c.Looks R
  serves c _ r _ := Hears R v c r ∧ ¬ Misses r
  others _ _ := True
  refl _ := trivial
  trans _ _ := trivial

def Fate.Misses : Fate → Prop
  | .answered => False
  | .unheard f | .lost f => f.Missing

theorem Store.not_misses_readRevision (s : Store) (revision : Option Int) :
    ¬ Keyspace.Misses (s.readRevision revision) := by
  rintro ⟨f, h, _, _, rfl⟩
  unfold readRevision at h
  repeat' split at h
  all_goals cases h

/-- A store knows of no chunks. -/
theorem Store.not_misses_answer (s : Store) (now : Nat) (c : Call) : ¬ Keyspace.Misses (s.answer now c).1 := by
  cases c with
  | range span revision =>
    exact fun h => (s.expire now).not_misses_readRevision revision (misses_map_iff.1 (misses_map_iff.1 h))
  | _ =>
    rintro ⟨f, h, _, _, rfl⟩
    simp only [answer, endpointStatus] at h
    repeat' split at h
    all_goals cases h
    -- what a part of the call failed with
    all_goals
      rename_i h
      simp only [commit?, moveLeader] at h
      repeat' split at h
      all_goals cases h

theorem Backend.not_misses_serve {b : Backend} {t : Turn} (ht : ¬ t.fate.Misses) (c : Call) :
    ¬ Keyspace.Misses (b.serve t c).1 := by
  unfold serve
  cases hf : t.fate with
  | answered =>
    rcases b.answer_cases t.now c with ⟨⟨k, hk⟩, _⟩ | ⟨hr, _⟩
    · simp only [hk, misses_error_iff]
      rintro ⟨_, _, h⟩
      cases k <;> cases h
    · simp only [hr]
      exact b.store.not_misses_answer t.now c
  | unheard f | lost f =>
    rw [hf] at ht
    exact fun h => ht (misses_error_iff.1 h)

theorem Client.ensures_get_answering {φ : Call → Type} (hv : ∀ k r, v.get? k = some r → r.createRevision ≠ 0)
    (c : Client) {key : String} {r : Record} (hr : v.get? (Utf8.encode key) = some r) :
    (c.get key (some R) : Action Call.Answer φ (Option Entry)).run.Ensures (answering R v)
      (fun x _ => ¬ Misses x ∧ ∀ e, x = .ok e → e = some (Entry.ofRecord r)) () := by
  refine Action.ensures_bind (Q := fun a _ => a.records = [r]) (fun h _ => h) ?_ fun a _ ha => ?_
  · refine (Prog.Ensures.runWith (Γ := answering R v) (i := .range (.single (Utf8.encode key)) (some R))
      (P := fun _ => True) (Q := fun r _ => Hears R v _ r ∧ ¬ Misses r) (fun _ _ => trivial) (fun h _ => h)
      (fun _ => rfl) (fun _ h => ⟨h, fun _ _ => trivial⟩) c.policy.retries trivial).mono ?_
    rintro x _ ⟨hx, hn⟩
    cases x with
    | error f => exact ⟨fun h => hn h.of_error, fun e he => by cases he⟩
    | ok a =>
      refine (hx rfl).trans ((SortedMap.values_filter_single v _).trans ?_)
      rw [hr]
      rfl
  · refine fun _ _ => ⟨not_misses_ok _, fun e he => ?_⟩
    cases he
    rw [ha]
    simp [hv _ r hr]

namespace Chunked

variable {φ : Call → Type}

namespace Reader

/-- All chunks from the next one on are there in the view that the reader is pinned to, and a fetch that it
may have begun fails only as its calls do. -/
structure Provided (R : Int) (v : SortedMap Bytes Record) (r : Reader φ) : Prop where
  pin : r.pin.revision = R
  present : ∀ i, r.next ≤ i → i < r.pin.info.count → (chunk? v r.key r.pin.info.version i).isSome
  pending : ∀ p, r.pending = some p → p.Ensures (answering R v) (fun x _ => ¬ Misses x) ()

namespace Provided

variable {r : Reader φ}

theorem setBuffer (h : r.Provided R v) (b : Bytes) : Provided R v { r with buffer := b } :=
  ⟨h.pin, h.present, h.pending⟩

theorem forget (h : r.Provided R v) : Provided (φ := φ) R v { r with pending := none } :=
  ⟨h.pin, h.present, fun p hp => by cases hp⟩

theorem fetched (h : r.Provided R v) : r.fetched.Provided R v :=
  ⟨h.pin, fun i hi => h.present i (by have : r.next + 1 ≤ i := hi; omega), fun p hp => by cases hp⟩

section
variable (hv : ∀ k r, v.get? k = some r → r.createRevision ≠ 0)
include hv

theorem ensures_fetchOrPending (h : r.Provided R v) (he : r.isAtEnd = false) :
    r.fetchOrPending.Ensures (answering R v) (fun x _ => ¬ Misses x) () := by
  unfold fetchOrPending
  cases hp : r.pending with
  | some p => exact h.pending p hp
  | none =>
    have hn := of_decide_eq_false he
    obtain ⟨x, hx, _⟩ := Option.map_eq_some_iff.1
      (Option.isSome_iff_exists.1 (h.present r.next (Int.le_refl _) (by omega))).choose_spec
    have hget := Client.ensures_get_answering (φ := φ) (R := R) hv r.client hx
    rw [← h.pin] at hget ⊢
    refine Action.ensures_bind (Q := fun e _ => e = some (Entry.ofRecord x)) (fun h _ => h) (hget.mono ?_) ?_
    · rintro y _ ⟨hn, hy⟩
      cases y with
      | error f => exact fun h => hn h.of_error
      | ok e => exact hy e rfl
    · rintro e _ rfl
      exact fun _ _ => not_misses_ok _

theorem ensures_nextChunk (h : r.Provided R v) :
    r.nextChunk.Ensures (answering R v) (fun x _ => ¬ Misses x.1 ∧ x.2.Provided R v) () := by
  unfold nextChunk
  cases he : r.isAtEnd with
  | true => exact fun _ _ => ⟨not_misses_ok _, h⟩
  | false =>
    apply (h.ensures_fetchOrPending hv he).bind
    intro x _ hx
    cases x with
    | ok b => exact fun _ _ => ⟨not_misses_ok _, h.fetched⟩
    | error f => exact fun _ _ => ⟨fun hm => hx hm.of_error, h.forget⟩

theorem ensures_fill : ∀ (k : Nat) {r : Reader φ}, r.Provided R v →
    (fill k r).Ensures (answering R v) (fun x _ => ¬ Misses x.1 ∧ x.2.Provided R v) () := by
  intro k
  induction k with
  | zero => exact fun h _ _ => ⟨not_misses_ok _, h⟩
  | succ k ih =>
    intro r h
    unfold fill
    split
    · apply (h.ensures_nextChunk hv).bind
      rintro ⟨x, r'⟩ _ ⟨hx, hr⟩
      cases x with
      | error f => exact fun _ _ => ⟨fun hm => hx hm.of_error, hr⟩
      | ok c =>
        cases c with
        | none => exact fun _ _ => ⟨not_misses_ok _, hr⟩
        | some b => exact ih (hr.setBuffer b)
    · exact fun _ _ => ⟨not_misses_ok _, h⟩

theorem ensures_read (h : r.Provided R v) (n : Nat) :
    (read n r).Ensures (answering R v) (fun x _ => ¬ Misses x.1 ∧ x.2.Provided R v) () := by
  unfold read
  split
  · exact fun _ _ => ⟨not_misses_ok _, h⟩
  · apply (ensures_fill hv (r.left + 1) h).bind
    rintro ⟨x, r'⟩ _ ⟨hx, hr⟩
    cases x with
    | error f => exact fun _ _ => ⟨fun hm => hx hm.of_error, hr⟩
    | ok more => exact fun _ _ => ⟨not_misses_ok _, hr.setBuffer _⟩

theorem ensures_chunks : ∀ (k : Nat) {r : Reader φ}, r.Provided R v →
    (chunks k r).Ensures (answering R v) (fun x _ => ¬ Misses x) () := by
  intro k
  induction k with
  | zero => exact fun _ _ _ => not_misses_ok _
  | succ k ih =>
    intro r h
    unfold chunks
    apply (h.ensures_nextChunk hv).bind
    rintro ⟨x, r'⟩ _ ⟨hx, hr⟩
    cases x with
    | error f => exact fun _ _ hm => hx hm.of_error
    | ok c =>
      cases c with
      | none => exact fun _ _ => not_misses_ok _
      | some b => exact (ih hr).bind fun y _ hy _ _ hm => hy (misses_map_iff.1 hm)

theorem ensures_rest (h : r.Provided R v) :
    r.rest.Ensures (answering R v) (fun x _ => ¬ Misses x) () :=
  (ensures_chunks hv (r.left + 1) h).bind fun _ _ hx _ _ hm => hx (misses_map_iff.1 hm)

theorem poll_spec {W : Type} {h : Env Call.Answer φ W} {I : W → Prop} (hh : h.ServesIn (answering R v) I)
    (n : Nat) : ∀ (k : Nat) {r : Reader φ} {w : W}, r.Provided R v → I w →
      (∀ f, (poll h n k r w).1 = .failed f → ¬ f.Missing) ∧ (poll h n k r w).2.1.Provided R v ∧
        I (poll h n k r w).2.2 := by
  intro k
  induction k with
  | zero => exact fun hr hw => ⟨fun f hf => (by cases hf), hr, hw⟩
  | succ k ih =>
    intro r w hr hw
    unfold poll
    split
    · exact ⟨fun f hf => (by cases hf), hr.setBuffer _, hw⟩
    · cases he : r.isAtEnd with
      | true => exact ⟨fun f hf => (by cases hf), hr, hw⟩
      | false =>
        obtain ⟨hp, hI⟩ := Prog.Ensures.advance_in hh r.fetchOrPending hw (hr.ensures_fetchOrPending hv he)
        simp only [Bool.false_eq_true, if_false]
        split
        · rename_i b w' hx
          rw [hx] at hI
          exact ih (hr.fetched.setBuffer b) hI
        · rename_i f w' hx
          rw [hx] at hp hI
          refine ⟨fun g hg => ?_, hr.forget, hI⟩
          cases hg
          exact fun hm => hp () trivial (misses_error_iff.2 hm)
        · rename_i p w' _ _ hx
          rw [hx] at hp hI
          refine ⟨fun f hf => (by cases hf), ⟨hr.pin, hr.present, fun q hq => ?_⟩, hI⟩
          cases hq
          exact hp

end

end Provided

end Reader

/-! ## Runs -/

namespace Mixed

theorem Ask.ensures_provided (hv : ∀ k r, v.get? k = some r → r.createRevision ≠ 0) {r : Reader Flight}
    (h : r.Provided R v) (a : Ask) : (a.prog r).Ensures (answering R v)
      (fun x _ => ¬ Misses x.1 ∧ ∀ r', x.2 = some r' → r'.Provided R v) () := by
  cases a with
  | read n =>
    refine (h.ensures_read hv n).bind fun x _ hx _ _ => ⟨fun hm => hx.1 (misses_map_iff.1 hm), fun r' hr => ?_⟩
    cases hr
    exact hx.2
  | chunk =>
    refine (h.ensures_nextChunk hv).bind fun x _ hx _ _ => ⟨fun hm => hx.1 (misses_map_iff.1 hm), fun r' hr => ?_⟩
    cases hr
    exact hx.2
  | rest =>
    exact (h.ensures_rest hv).bind fun x _ hx _ _ => ⟨fun hm => hx (misses_map_iff.1 hm), fun r' hr => by cases hr⟩

/-- A call of the event is made to fail for a missing chunk. -/
def Event.Misses : Event → Prop
  | .turn t => t.fate.Misses
  | .poll _ _ _ plan => ∃ p ∈ plan, ∃ fate, p.2 = some fate ∧ fate.Misses
  | _ => False

def Job.Provided (R : Int) (v : SortedMap Bytes Record) : Job → Prop
  | .idle r => r.Provided R v
  | .busy p => p.Ensures (answering R v) (fun x _ => ¬ Misses x.1 ∧ ∀ r, x.2 = some r → r.Provided R v) ()
  | .ended => True

theorem servesIn_answering : Arena.env.ServesIn (answering R v) fun a =>
    Holds R v a.backend ∧ ∀ p ∈ a.plan, ∀ fate, p.2 = some fate → ¬ fate.Misses where
  start h := h
  poll {i c w} h := by
    refine ⟨Arena.hearsIn.poll (i := i) (c := c) h.1, fun p hp => h.2 p ?_⟩
    have hp : p ∈ (w.poll i).2.plan := hp
    unfold Arena.poll at hp
    split at hp
    · exact hp
    all_goals
      rename_i hplan
      rw [hplan]
      exact List.mem_cons_of_mem _ hp
  serves {i c w r} h hr := by
    refine ⟨Arena.hearsIn.hears h.1 hr, ?_⟩
    have hr : (w.poll i).1 = .inr r := hr
    unfold Arena.poll at hr
    split at hr
    · cases hr
    · cases hr
    · rename_i moves fate plan hp
      cases hr
      exact Backend.not_misses_serve (h.2 _ (hp ▸ List.mem_cons_self) fate rfl) i

section
variable (hv : ∀ k r, v.get? k = some r → r.createRevision ≠ 0)
include hv

theorem Desk.next_provided {d : Desk} (hh : Holds R v d.backend) (h : d.job.Provided R v) {e : Event}
    (he : ¬ e.Misses) : Holds R v (d.next e).1.backend ∧ (d.next e).1.job.Provided R v ∧
      ∀ x, (d.next e).2 = some x → ¬ Misses x := by
  obtain ⟨b, job⟩ := d
  have stay : Holds R v b ∧ job.Provided R v ∧ ∀ x : Outcome Got, none = some x → ¬ Misses x :=
    ⟨hh, h, fun x hx => by cases hx⟩
  cases e with
  | other now m => exact ⟨hh.move now m, h, fun x hx => by cases hx⟩
  | ask a =>
    cases job with
    | idle r => exact ⟨hh, a.ensures_provided hv h, fun x hx => by cases hx⟩
    | _ => exact stay
  | poll n now today plan =>
    cases job with
    | idle r =>
      obtain ⟨hf, hr, hI⟩ := Reader.Provided.poll_spec hv servesIn_answering n (r.left + 1)
        (w := ⟨b, now, today, plan⟩) h ⟨hh, fun p hp fate hfate hm => he ⟨p, hp, fate, hfate, hm⟩⟩
      refine ⟨hI.1, hr, fun x hx => ?_⟩
      have hx : polled? n (Reader.poll Arena.env n (r.left + 1) r ⟨b, now, today, plan⟩).1 = some x := hx
      cases hp : (Reader.poll Arena.env n (r.left + 1) r ⟨b, now, today, plan⟩).1 with
      | failed f =>
        rw [hp] at hx
        cases hx
        exact fun hm => hf f hp (misses_error_iff.1 hm)
      | ready c =>
        rw [hp] at hx
        cases hx
        exact not_misses_ok _
      | pending =>
        rw [hp] at hx
        cases hx
    | _ => exact stay
  | turn t =>
    cases job with
    | busy p =>
      have hp : (p.step (fun c b => b.serve t c) t b).1.Ensures _ _ () :=
        h.step_unit t b fun c => ⟨Backend.hears_serve hh.1 hh.2 t c, Backend.not_misses_serve he c⟩
      have hs : Holds R v (p.step (fun c b => b.serve t c) t b).2 := Prog.step_inv hh (fun c => hh.serve t c) t p
      simp only [Desk.next]
      split
      · rename_i x r b' hx
        rw [hx] at hp hs
        obtain ⟨hn, hr⟩ := hp () trivial
        refine ⟨hs, ?_, fun y hy => by cases hy; exact hn⟩
        cases r with
        | none => trivial
        | some r => exact hr r rfl
      · rename_i p' b' _ hx
        rw [hx] at hp hs
        exact ⟨hs, hp, fun x hx => by cases hx⟩
    | _ => exact stay

theorem Desk.run_provided (events : List Event) : ∀ {d : Desk} {results : List (Outcome Got)},
    Holds R v d.backend → d.job.Provided R v → (∀ x ∈ results, ¬ Misses x) → (∀ e ∈ events, ¬ e.Misses) →
      ∀ x ∈ (d.run results events).2, ¬ Misses x := by
  induction events with
  | nil => exact fun _ _ hr _ => hr
  | cons e events ih =>
    intro d results hh hd hr he
    obtain ⟨hh', hd', hx⟩ := Desk.next_provided hv hh hd (he e List.mem_cons_self)
    refine ih hh' hd' (fun x hx' => ?_) fun e he' => he e (List.mem_cons_of_mem _ he')
    rcases List.mem_append.1 hx' with hx' | hx'
    · exact hr x hx'
    · exact hx x (Option.mem_toList.1 hx')

end

/-- A reader all of whose chunks were there when it was opened does not miss one, unless a call of it is made
to fail so. -/
theorem never_missing {b : Backend} (hb : b.store.Sound) (c : Client) (key : String) (info : Info)
    (h : ∀ i : Nat, (i : Int) < info.count →
      (b.store.current (Utf8.encode (chunkKey key info.version i))).isSome)
    (events : List Event) (he : ∀ e ∈ events, ¬ e.Misses) :
    ∀ x ∈ (Desk.run ⟨b, .idle ⟨c, key, ⟨info, b.store.revision⟩, 0, [], none⟩⟩ [] events).2, ¬ Misses x := by
  refine Desk.run_provided (R := b.store.revision) (v := b.store.latest) (fun k r hr => ?_) events
    ⟨hb, hb.pinned⟩ ⟨rfl, fun i h0 hi => ?_, fun p hp => by cases hp⟩ (fun x hx => by cases hx) he
  · rw [← hb.asOf_revision] at hr
    exact hb.dated.created_of_asOf hr
  · obtain ⟨n, rfl⟩ := Int.eq_ofNat_of_zero_le h0
    rw [chunk?, Store.get?_latest, Option.isSome_map]
    exact h n hi

end Mixed

end Chunked

end Keyspace
