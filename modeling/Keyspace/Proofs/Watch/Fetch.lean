import Keyspace.Proofs.Run.Reading
import Keyspace.Proofs.Watch.Mirror

/-!
# Snapshots

Annals are a backend together with all that it ever committed. They go on, and tell of every revision that
they reached what they told of it then (`Precedes`). So the value map of a listing under a head is that of
the view at the listing's revision, however late it arrives (`ensures_listUnder`).
-/

namespace Keyspace

structure Annals where
  backend : Backend
  batches : List Batch

namespace Annals

def store (a : Annals) : Store := a.backend.store

/-- The backend is `b` by now. -/
def goOn (a : Annals) (b : Backend) : Annals := ⟨b, a.batches ++ a.store.since b.store⟩

def move (a : Annals) (now : Nat) (m : Move) : Annals := a.goOn (a.backend.move now m)

def serve (t : Turn) (c : Call) (a : Annals) : Outcome c.Answer × Annals :=
  ((a.backend.serve t c).1, a.goOn (a.backend.serve t c).2)

def view (a : Annals) (r : Int) : SortedMap Bytes Record := viewAt a.batches r

/-- Nothing is missing, and nothing but text was put. -/
abbrev Faithful (a : Annals) : Prop := Chronicle a.batches a.store

/-- `b` tells of the revisions that `a` reached what `a` told of them. -/
structure Precedes (a b : Annals) : Prop where
  revision_le : a.store.revision ≤ b.store.revision
  view : ∀ r, r ≤ a.store.revision → b.view r = a.view r

variable {a b c : Annals}

theorem Precedes.refl (a : Annals) : a.Precedes a := ⟨Int.le_refl _, fun _ _ => rfl⟩

theorem Precedes.trans (h : a.Precedes b) (h' : b.Precedes c) : a.Precedes c where
  revision_le := Int.le_trans h.revision_le h'.revision_le
  view r hr := (h'.view r (Int.le_trans hr h.revision_le)).trans (h.view r hr)

theorem precedes_goOn {b : Backend} (h : a.store.revision ≤ b.store.revision) : a.Precedes (a.goOn b) :=
  ⟨h, fun _ hr => Chronicle.viewAt_append a.batches hr b.store⟩

theorem precedes_move (h : a.Faithful) (now : Nat) (m : Move) : a.Precedes (a.move now m) :=
  precedes_goOn (Backend.leads_move h.sound now m).revision_le

theorem Faithful.move (h : a.Faithful) (now : Nat) {m : Move} (hp : ∀ k, m.Puts k → IsText k) : (a.move now m).Faithful :=
  Chronicle.move h now hp

theorem Faithful.ofStore (h : a.Faithful) {b : Backend} (hb : b.store = a.store) : Annals.Faithful ⟨b, a.batches⟩ := by
  unfold Faithful store
  rw [hb]
  exact h

theorem move_ofStore {b b' : Backend} (hb : b.store = a.store) {now : Nat} {c : Call} {r : Outcome c.Answer}
    (hans : b.answer now c = (r, b')) : move ⟨b, a.batches⟩ now (.call c) = a.goOn b' := by
  show Annals.mk (b.answer now c).2 (a.batches ++ b.store.since (b.answer now c).2.store) = _
  rw [hans, hb]
  rfl

theorem Faithful.batches_onlyFeeds (h : a.Faithful) {b : Backend} (hb : a.store.OnlyFeeds b.store) :
    (a.goOn b).batches = a.batches := by
  show a.batches ++ a.store.since b.store = a.batches
  rw [hb.since h.sound, List.append_nil]

theorem Faithful.goOn_self (h : a.Faithful) : a.goOn a.backend = a :=
  congrArg (Annals.mk a.backend) (h.batches_onlyFeeds (.refl _))

theorem Faithful.asOf (h : a.Faithful) {r : Int} (h1 : 1 ≤ r) (hf : a.store.floor ≤ r) (hr : r ≤ a.store.revision) :
    a.store.asOf r = a.view r :=
  h.asOf_eq_viewAt h1 hf hr

theorem Faithful.view_eq (h : a.Faithful) {r r' : Int} (hr : r ≤ r') :
    a.view r' = ((a.batches.filter (r < ·.revision)).filter (·.revision ≤ r')).foldl Batch.applyTo (a.view r) :=
  h.rising.viewAt_eq hr

/-! ## Passing -/

/-- Annals go on for one act, in which not both is something committed and something compacted. -/
structure Passes (a b : Annals) : Prop where
  faithful : b.Faithful
  precedes : a.Precedes b
  paced : b.store.revision = a.store.revision ∨ b.store.floor = a.store.floor

theorem Faithful.passes (h : a.Faithful) : a.Passes a := ⟨h, .refl a, .inl rfl⟩

theorem Faithful.passes_move (h : a.Faithful) (now : Nat) {m : Move} (hp : ∀ k, m.Puts k → IsText k) :
    a.Passes (a.move now m) :=
  ⟨h.move now hp, precedes_move h now m, Backend.paced_move h.sound now m⟩

theorem Faithful.passes_onlyFeeds (h : a.Faithful) {b : Backend} (hb : a.store.OnlyFeeds b.store) :
    a.Passes (a.goOn b) :=
  ⟨Chronicle.onlyFeeds h hb, precedes_goOn (Int.le_of_eq hb.revision.symm), .inl hb.revision⟩

theorem Faithful.passes_answer (h : a.Faithful) {b b' : Backend} (hb : b.store = a.store) {now : Nat} {c : Call}
    (hp : ∀ k, c.Puts k → IsText k) {r : Outcome c.Answer} (hans : b.answer now c = (r, b')) :
    a.Passes (a.goOn b') := by
  obtain ⟨hf, hab, hpace⟩ := (h.ofStore hb).passes_move now (m := .call c) hp
  have hrev : (Annals.mk b a.batches).store.revision = a.store.revision := congrArg Store.revision hb
  have hfloor : (Annals.mk b a.batches).store.floor = a.store.floor := congrArg Store.floor hb
  rw [move_ofStore hb hans] at hf hab hpace
  rw [hrev] at hpace
  rw [hfloor] at hpace
  exact ⟨hf, ⟨hrev ▸ hab.revision_le, fun r hr => hab.view r (hrev ▸ hr)⟩, hpace⟩

theorem Passes.onlyFeeds {b b' : Backend} (h : a.Passes (a.goOn b)) (ho : b.store.OnlyFeeds b'.store) :
    a.Passes (a.goOn b') ∧ (a.goOn b').batches = (a.goOn b).batches := by
  have hbatches : (a.goOn b').batches = (a.goOn b).batches := by
    show a.batches ++ a.store.since b'.store = a.batches ++ a.store.since b.store
    unfold Store.since
    rw [ho.log]
  have hgoOn : (a.goOn b).goOn b' = a.goOn b' :=
    congrArg (Annals.mk b') ((h.faithful.batches_onlyFeeds ho).trans hbatches.symm)
  have hrev : (a.goOn b').store.revision = (a.goOn b).store.revision := ho.revision
  have hfloor : (a.goOn b').store.floor = (a.goOn b).store.floor := ho.floor
  refine ⟨⟨hgoOn ▸ (h.faithful.passes_onlyFeeds ho).faithful, ⟨hrev ▸ h.precedes.revision_le, fun r hr => ?_⟩, ?_⟩,
    hbatches⟩
  · rw [← h.precedes.view r hr]
    exact congrArg (viewAt · r) hbatches
  · rw [hrev, hfloor]
    exact h.paced

/-! ## Turns -/

theorem serve_cases (a : Annals) (t : Turn) (c : Call) :
    (a.serve t c).2 = a.move t.now (.call c) ∨ (a.serve t c).2 = a.goOn a.backend := by
  rcases a.backend.serve_cases t c with h | h
  · exact .inl (congrArg a.goOn h)
  · exact .inr (congrArg a.goOn h)

theorem Faithful.serve (h : a.Faithful) (t : Turn) {c : Call} (hp : ∀ k, c.Puts k → IsText k) :
    (a.serve t c).2.Faithful ∧ a.Precedes (a.serve t c).2 := by
  rcases a.serve_cases t c with he | he
  · rw [he]
    exact ⟨h.move t.now hp, precedes_move h _ _⟩
  · rw [he]
    have hp := h.passes_onlyFeeds (b := a.backend) (.refl _)
    exact ⟨hp.faithful, hp.precedes⟩

/-! ## Listings -/

/-- What a range call for the latest revision hears. -/
def Lists (a : Annals) : (c : Call) → Outcome c.Answer → Prop
  | .range span none, .ok x => 1 ≤ x.revision ∧ x.revision = a.store.revision ∧
      x.records = ((a.view x.revision).filter fun k _ => span.contains k).values
  | _, _ => True

theorem lists_error (a : Annals) (c : Call) (f : Failure) : a.Lists c (.error f) := by
  unfold Lists
  split
  · rename_i h
    cases h
  · trivial

theorem Faithful.lists (h : a.Faithful) (now : Nat) (c : Call) (hp : ∀ k, c.Puts k → IsText k) :
    (a.move now (.call c)).Lists c (a.backend.answer now c).1 := by
  unfold Lists
  split
  · rename_i span x hx
    obtain ⟨hrev, hrec⟩ := Backend.answer_range h.sound hx
    have hmove := h.move now (m := .call (.range span none)) hp
    have hpos := hmove.sound.revision_pos
    refine ⟨?_, hrev, ?_⟩
    · rw [hrev]
      exact hpos
    · rw [hrec, hrev]
      exact congrArg (fun v => (v.filter fun k _ => span.contains k).values) hmove.latest_eq_viewAt
  · trivial

/-- Calls that put nothing, beside anything that goes on. -/
def fetching : Setting Annals where
  may _ c := ∀ k, ¬ c.Puts k
  serves c a r b := a.Precedes b ∧ b.Lists c r
  others := Precedes
  refl := .refl
  trans := .trans

theorem Faithful.serves (h : a.Faithful) (t : Turn) {c : Call} (hc : fetching.may a c) :
    fetching.serves c a (a.serve t c).1 (a.serve t c).2 := by
  have hp : ∀ k, c.Puts k → IsText k := fun k hk => absurd hk (hc k)
  refine ⟨(h.serve t hp).2, ?_⟩
  unfold Annals.serve Backend.serve
  cases t.fate with
  | answered => exact h.lists t.now c hp
  | unheard f => exact lists_error _ c f
  | lost f => exact lists_error _ c f

end Annals

/-- The values of a snapshot are those of the view at its revision. -/
structure Fetched (head : String) (s : Snapshot) (a : Annals) : Prop where
  pos : 1 ≤ s.revision
  le : s.revision ≤ a.store.revision
  values : s.listing.valueMap head = valuesUnder head (a.view s.revision)

theorem Fetched.precedes {head : String} {s : Snapshot} {a b : Annals} (h : Fetched head s a) (hab : a.Precedes b) :
    Fetched head s b where
  pos := h.pos
  le := Int.le_trans h.le hab.revision_le
  values := by rw [hab.view _ h.le]; exact h.values

theorem Client.ensures_listUnder {φ : Call → Type} (c : Client) (head : String) (a : Annals) :
    (c.listUnder head : Action Call.Answer φ Snapshot).run.Ensures Annals.fetching
      (Action.Ends (Fetched head) fun _ => True) a := by
  let Q (x : RangeAnswer) (b : Annals) : Prop := Fetched head ⟨.ofRecords x.records, x.revision⟩ b
  refine Action.ensures_then (Q := Q) (fun _ _ => trivial) ?_ fun x b hx b' hb => hx.precedes hb
  refine Prog.Ensures.runWith (P := fun _ => True) (i := .range (.under (Utf8.encode head)) none)
    (Q := Action.Ends Q fun _ => True) (fun _ _ => trivial) ?_ (fun _ _ hk => hk) ?_ c.policy.retries trivial
  · intro r b b' hr hb
    cases r with
    | error e => trivial
    | ok x => exact Fetched.precedes hr hb
  · intro b r b' _ hs
    refine ⟨?_, fun _ _ => trivial⟩
    cases r with
    | error e => trivial
    | ok x =>
      obtain ⟨hpos, hrev, hrec⟩ := hs.2
      refine ⟨hpos, Int.le_of_eq hrev, ?_⟩
      show (Listing.ofRecords x.records).valueMap head = _
      rw [hrec]
      rfl

end Keyspace
