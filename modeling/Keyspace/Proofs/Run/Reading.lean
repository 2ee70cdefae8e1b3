import Keyspace.Proofs.Run.Ensures
import Keyspace.Client

/-!
# Reading at a fixed revision

What is read at a revision is the view that the store had there, whatever was done to it since: the
view stays or is compacted away (`Store.Pinned`). `reading` is the setting of programs that do nothing
but read at one revision; it has no state, so what they ensure in it they ensure beside anything else
(`Ensures.pinned`).
-/

namespace Keyspace

/-! ## Pinned views -/

namespace Store

variable {s s' : Store} {P : Event → Prop} {R : Int} {v : SortedMap Bytes Record}

/-- `v` is the view at `R`, as long as it is there. -/
structure Pinned (s : Store) (R : Int) (v : SortedMap Bytes Record) : Prop where
  pos : 0 < R
  le : R ≤ s.revision
  view : s.floor ≤ R → s.asOf R = v

theorem Pinned.leads (hp : s.Pinned R v) (h : s.Leads P s') : s'.Pinned R v where
  pos := hp.pos
  le := Int.le_trans hp.le h.revision_le
  view hf := by rw [h.past hf hp.le, hp.view (Int.le_trans h.floor_le hf)]

theorem Sound.pinned (h : s.Sound) : s.Pinned s.revision s.latest :=
  ⟨h.revision_pos, Int.le_refl _, fun _ => h.asOf_revision⟩

theorem readRevision_eq_ok {r n : Int} (h0 : 0 < r) (h : s.readRevision (some r) = .ok n) :
    n = r ∧ s.floor ≤ r ∧ r ≤ s.revision := by
  unfold readRevision at h
  simp only at h
  rw [if_neg (by omega)] at h
  split at h
  · cases h
  · split at h
    · cases h
    · cases h
      exact ⟨rfl, by omega, by omega⟩

theorem Pinned.read (hp : s.Pinned R v) {span : Span} {rs : List Record}
    (h : s.read span (some R) = .ok rs) : rs = (v.filter fun k _ => span.contains k).values := by
  rw [read_eq] at h
  cases hr : s.readRevision (some R) with
  | error e => rw [hr] at h; cases h
  | ok n =>
    obtain ⟨rfl, hf, _⟩ := readRevision_eq_ok hp.pos hr
    rw [hr] at h
    cases h
    simp only [hp.view hf]

end Store

/-! ## The setting -/

/-- What a range call at `R` hears if `v` is the view there. -/
def Hears (R : Int) (v : SortedMap Bytes Record) : (c : Call) → Outcome c.Answer → Prop
  | .range span (some r), .ok a => r = R → a.records = (v.filter fun k _ => span.contains k).values
  | _, _ => True

def Call.Looks (R : Int) : Call → Prop
  | .range _ revision => revision = some R
  | _ => False

def reading (R : Int) (v : SortedMap Bytes Record) : Setting Unit where
  may _ c := c.Looks R
  serves c _ r _ := Hears R v c r
  others _ _ := True
  refl _ := trivial
  trans _ _ := trivial

variable {R : Int} {v : SortedMap Bytes Record}

theorem hears_error (c : Call) (f : Failure) : Hears R v c (.error f) := by
  unfold Hears
  split
  · rename_i h
    cases h
  · trivial

theorem Store.Pinned.hears {s : Store} (hs : s.Sound) (hp : s.Pinned R v) (now : Nat) (c : Call) :
    Hears R v c (s.answer now c).1 := by
  unfold Hears
  split
  · rename_i span r a ha
    rintro rfl
    have hx := (Store.leads_expire hs now)
    simp only [Store.answer] at ha
    cases hr : (s.expire now).read span (some r) with
    | error e => rw [hr] at ha; cases ha
    | ok rs =>
      rw [hr] at ha
      cases ha
      exact (hp.leads hx).read hr
  · trivial

theorem Backend.hears_serve {b : Backend} (hs : b.store.Sound) (hp : b.store.Pinned R v) (t : Turn)
    (c : Call) : Hears R v c (b.serve t c).1 := by
  unfold Backend.serve
  cases t.fate with
  | answered =>
    rcases b.answer_cases t.now c with ⟨⟨k, hk⟩, _⟩ | ⟨hr, _⟩
    · simp only [hk]
      exact hears_error c _
    · simp only [hr]
      exact hp.hears hs t.now c
  | unheard f => exact hears_error c f
  | lost f => exact hears_error c f

namespace Prog

variable {φ : Call → Type} {α S : Type} {Q : α → Unit → Prop} {p : Prog Call.Answer φ α}

/-- A program that only reads does so in any setting in which it may and the view stays. -/
theorem Ensures.pinned {Γ : Setting S} {P : S → Prop} (h : p.Ensures (reading R v) Q ())
    (hothers : ∀ {s s'}, P s → Γ.others s s' → P s')
    (hserves : ∀ {s i}, P s → i.Looks R → Γ.may s i ∧ ∀ r s', Γ.serves i s r s' → Hears R v i r ∧ P s')
    {s : S} (hP : P s) : p.Ensures Γ (fun a s => P s ∧ Q a ()) s := by
  refine (h.transfer (Γ := Γ) (P := fun s _ => P s) (fun hP ho => ⟨(), trivial, hothers hP ho⟩)
    (fun hP hm => ⟨(hserves hP hm).1, fun r s' hr => ⟨(), (hserves hP hm).2 r s' hr⟩⟩) hP).mono ?_
  rintro a s ⟨_, hP, hq⟩
  exact ⟨hP, hq⟩

end Prog

/-! ## In environments -/

/-- In the worlds of `I` calls hear what `v` has at `R`. -/
structure Env.HearsIn {φ : Call → Type} {W : Type} (h : Env Call.Answer φ W) (R : Int)
    (v : SortedMap Bytes Record) (I : W → Prop) : Prop where
  start : ∀ {t i w}, I w → I (h.start t i w).2
  poll : ∀ {i c w}, I w → I (h.poll i c w).2
  hears : ∀ {i c w r}, I w → (h.poll i c w).1 = .inr r → Hears R v i r

/-- In the worlds of `I` calls are served as a setting says. -/
structure Env.ServesIn {φ : Call → Type} {W : Type} (h : Env Call.Answer φ W) (Γ : Setting Unit)
    (I : W → Prop) : Prop where
  start : ∀ {t i w}, I w → I (h.start t i w).2
  poll : ∀ {i c w}, I w → I (h.poll i c w).2
  serves : ∀ {i c w r}, I w → (h.poll i c w).1 = .inr r → Γ.serves i () r ()

/-- Until a program is blocked, it does what it ensures. -/
theorem Prog.Ensures.advance_in {φ : Call → Type} {α W : Type} {h : Env Call.Answer φ W} {Γ : Setting Unit}
    {I : W → Prop} (hh : h.ServesIn Γ I) {Q : α → Unit → Prop} (p : Prog Call.Answer φ α) : ∀ {w : W}, I w →
      p.Ensures Γ Q () → (p.advance h w).1.Ensures Γ Q () ∧ I (p.advance h w).2 := by
  have polled : ∀ {i : Call} {k : Outcome i.Answer → Prog Call.Answer φ α} {c : φ i} {w : W}, I w →
      (∀ r w, I w → (k r).Ensures Γ Q () → ((k r).advance h w).1.Ensures Γ Q () ∧ I ((k r).advance h w).2) →
      (Prog.await i c k).Ensures Γ Q () →
      ((Prog.await i c k).advance h w).1.Ensures Γ Q () ∧ I ((Prog.await i c k).advance h w).2 := by
    intro i k c w hw ih hp
    have hI := hh.poll (i := i) (c := c) hw
    have hr := fun r => hh.serves (i := i) (c := c) (r := r) hw
    unfold Prog.advance
    cases hx : h.poll i c w with
    | mk x w' =>
      rw [hx] at hI hr
      cases x with
      | inl c' => exact ⟨hp, hI⟩
      | inr r => exact ih r w' hI ((hp () (Γ.refl ())).2 r () (hr r rfl))
  induction p with
  | done a => exact fun hw hp => ⟨hp, hw⟩
  | call t i k ih =>
    intro w hw hp
    have hs := hh.start (t := t) (i := i) hw
    have he : Prog.advance h (.call t i k) w =
        Prog.advance h (.await i (h.start t i w).1 k) (h.start t i w).2 := by
      rw [Prog.advance, Prog.advance]
    rw [he]
    exact polled (c := (h.start t i w).1) hs (fun r w hw => ih r hw) hp
  | await i c k ih => exact fun hw hp => polled hw (fun r w hw => ih r hw) hp
  | sleep ms p ih =>
    intro w hw hp
    unfold Prog.advance
    split
    · exact ih hw hp
    · exact ⟨hp, hw⟩
  | sleepUntil t p ih =>
    intro w hw hp
    unfold Prog.advance
    split
    · exact ih hw hp
    · exact ⟨hp, hw⟩
  | clock k ih => exact fun hw hp => ih _ hw (hp _)
  | wallClock k ih => exact fun hw hp => ih _ hw (hp _)

theorem Prog.Ensures.advance {φ : Call → Type} {α W : Type} {h : Env Call.Answer φ W} {I : W → Prop}
    (hh : h.HearsIn R v I) {Q : α → Unit → Prop} (p : Prog Call.Answer φ α) {w : W} (hw : I w)
    (hp : p.Ensures (reading R v) Q ()) :
    (p.advance h w).1.Ensures (reading R v) Q () ∧ I (p.advance h w).2 :=
  Prog.Ensures.advance_in ⟨hh.start, hh.poll, hh.hears⟩ p hw hp

/-! ## Single keys -/

theorem SortedMap.values_filter_single (v : SortedMap Bytes Record) (key : Bytes) :
    (v.filter fun k _ => (Span.single key).contains k).values = (v.get? key).toList := by
  have hc : ∀ k, (Span.single key).contains k = decide (k = key) := fun k => rfl
  cases hg : v.get? key with
  | none =>
    have he : (v.filter fun k _ => (Span.single key).contains k) = .empty := by
      refine SortedMap.ext_get? fun k => ?_
      rw [SortedMap.get?_filter, hc]
      by_cases hk : k = key
      · rw [hk, hg]; rfl
      · cases v.get? k <;> simp [hk]
    rw [he]
    rfl
  | some r =>
    have he : (v.filter fun k _ => (Span.single key).contains k) = SortedMap.empty.insert key r := by
      refine SortedMap.ext_get? fun k => ?_
      rw [SortedMap.get?_filter, SortedMap.get?_insert, hc]
      by_cases hk : k = key
      · rw [hk, hg]; simp
      · have hk' : ¬ key = k := fun h => hk h.symm
        rw [if_neg hk', SortedMap.get?_empty]
        cases v.get? k <;> simp [hk]
    rw [he]
    rfl

theorem Store.answer_range_latest {s : Store} (hs : s.Sound) (now : Nat) (span : Span) :
    s.answer now (.range span none) =
      (.ok ⟨(s.expire now).revision, ((s.expire now).latest.filter fun k _ => span.contains k).values⟩,
        s.expire now) := by
  have hx := (Store.leads_expire hs now).1
  have hr : (s.expire now).read span none = .ok ((s.expire now).latest.filter fun k _ => span.contains k).values := by
    rw [Store.read_eq, ← hx.asOf_revision]
    rfl
  simp only [Store.answer, hr]
  rfl

theorem Store.answer_range {s : Store} (hs : s.Sound) {now : Nat} {span : Span} {a : RangeAnswer}
    (ha : (s.answer now (.range span none)).1 = .ok a) :
    a.revision = (s.expire now).revision ∧
      a.records = ((s.expire now).latest.filter fun k _ => span.contains k).values := by
  rw [Store.answer_range_latest hs] at ha
  cases ha
  exact ⟨rfl, rfl⟩

theorem Store.answer_range_single {s : Store} (hs : s.Sound) {now : Nat} {key : Bytes} {a : RangeAnswer}
    (ha : (s.answer now (.range (.single key) none)).1 = .ok a) :
    a.revision = (s.expire now).revision ∧ a.records = ((s.expire now).current key).toList := by
  obtain ⟨hrev, hrec⟩ := Store.answer_range hs ha
  refine ⟨hrev, ?_⟩
  rw [hrec, SortedMap.values_filter_single, Store.get?_latest]

theorem Backend.answer_range {b : Backend} (hb : b.store.Sound) {now : Nat} {span : Span} {a : RangeAnswer}
    (ha : (b.answer now (.range span none)).1 = .ok a) :
    a.revision = (b.move now (.call (.range span none))).store.revision ∧
      a.records = ((b.move now (.call (.range span none))).store.latest.filter fun k _ => span.contains k).values := by
  obtain ⟨ha, hs⟩ := store_answer_of_ok ha
  have hm : (b.move now (.call (.range span none))).store = b.store.expire now := hs
  rw [hm]
  exact Store.answer_range hb ha

theorem Backend.answer_range_single {b : Backend} (hb : b.store.Sound) {now : Nat} {key : Bytes} {a : RangeAnswer}
    (ha : (b.answer now (.range (.single key) none)).1 = .ok a) :
    a.revision = (b.move now (.call (.range (.single key) none))).store.revision ∧
      a.records = ((b.move now (.call (.range (.single key) none))).store.current key).toList := by
  obtain ⟨hrev, hrec⟩ := answer_range hb ha
  refine ⟨hrev, ?_⟩
  rw [hrec, SortedMap.values_filter_single, Store.get?_latest]

section
variable {φ : Call → Type} (hv : ∀ k r, v.get? k = some r → r.createRevision ≠ 0)
include hv

theorem Client.ensures_get (c : Client) (key : String) :
    (c.get key (some R) : Action Call.Answer φ (Option Entry)).run.Ensures (reading R v)
      (fun x _ => ∀ e, x = .ok e → e = (v.get? (Utf8.encode key)).map Entry.ofRecord) () := by
  refine Action.ensures_bind (Q := fun a _ => a.records = (v.get? (Utf8.encode key)).toList)
    (fun _ _ e he => by cases he) ?_ fun a _ ha => ?_
  · refine (Prog.Ensures.runWith (P := fun _ => True) (Q := fun r _ => Hears R v _ r) (fun _ _ => trivial)
      (fun h _ => h) (fun _ => rfl) (fun _ h => ⟨h, fun _ _ => trivial⟩) c.policy.retries trivial).mono ?_
    intro r _ hr
    cases r with
    | error f => exact fun e he => by cases he
    | ok a => exact (hr rfl).trans (SortedMap.values_filter_single v _)
  · intro _ _ e he
    cases he
    rw [ha]
    cases hg : v.get? (Utf8.encode key) with
    | none => rfl
    | some r =>
      have h0 := hv _ r hg
      simp [h0]

end

end Keyspace
