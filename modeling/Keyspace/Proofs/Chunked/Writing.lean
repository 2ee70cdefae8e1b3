import Keyspace.Proofs.Chunked.Site

/-!
# Putting and deleting chunked values

A put writes its chunks beside what is live and turns to them in one transaction. So at every point
of it the value from before is live or its own is, and the last it is once the put ended well
(`ensures_put`); a deletion is one transaction (`ensures_delete`).
-/

namespace Keyspace.Chunked

/-! ## The commits of a put and a deletion -/

section
variable {key : String} {s : Store} {lives : Lives}

theorem under_infoKey (version : Int) :
    (Span.under (Utf8.encode (versionHead key version))).contains (Utf8.encode (infoKey key)) = false :=
  Bool.eq_false_iff.2 fun h => not_versionHead_prefix_infoKey version ((Span.contains_under _ _).1 h)

theorem under_chunkKey {m n : Int} (h : m ≠ n) (index : Int) :
    (Span.under (Utf8.encode (versionHead key m))).contains (Utf8.encode (chunkKey key n index)) = false :=
  Bool.eq_false_iff.2 fun hc => h (version_eq_of_under ((Span.contains_under _ _).1 hc))

theorem Good.fine_chunk (h : Good key s lives) {version : Int}
    (hne : ∀ b, lives.live = some b → version ≠ b.version) (index : Int) (b : Bytes) :
    h.Fine [.put (Utf8.encode (chunkKey key version index)) b none] lives.live where
  shows := by
    refine h.shows_latest.congr ?_ fun l hl i => ?_
    · rw [Store.get?_latest, Store.get?_latest, Store.current_commit_put,
        if_neg (chunkKey_ne_infoKey version index)]
    · rw [Store.get?_latest, Store.get?_latest, Store.current_commit_put,
        if_neg fun he => hne l hl (version_eq_of_chunkKey_eq he)]
  unleased k hk r hr := by
    rw [Store.current_commit_put] at hr
    split at hr
    · cases hr
      rfl
    · exact h.unleased k hk r hr

theorem Good.fine_clear (h : Good key s lives) {version : Int}
    (hne : ∀ b, lives.live = some b → version ≠ b.version) :
    h.Fine [.delete (.under (Utf8.encode (versionHead key version)))] lives.live where
  shows := by
    refine h.shows_latest.congr ?_ fun l hl i => ?_
    · rw [Store.get?_latest, Store.get?_latest, Store.current_commit_delete, under_infoKey]
      rfl
    · rw [Store.get?_latest, Store.get?_latest, Store.current_commit_delete, under_chunkKey (hne l hl)]
      rfl
  unleased k hk r hr := by
    rw [Store.current_commit_delete] at hr
    split at hr
    · cases hr
    · exact h.unleased k hk r hr

theorem Good.fine_turn (h : Good key s lives) {l : Live} (hl : l.Fits) (hlen : l.bytes.length = l.size)
    (hw : ∀ i < l.count, chunk? s.latest key l.version i = some (piece l.chunkSize l.bytes i))
    {previous : Int} (hp : previous ≠ l.version) :
    h.Fine [.put (Utf8.encode (infoKey key)) l.info.toBytes none,
      .delete (.under (Utf8.encode (versionHead key previous)))] (some l) where
  shows := by
    refine ⟨hl, hlen, ⟨(Edit.start s).recordOf (Utf8.encode (infoKey key)) l.info.toBytes none, ?_, rfl⟩,
      fun i hi => ?_⟩
    · rw [Store.get?_latest, Store.current_commit_put_delete, under_infoKey, if_pos rfl]
      rfl
    · rw [← hw i hi, chunk?, chunk?, Store.get?_latest, Store.get?_latest, Store.current_commit_put_delete,
        under_chunkKey hp, if_neg (chunkKey_ne_infoKey l.version i).symm]
      rfl
  unleased k hk r hr := by
    rw [Store.current_commit_put_delete] at hr
    split at hr
    · cases hr
    · split at hr
      · cases hr
        rfl
      · exact h.unleased k hk r hr

theorem Good.fine_delete (h : Good key s lives) :
    h.Fine [.delete (.single (Utf8.encode (infoKey key))), .delete (.under (Utf8.encode (chunksHead key)))]
      none := by
  have hgone : ∀ k, Owns key k → (s.commit [.delete (.single (Utf8.encode (infoKey key))),
      .delete (.under (Utf8.encode (chunksHead key)))]).current k = none := by
    intro k hk
    rw [Store.current_commit_delete_delete]
    rcases hk with rfl | hk
    · split
      · rfl
      · exact if_pos (decide_eq_true rfl)
    · rw [if_pos ((Span.contains_under _ _).2 hk)]
  refine ⟨(Store.get?_latest ..).trans (hgone _ owns_infoKey), fun k hk r hr => ?_⟩
  rw [hgone k hk] at hr
  cases hr

end

/-! ## Sites -/

/-- A backend, with what was live at a key. -/
structure Site where
  backend : Backend
  lives : Lives

namespace Site

def commits (c : Call) (r : Outcome c.Answer) : Bool :=
  match c with
  | .txn _ => r.isOk
  | _ => false

/-- Serves a call of a task that turns to `target`. -/
def serve (target : Option Live) (t : Turn) (c : Call) (σ : Site) : Outcome c.Answer × Site :=
  let (r, b) := σ.backend.serve t c
  let turned := match t.fate with
    | .lost _ => false
    | _ => commits c (σ.backend.answer t.now c).1
  (r, ⟨b, if turned then (b.store.revision, target) :: σ.lives else σ.lives⟩)

abbrev store (σ : Site) : Store := σ.backend.store

theorem serve_cases (target : Option Live) (t : Turn) (c : Call) (σ : Site) :
    ((σ.serve target t c).2.store = σ.store ∧ (σ.serve target t c).2.lives = σ.lives ∧
      ∃ f, (σ.serve target t c).1 = .error f) ∨
    ((σ.serve target t c).2.store = (σ.store.answer t.now c).2 ∧
      (σ.serve target t c).2.lives =
        (if commits c (σ.store.answer t.now c).1 then ((σ.store.answer t.now c).2.revision, target) :: σ.lives
          else σ.lives) ∧
      ((σ.serve target t c).1 = (σ.store.answer t.now c).1 ∨ ∃ f, (σ.serve target t c).1 = .error f)) := by
  have hfault : ∀ f, commits c (.error f) = false := by intro f; cases c <;> rfl
  unfold serve Backend.serve
  cases t.fate with
  | lost f => exact .inl ⟨rfl, rfl, f, rfl⟩
  | answered =>
    rcases σ.backend.answer_cases t.now c with ⟨⟨k, hk⟩, hs⟩ | ⟨hr, hs⟩
    · simp only [hk, hfault, Bool.false_eq_true, if_false]
      exact .inl ⟨hs, trivial, _, rfl⟩
    · simp only [hr]
      refine .inr ⟨hs, ?_, .inl trivial⟩
      rw [← hs]
  | unheard f =>
    rcases σ.backend.answer_cases t.now c with ⟨⟨k, hk⟩, hs⟩ | ⟨hr, hs⟩
    · simp only [hk, hfault, Bool.false_eq_true, if_false]
      exact .inl ⟨hs, trivial, f, rfl⟩
    · simp only [hr]
      refine .inr ⟨hs, ?_, .inr ⟨f, rfl⟩⟩
      rw [← hs]

/-- What others do elsewhere. -/
def Others (key : String) (σ σ' : Site) : Prop :=
  σ'.lives = σ.lives ∧ (σ.store.Sound → σ.store.Leads (Foreign key) σ'.store)

/-- A task that turns to `target` and keeps `I` with every call. -/
def setting (key : String) (target : Option Live) (I : Site → Prop) : Setting Site where
  may σ c := ∀ t, I (σ.serve target t c).2
  serves c σ r σ' := ∃ t, σ.serve target t c = (r, σ')
  others := Others key
  refl _ := ⟨rfl, .refl⟩
  trans h h' := ⟨h'.1.trans h.1, fun hs => (h.2 hs).trans (h'.2 (h.2 hs).1)⟩

/-! ## Stages -/

/-- Either what was live before is so, or the target is. -/
structure Either (key : String) (before target : Option Live) (σ : Site) : Prop where
  good : Good key σ.store σ.lives
  live : σ.lives.live = before ∨ σ.lives.live = target

structure Done (key : String) (target : Option Live) (σ : Site) : Prop where
  good : Good key σ.store σ.lives
  live : σ.lives.live = target

def Written (key : String) (l : Live) (n : Nat) (s : Store) : Prop :=
  ∀ i < n, chunk? s.latest key l.version i = some (piece l.chunkSize l.bytes i)

variable {key : String} {before target : Option Live} {l : Live} {σ σ' : Site} {n : Nat}

theorem Either.others (h : Either key before target σ) (ho : Others key σ σ') : Either key before target σ' :=
  ⟨ho.1 ▸ h.good.leads (ho.2 h.good.sound), ho.1 ▸ h.live⟩

theorem Done.others (h : Done key target σ) (ho : Others key σ σ') : Done key target σ' :=
  ⟨ho.1 ▸ h.good.leads (ho.2 h.good.sound), ho.1 ▸ h.live⟩

theorem Done.either (h : Done key target σ) : Either key before target σ := ⟨h.good, .inr h.live⟩

theorem Written.leads {s s' : Store} (h : Written key l n s) (hl : s.Leads (Foreign key) s') :
    Written key l n s' := by
  intro i hi
  have hk : Owns key _ := owns_chunkKey l.version i
  rw [chunk?, Store.get?_latest, hl.current_eq fun e he hek => he (hek ▸ hk), ← Store.get?_latest]
  exact h i hi

theorem Either.expire (h : Either key before target σ) (now : Nat) :
    Good key (σ.store.expire now) σ.lives := h.good.expire now

theorem others_range (h : Good key σ.store σ.lives) (t : Turn) (span : Span) (r : Option Int) :
    Others key σ (σ.serve target t (.range span r)).2 := by
  rcases σ.serve_cases target t (.range span r) with ⟨hs, hl, _⟩ | ⟨hs, hl, _⟩
  · exact ⟨hl, fun hsound => by rw [hs]; exact .refl hsound⟩
  · exact ⟨hl, fun _ => by rw [hs]; exact h.leads_expire t.now⟩

theorem leads_serve (h : σ.store.Sound) (target : Option Live) (t : Turn) (c : Call) :
    σ.store.Leads (fun _ => True) (σ.serve target t c).2.store := by
  rcases σ.serve_cases target t c with ⟨hs, _⟩ | ⟨hs, _⟩
  · rw [hs]
    exact .refl h
  · rw [hs]
    exact (Store.leads_answer h t.now c).mono fun _ _ => trivial

/-! ## Single calls -/

section
variable {φ : Call → Type} {c : Client}

theorem ensures_call {P : Site → Prop} {i : Call} {Q : i.Answer → Site → Prop}
    (hP : ∀ {σ σ'}, P σ → Others key σ σ' → P σ') (hQ : ∀ {a σ σ'}, Q a σ → Others key σ σ' → Q a σ')
    (hE : ∀ {σ}, P σ → Either key before target σ)
    (hs : ∀ {σ} t, P σ → P (σ.serve target t i).2 ∧
      ∀ a, (σ.serve target t i).1 = .ok a → Q a (σ.serve target t i).2) (h : P σ) :
    (c.call i : Action Call.Answer φ i.Answer).run.Ensures (setting key target (Either key before target))
      (Action.Ends Q (Either key before target)) σ := by
  refine Prog.Ensures.runWith (P := P) (Q := Action.Ends Q (Either key before target))
    hP ?_ (fun hp t => hE (hs t hp).1) ?_ c.policy.retries h
  · intro r σ σ' hr ho
    cases r with
    | ok a => exact hQ hr ho
    | error f => exact Either.others hr ho
  · rintro σ r σ' hp ⟨t, ht⟩
    have hst := hs t hp
    rw [ht] at hst
    refine ⟨?_, fun _ _ => hst.1⟩
    cases r with
    | ok a => exact hst.2 a rfl
    | error f => exact hE hst.1

end

/-! ## Putting -/

/-- A put under way: what was live before is still so, `n` chunks are written, and the source reads
what is pinned. -/
structure Begun (key : String) (before : Option Live) (l : Live) (R : Int) (v : SortedMap Bytes Record)
    (n : Nat) (σ : Site) : Prop where
  good : Good key σ.store σ.lives
  live : σ.lives.live = before
  pinned : σ.store.Pinned R v
  written : Written key l n σ.store

/-- All chunks are written, and the turn is made or is yet to be made. -/
structure Ready (key : String) (before : Option Live) (l : Live) (σ : Site) : Prop where
  either : Either key before (some l) σ
  written : Written key l l.count σ.store

variable {R : Int} {v : SortedMap Bytes Record}

theorem Begun.others (h : Begun key before l R v n σ) (ho : Others key σ σ') : Begun key before l R v n σ' :=
  have hl := ho.2 h.good.sound
  ⟨ho.1 ▸ h.good.leads hl, ho.1 ▸ h.live, h.pinned.leads hl, h.written.leads hl⟩

theorem Begun.either (h : Begun key before l R v n σ) : Either key before target σ := ⟨h.good, .inl h.live⟩

theorem Ready.others (h : Ready key before l σ) (ho : Others key σ σ') : Ready key before l σ' :=
  ⟨h.either.others ho, h.written.leads (ho.2 h.either.good.sound)⟩

structure Follows (before : Option Live) (l : Live) : Prop where
  version : l.version = before.elim 0 (·.version) + 1
  fits : l.Fits

theorem Follows.versionAfter (h : Follows before l) : versionAfter (before.elim 0 (·.version)) = l.version := by
  have hpos := h.fits.version_pos
  have hlt := h.fits.version
  have hv := h.version
  rw [hv]
  exact versionAfter_of_lt (by omega) (by omega)

theorem Follows.ne (h : Follows before l) (hl : σ.lives.live = before) :
    ∀ b, σ.lives.live = some b → l.version ≠ b.version := by
  intro b hb
  have hv := h.version
  rw [← hl, hb] at hv
  simp only [Option.elim] at hv
  omega

theorem Written.commit {s : Store} {ops : List Op} (h : Written key l n s)
    (hc : ∀ i < n, (s.commit ops).current (Utf8.encode (chunkKey key l.version i)) =
      s.current (Utf8.encode (chunkKey key l.version i))) : Written key l n (s.commit ops) := by
  intro i hi
  rw [chunk?, Store.get?_latest, hc i hi, ← Store.get?_latest]
  exact h i hi

theorem Begun.clear (hf : Follows before l) (h : Begun key before l R v 0 σ) (t : Turn) :
    Begun key before l R v 0
      (σ.serve target t (.deleteRange (.under (Utf8.encode (versionHead key l.version))))).2 := by
  have hp := h.pinned.leads (leads_serve h.good.sound target t
    (.deleteRange (.under (Utf8.encode (versionHead key l.version)))))
  rcases σ.serve_cases target t (.deleteRange (.under (Utf8.encode (versionHead key l.version)))) with
    ⟨hs, hl, _⟩ | ⟨hs, hl, _⟩
  · exact ⟨by rw [hs, hl]; exact h.good, by rw [hl]; exact h.live, hp, fun i hi => absurd hi (Nat.not_lt_zero i)⟩
  · have hg := h.good.expire t.now
    refine ⟨?_, hl ▸ h.live, hp, fun i hi => absurd hi (Nat.not_lt_zero i)⟩
    rw [hs, hl]
    exact hg.keep (hg.fine_clear (hf.ne h.live))

theorem Begun.chunk (hf : Follows before l) (h : Begun key before l R v n σ) (t : Turn) :
    Begun key before l R v n (σ.serve target t (.put (Utf8.encode (chunkKey key l.version n))
      (piece l.chunkSize l.bytes n) none)).2 ∧
    ∀ a, (σ.serve target t (.put (Utf8.encode (chunkKey key l.version n))
      (piece l.chunkSize l.bytes n) none)).1 = .ok a →
      Begun key before l R v (n + 1) (σ.serve target t (.put (Utf8.encode (chunkKey key l.version n))
        (piece l.chunkSize l.bytes n) none)).2 := by
  have hp := h.pinned.leads (leads_serve h.good.sound target t (.put (Utf8.encode (chunkKey key l.version n))
    (piece l.chunkSize l.bytes n) none))
  rcases σ.serve_cases target t (.put (Utf8.encode (chunkKey key l.version n))
    (piece l.chunkSize l.bytes n) none) with ⟨hs, hl, f, hr⟩ | ⟨hs, hl, _⟩
  · refine ⟨⟨by rw [hs, hl]; exact h.good, by rw [hl]; exact h.live, hp, by rw [hs]; exact h.written⟩,
      fun a ha => ?_⟩
    rw [hr] at ha
    cases ha
  · have hg := h.good.expire t.now
    have hw := h.written.leads (h.good.leads_expire t.now)
    have hs : (σ.serve target t (.put (Utf8.encode (chunkKey key l.version n))
        (piece l.chunkSize l.bytes n) none)).2.store = (σ.store.expire t.now).commit
          [.put (Utf8.encode (chunkKey key l.version n)) (piece l.chunkSize l.bytes n) none] := hs
    have hall : Written key l (n + 1) ((σ.store.expire t.now).commit
        [.put (Utf8.encode (chunkKey key l.version n)) (piece l.chunkSize l.bytes n) none]) := by
      intro i hi
      rw [chunk?, Store.get?_latest, Store.current_commit_put]
      split
      · rename_i he
        have := index_eq_of_chunkKey_eq he
        obtain rfl : n = i := by omega
        rfl
      · rename_i hne
        rw [← Store.get?_latest]
        apply hw i
        have : i ≠ n := fun he => hne (he ▸ rfl)
        omega
    have hnext : Begun key before l R v (n + 1) (σ.serve target t
        (.put (Utf8.encode (chunkKey key l.version n)) (piece l.chunkSize l.bytes n) none)).2 := by
      refine ⟨?_, hl ▸ h.live, hp, hs ▸ hall⟩
      rw [hs, hl]
      exact hg.keep (hg.fine_chunk (hf.ne h.live) n _)
    exact ⟨⟨hnext.good, hnext.live, hnext.pinned, fun i hi => hnext.written i (by omega)⟩, fun _ _ => hnext⟩

theorem Ready.turn (hf : l.Fits) (hlen : l.bytes.length = l.size) {previous : Int}
    (hp : previous ≠ l.version) (h : Ready key before l σ) (t : Turn) :
    Ready key before l (σ.serve (some l) t (.txn (commitTxn key l.info previous))).2 ∧
    ∀ a, (σ.serve (some l) t (.txn (commitTxn key l.info previous))).1 = .ok a → a.succeeded = true ∧
      Done key (some l) (σ.serve (some l) t (.txn (commitTxn key l.info previous))).2 := by
  rcases σ.serve_cases (some l) t (.txn (commitTxn key l.info previous)) with ⟨hs, hl, f, hr⟩ | ⟨hs, hl, hr⟩
  · refine ⟨⟨⟨by rw [hs, hl]; exact h.either.good, by rw [hl]; exact h.either.live⟩, by rw [hs]; exact h.written⟩,
      fun a ha => ?_⟩
    rw [hr] at ha
    cases ha
  · have hg := h.either.expire t.now
    have hw := h.written.leads (h.either.good.leads_expire t.now)
    have ha : σ.store.answer t.now (.txn (commitTxn key l.info previous)) =
        (.ok ⟨true, ((σ.store.expire t.now).commit (commitTxn key l.info previous).success).revision⟩,
          (σ.store.expire t.now).commit (commitTxn key l.info previous).success) := rfl
    rw [ha] at hs hl hr
    have hd : Done key (some l) (σ.serve (some l) t (.txn (commitTxn key l.info previous))).2 := by
      refine ⟨?_, by rw [hl]; rfl⟩
      rw [hs, hl]
      exact hg.turn (hg.fine_turn hf hlen hw hp)
    refine ⟨⟨hd.either, ?_⟩, fun a he => ⟨?_, hd⟩⟩
    · rw [hs]
      apply hw.commit
      intro i _
      rw [commitTxn, Txn.always, Store.current_commit_put_delete, under_chunkKey hp,
        if_neg (chunkKey_ne_infoKey l.version i).symm]
      rfl
    · rcases hr with hr | ⟨f, hr⟩
      · rw [hr] at he
        cases he
        rfl
      · rw [hr] at he
        cases he

/-- What a read of the info record hears. -/
def Heard (before : Option Live) (rs : List Record) : Prop :=
  match before with
  | none => rs = []
  | some l => ∃ r, rs = [r] ∧ Info.ofBytes? r.value = some l.info

theorem Good.heard {s : Store} {lives : Lives} (h : Good key s lives) {now : Nat} {a : RangeAnswer}
    (ha : (s.answer now (.range (.single (Utf8.encode (infoKey key))) none)).1 = .ok a) :
    Heard lives.live a.records := by
  obtain ⟨_, hrec⟩ := Store.answer_range_single h.sound ha
  have hshow := (h.expire now).shows_latest
  rw [hrec]
  cases hl : lives.live with
  | none =>
    rw [hl] at hshow
    have hn : (s.expire now).current (Utf8.encode (infoKey key)) = none := (Store.get?_latest ..).symm.trans hshow
    rw [hn]
    rfl
  | some l =>
    rw [hl] at hshow
    obtain ⟨hf, _, ⟨r, hr, hv⟩, _⟩ := hshow
    rw [Store.get?_latest] at hr
    rw [hr]
    exact ⟨r, rfl, by rw [hv]; exact Info.ofBytes?_toBytes hf.info⟩

theorem Begun.look (h : Begun key before l R v n σ) (t : Turn) :
    Begun key before l R v n (σ.serve target t (.range (.single (Utf8.encode (infoKey key))) none)).2 ∧
    ∀ a, (σ.serve target t (.range (.single (Utf8.encode (infoKey key))) none)).1 = .ok a →
      Begun key before l R v n (σ.serve target t (.range (.single (Utf8.encode (infoKey key))) none)).2 ∧
        Heard before a.records := by
  have hb : Begun key before l R v n (σ.serve target t (.range (.single (Utf8.encode (infoKey key))) none)).2 :=
    h.others (others_range h.good t (.single (Utf8.encode (infoKey key))) none)
  refine ⟨hb, fun a ha => ⟨hb, ?_⟩⟩
  rcases σ.serve_cases target t (.range (.single (Utf8.encode (infoKey key))) none) with
    ⟨_, _, f, hr⟩ | ⟨_, _, hr | ⟨f, hr⟩⟩
  · rw [hr] at ha
    cases ha
  · rw [hr] at ha
    exact h.live ▸ Good.heard h.good ha
  · rw [hr] at ha
    cases ha

section
variable {φ : Call → Type} {c : Client}

theorem ensures_pin? (h : Begun key before l R v 0 σ) :
    (pin? c key : Action Call.Answer φ (Option Pin)).run.Ensures
      (setting key target (Either key before target))
      (Action.Ends (fun p σ => Begun key before l R v 0 σ ∧
        p.elim 0 (·.info.version) = before.elim 0 (·.version)) (Either key before target)) σ := by
  refine Action.ensures_then (Q := fun a σ => Begun key before l R v 0 σ ∧ Heard before a.records)
    (fun h ho => Either.others h ho)
    (ensures_call (P := Begun key before l R v 0)
      (i := .range (.single (Utf8.encode (infoKey key))) none)
      (Q := fun a σ => Begun key before l R v 0 σ ∧ Heard before a.records) (fun h ho => h.others ho)
      (fun h ho => ⟨h.1.others ho, h.2⟩) (fun h => h.either) (fun t h => h.look t) h) ?_
  rintro a σ' ⟨hb, hh⟩
  unfold Heard at hh
  cases before with
  | none =>
    simp only at hh
    rw [hh]
    exact fun σ'' ho => ⟨hb.others ho, rfl⟩
  | some b =>
    obtain ⟨r, hr, hi⟩ := hh
    rw [hr]
    simp only [hi]
    exact fun σ'' ho => ⟨hb.others ho, rfl⟩

variable (hv : ∀ k r, v.get? k = some r → r.createRevision ≠ 0) (hf : Follows before l)
  (hsize : l.chunkSize = c.config.chunkSize)
include hv hf hsize

theorem ensures_writeChunks {content : Bytes} (hbytes : l.bytes = content.take l.size) :
    ∀ (left index : Nat) {s : Source φ} {σ : Site}, s.Stands R v content l.size l.chunkSize index left →
      Begun key before l R v index σ →
      (writeChunks c key l.version l.size left index s).run.Ensures
        (setting key target (Either key before target))
        (Action.Ends (fun _ σ => Begun key before l R v l.count σ ∧ l.size ≤ content.length)
          (Either key before target)) σ := by
  intro left
  induction left with
  | zero =>
    intro index s σ hs h σ' ho
    have hcount : index = l.count := hs.count
    exact ⟨hcount ▸ h.others ho, hs.enough_of_done hf.fits.chunkSize⟩
  | succ left ih =>
    intro index s σ hs h
    refine Action.ensures_then (Q := fun x σ => Begun key before l R v index σ ∧
      x.1 = piece l.chunkSize l.bytes index ∧ x.2.Stands R v content l.size l.chunkSize (index + 1) left)
      (fun h ho => Either.others h ho) ?_ ?_
    · rw [← hsize]
      refine ((hs.ensures_take hv).pinned (P := Begun key before l R v index) (fun h ho => h.others ho) ?_ h).mono ?_
      · intro σ i h hi
        -- a source only reads, and what it hears is what is pinned
        have hq : ∀ t, Begun key before l R v index (σ.serve target t i).2 := by
          intro t
          cases i with
          | range span r => exact h.others (others_range h.good t span r)
          | _ => exact hi.elim
        refine ⟨fun t => (hq t).either, ?_⟩
        rintro r σ' ⟨t, ht⟩
        have hq' := hq t
        rw [ht] at hq'
        refine ⟨?_, hq'⟩
        have := Backend.hears_serve h.good.sound h.pinned t i
        rwa [show (σ.backend.serve t i).1 = r from congrArg Prod.fst ht] at this
      · rintro x σ' ⟨hb, hx⟩
        cases x with
        | error f => exact hb.either
        | ok x => exact ⟨hb, hbytes ▸ hx x.1 x.2 rfl⟩
    · rintro ⟨b, s'⟩ σ' ⟨hb, hpiece, hs'⟩
      simp only at hpiece hs'
      subst hpiece
      refine Action.ensures_then (Q := fun _ σ => Begun key before l R v (index + 1) σ)
        (fun h ho => Either.others h ho)
        (ensures_call (P := Begun key before l R v index) (fun h ho => h.others ho) (fun h ho => h.others ho)
          (fun h => h.either) (fun t h => h.chunk hf t) hb) fun _ σ'' hb => ih (index + 1) hs' hb

/-- A put ends well only if its value is live, and else what was live before still is, or its value. -/
theorem ensures_put {s : Source φ} (hs : s.Reads R v) (hbytes : l.bytes = (s.content v).take l.size)
    (h : Begun key before l R v 0 σ) :
    (put c key l.size s).run.Ensures (setting key (some l) (Either key before (some l)))
      (Action.Ends (fun info σ => info = l.info ∧ Done key (some l) σ) (Either key before (some l))) σ := by
  refine Action.ensures_then (fun h ho => Either.others h ho) (ensures_pin? h) ?_
  rintro p σ ⟨h, hp⟩
  have hver := hf.version
  have hinfo : (⟨l.size, chunkCount l.size c.config.chunkSize, l.version⟩ : Info) = l.info := by
    rw [← hsize]
    rfl
  simp only
  rw [hp, hf.versionAfter, hinfo]
  refine Action.ensures_then (Q := fun _ σ => Begun key before l R v 0 σ) (fun h ho => Either.others h ho) ?_ ?_
  · refine Action.ensures_then (Q := fun _ σ => Begun key before l R v 0 σ) (fun h ho => Either.others h ho)
      (ensures_call (P := Begun key before l R v 0) (fun h ho => h.others ho) (fun h ho => h.others ho)
        (fun h => h.either) (fun t h => ⟨h.clear hf t, fun _ _ => h.clear hf t⟩) h) ?_
    exact fun _ σ h σ' ho => h.others ho
  · intro _ σ h
    refine Action.ensures_then (fun h ho => Either.others h ho)
      (ensures_writeChunks hv hf hsize hbytes _ 0 (hsize ▸ hs.stands l.size l.chunkSize) h) ?_
    rintro _ σ ⟨h, henough⟩
    have hlen : l.bytes.length = l.size := by rw [hbytes, List.length_take_of_le henough]
    refine Action.ensures_then (Q := fun a σ => a.succeeded = true ∧ Done key (some l) σ)
      (fun h ho => Either.others h ho)
      (ensures_call (P := Ready key before l)
        (i := .txn (commitTxn key l.info (before.elim 0 (·.version))))
        (Q := fun a σ => a.succeeded = true ∧ Done key (some l) σ) (fun h ho => h.others ho)
        (fun h ho => ⟨h.1, h.2.others ho⟩) (fun h => h.either)
        (fun t h => h.turn hf.fits hlen (by omega) t) ⟨h.either, h.written⟩) ?_
    rintro a σ ⟨ha, hd⟩
    rw [ha]
    exact fun σ' ho => ⟨rfl, hd.others ho⟩

end

/-! ## Deleting -/

theorem Either.gone (h : Either key before none σ) (t : Turn) :
    Either key before none (σ.serve none t (.txn (deleteTxn key))).2 ∧
    ∀ a, (σ.serve none t (.txn (deleteTxn key))).1 = .ok a →
      Done key none (σ.serve none t (.txn (deleteTxn key))).2 := by
  rcases σ.serve_cases none t (.txn (deleteTxn key)) with ⟨hs, hl, f, hr⟩ | ⟨hs, hl, hr⟩
  · refine ⟨⟨by rw [hs, hl]; exact h.good, by rw [hl]; exact h.live⟩, fun a ha => ?_⟩
    rw [hr] at ha
    cases ha
  · have hg := h.expire t.now
    have ha : σ.store.answer t.now (.txn (deleteTxn key)) =
        (.ok ⟨true, ((σ.store.expire t.now).commit (deleteTxn key).success).revision⟩,
          (σ.store.expire t.now).commit (deleteTxn key).success) := rfl
    rw [ha] at hs hl
    have hd : Done key none (σ.serve none t (.txn (deleteTxn key))).2 := by
      refine ⟨?_, by rw [hl]; rfl⟩
      rw [hs, hl]
      exact hg.turn hg.fine_delete
    exact ⟨hd.either, fun _ _ => hd⟩

theorem ensures_delete {φ : Call → Type} {c : Client} (h : Either key before none σ) :
    (delete c key : Action Call.Answer φ Unit).run.Ensures (setting key none (Either key before none))
      (Action.Ends (fun _ σ => Done key none σ) (Either key before none)) σ :=
  Action.ensures_then (fun h ho => Either.others h ho)
    (ensures_call (P := Either key before none) (fun h ho => h.others ho) (fun h ho => h.others ho)
      (fun h => h) (fun t h => h.gone t) h) fun _ _ hd _ ho => hd.others ho

end Site

end Keyspace.Chunked
