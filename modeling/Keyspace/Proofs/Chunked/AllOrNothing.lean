import Keyspace.Proofs.Chunked.Writing

/-!
# Puts are all or nothing

A scene is a site at which puts and deletions of one key are made one after the other, each of which
may be left at any of its steps, while others do what they like to other keys. At every revision the
store shows a whole value or none (`Scene.Reached.keeps`).
-/

namespace Keyspace.Chunked

variable {φ : Call → Type}

/-- What is under way at the key, with what was live when it began. -/
inductive Task (φ : Call → Type)
  | idle
  | put (before : Option Live) (l : Live) (p : Prog Call.Answer φ (Outcome Info))
  | delete (before : Option Live) (p : Prog Call.Answer φ (Outcome Unit))

structure Scene (φ : Call → Type) where
  site : Site
  task : Task φ

/-- What a source has to give when it is handed to a put: its bytes, or what the reader that it is has
before it in the view that it is pinned to. -/
def Source.Gives (s : Store) (source : Source φ) (content : Bytes) : Prop :=
  ∃ R v, s.Pinned R v ∧ (∀ k r, v.get? k = some r → r.createRevision ≠ 0) ∧ source.Reads R v ∧
    content = source.content v

theorem Source.gives_bytes {s : Store} (h : s.Sound) (b : Bytes) :
    Source.Gives s (.bytes b : Source φ) b := by
  refine ⟨s.revision, s.latest, h.pinned, fun k r hr => ?_, trivial, rfl⟩
  rw [Store.get?_latest] at hr
  obtain ⟨_, _, hf⟩ := h.dated.current hr
  have := hf.create_pos
  omega

def Live.after (before : Option Live) (chunkSize size : Nat) (content : Bytes) : Live :=
  ⟨before.elim 0 (·.version) + 1, chunkSize, size, content.take size⟩

theorem Good.fits_after {key : String} {s : Store} {lives : Lives} (h : Good key s lives) (content : Bytes)
    {chunkSize size : Nat} (hc : 0 < chunkSize) (hsize : size < 9223372036854775808)
    (hversion : (Live.after lives.live chunkSize size content).version < 9223372036854775808) :
    (Live.after lives.live chunkSize size content).Fits := by
  refine ⟨hc, hsize, ?_, hversion⟩
  have hs := h.shows_latest
  cases hl : lives.live with
  | none => exact Int.zero_lt_one
  | some b =>
    rw [hl] at hs
    have := hs.1.version_pos
    show 0 < b.version + 1
    omega

namespace Scene

inductive Step (key : String) : Scene φ → Scene φ → Prop
  | other (σ : Site) (task : Task φ) (now : Nat) (m : Move) (h : ∀ k, Owns key k → ¬ m.Writes k) :
    Step key ⟨σ, task⟩ ⟨⟨σ.backend.move now m, σ.lives⟩, task⟩
  | beginPut (σ : Site) (task : Task φ) (c : Client) (size : Nat) (source : Source φ) (content : Bytes)
    (hs : source.Gives σ.store content) (hc : 0 < c.config.chunkSize)
    -- sizes and versions are 64-bit numbers
    (hsize : size < 9223372036854775808)
    (hversion : (Live.after σ.lives.live c.config.chunkSize size content).version < 9223372036854775808) :
    Step key ⟨σ, task⟩
      ⟨σ, .put σ.lives.live (.after σ.lives.live c.config.chunkSize size content) (put c key size source).run⟩
  | beginDelete (σ : Site) (task : Task φ) (c : Client) :
    Step key ⟨σ, task⟩ ⟨σ, .delete σ.lives.live (delete c key).run⟩
  | turnPut (σ : Site) (before : Option Live) (l : Live) (p : Prog Call.Answer φ (Outcome Info)) (t : Turn) :
    Step key ⟨σ, .put before l p⟩
      ⟨(p.step (Site.serve (some l) t) t σ).2, .put before l (p.step (Site.serve (some l) t) t σ).1⟩
  | turnDelete (σ : Site) (before : Option Live) (p : Prog Call.Answer φ (Outcome Unit)) (t : Turn) :
    Step key ⟨σ, .delete before p⟩
      ⟨(p.step (Site.serve none t) t σ).2, .delete before (p.step (Site.serve none t) t σ).1⟩

inductive Reached (key : String) : Scene φ → Prop
  | start (names : List String) : Reached key ⟨⟨.ofMembers names, []⟩, .idle⟩
  | step {x y : Scene φ} (h : Reached key x) (hs : Step key x y) : Reached key y

def Goes (key : String) (σ : Site) : Task φ → Prop
  | .idle => True
  | .put before l p => σ.Either key before (some l) ∧ l.version = before.elim 0 (·.version) + 1 ∧
    p.Ensures (Site.setting key (some l) (Site.Either key before (some l)))
      (Action.Ends (fun info σ => info = l.info ∧ Site.Done key (some l) σ) (Site.Either key before (some l))) σ
  | .delete before p => σ.Either key before none ∧
    p.Ensures (Site.setting key none (Site.Either key before none))
      (Action.Ends (fun _ σ => Site.Done key none σ) (Site.Either key before none)) σ

structure Keeps (key : String) (x : Scene φ) : Prop where
  good : Good key x.site.store x.site.lives
  goes : Goes key x.site x.task

variable {key : String} {x y : Scene φ}

theorem good_ofMembers (names : List String) : Good key (Store.ofMembers names) [] where
  sound := .ofMembers names
  unleased k _ r hr := by cases hr
  dated e he := by cases he
  shows r _ _ := rfl

theorem Keeps.step (h : Keeps key x) (hs : Step key x y) : Keeps key y := by
  cases hs with
  | other σ task now m hm =>
    have hl := h.good.leads_move now hm
    have ho : σ.Others key ⟨σ.backend.move now m, σ.lives⟩ := ⟨rfl, fun _ => hl⟩
    refine ⟨h.good.leads hl, ?_⟩
    have hg := h.goes
    cases task with
    | idle => trivial
    | put before l p => exact ⟨hg.1.others ho, hg.2.1, hg.2.2.others ho⟩
    | delete before p => exact ⟨hg.1.others ho, hg.2.others ho⟩
  | beginPut σ task c size source content hs hc hsize hversion =>
    have hf := h.good.fits_after content hc hsize hversion
    obtain ⟨R, v, hp, hv, hr, hc⟩ := hs
    refine ⟨h.good, ⟨⟨h.good, .inl rfl⟩, rfl, ?_⟩⟩
    refine Site.ensures_put (R := R) (v := v) hv (l := .after σ.lives.live c.config.chunkSize size content) ⟨rfl, hf⟩ rfl hr ?_
      ⟨h.good, rfl, hp, fun i hi => absurd hi (Nat.not_lt_zero i)⟩
    rw [← hc]
    rfl
  | beginDelete σ task c =>
    have he : σ.Either key σ.lives.live none := ⟨h.good, .inl rfl⟩
    exact ⟨h.good, he, Site.ensures_delete he⟩
  | turnPut σ before l p t =>
    obtain ⟨he, hv, hp⟩ := h.goes
    have hk : Site.Either key before (some l) _ := hp.step_keeps t he fun i hm => hm t
    exact ⟨hk.good, hk, hv, hp.step t fun i _ => ⟨t, rfl⟩⟩
  | turnDelete σ before p t =>
    obtain ⟨he, hp⟩ := h.goes
    have hk : Site.Either key before none _ := hp.step_keeps t he fun i hm => hm t
    exact ⟨hk.good, hk, hp.step t fun i _ => ⟨t, rfl⟩⟩

theorem Reached.keeps (h : Reached key x) : Keeps key x := by
  induction h with
  | start names => exact ⟨good_ofMembers names, trivial⟩
  | step _ hs ih => exact ih.step hs

/-! ## What is live -/

/-- The store holds the value `l` whole at a revision: the info record says its size, its number of
chunks and its version, and its chunks put together are its bytes, all that were asked for. -/
structure Whole (key : String) (v : SortedMap Bytes Record) (l : Live) : Prop where
  info : ∃ record info, v.get? (Utf8.encode (infoKey key)) = some record ∧
    Info.ofBytes? record.value = some info ∧ info.size = (l.size : Int) ∧
    info.count = (chunkCount l.size l.chunkSize : Nat) ∧ info.version = l.version
  size : l.bytes.length = l.size
  chunks : assemble v key l.version (chunkCount l.size l.chunkSize) = some l.bytes

theorem whole_of_shows {v : SortedMap Bytes Record} {l : Live} (h : Shows key v (some l)) : Whole key v l := by
  have ha := h.assemble
  obtain ⟨hf, hlen, ⟨r, hr, hval⟩, _⟩ := h
  refine ⟨⟨r, l.info, hr, ?_, rfl, rfl, rfl⟩, hlen, ha⟩
  rw [hval]
  exact Info.ofBytes?_toBytes hf.info

/-- At every revision the store holds the value that was live there, whole, or no value if none was. A put
that ended well is live and has the next version; one that did not end well, failed or is under way has
left what was live before, or is live itself. -/
theorem put_all_or_nothing (h : Reached key x) :
    (∀ r, x.site.store.floor ≤ r → r ≤ x.site.store.revision →
      match x.site.lives.liveAt r with
      | none => (x.site.store.asOf r).get? (Utf8.encode (infoKey key)) = none
      | some l => Whole key (x.site.store.asOf r) l) ∧
    (∀ before l p, x.task = .put before l p → l.version = before.elim 0 (·.version) + 1 ∧
      (x.site.lives.live = before ∨ x.site.lives.live = some l)) ∧
    (∀ before l info, x.task = .put before l (.done (.ok info)) → x.site.lives.live = some l ∧ info = l.info ∧
      ∀ now a, (x.site.backend.answer now (.range (.single (Utf8.encode (infoKey key))) none)).1 = .ok a →
        ∃ record, a.records = [record] ∧ Info.ofBytes? record.value = some info) ∧
    (∀ before p, x.task = .delete before p → x.site.lives.live = before ∨ x.site.lives.live = none) := by
  have hk := h.keeps
  refine ⟨fun r hf hr => ?_, fun before l p ht => ?_, fun before l info ht => ?_, fun before p ht => ?_⟩
  · have hs := hk.good.shows r hf hr
    cases hl : x.site.lives.liveAt r with
    | none => rwa [hl] at hs
    | some l =>
      rw [hl] at hs
      exact whole_of_shows hs
  · have hg := hk.goes
    rw [ht] at hg
    exact ⟨hg.2.1, hg.1.live⟩
  · have hg := hk.goes
    rw [ht] at hg
    obtain ⟨hi, hd⟩ := hg.2.2 x.site (Site.setting key (some l) (Site.Either key before (some l)) |>.refl _)
    refine ⟨hd.live, hi, fun now a ha => ?_⟩
    have hh := Site.Good.heard hk.good (Backend.store_answer_of_ok ha).1
    rw [hd.live] at hh
    obtain ⟨r, hr, ho⟩ := hh
    exact ⟨r, hr, hi ▸ ho⟩
  · have hg := hk.goes
    rw [ht] at hg
    exact hg.1.live

theorem Reached.turns {before : Option Live} {l : Live} (ts : List Turn) :
    ∀ {σ : Site} {p : Prog Call.Answer φ (Outcome Info)}, Reached key ⟨σ, .put before l p⟩ →
      Reached key ⟨(p.steps (Site.serve (some l)) ts σ).2, .put before l (p.steps (Site.serve (some l)) ts σ).1⟩ := by
  induction ts with
  | nil => exact fun h => h
  | cons t ts ih => exact fun h => ih (h.step (.turnPut _ _ _ _ t))

theorem put_all_or_nothing_two_chunks :
    let c : Client := .ofConfig { Config.standard with chunkSize := 1 }
    let l : Live := ⟨1, 1, 2, [7, 8]⟩
    let out := Prog.steps (φ := fun _ => Unit) (Site.serve (some l)) (List.replicate 5 ⟨0, ⟨0, 0⟩, .answered⟩)
      (put c "k" 2 (.bytes [7, 8])).run ⟨.ofMembers ["a"], []⟩
    Reached "k" ⟨out.2, .put none l out.1⟩ ∧ Whole "k" (out.2.store.asOf 4) l := by
  intro c l out
  have h : Reached "k" ⟨out.2, .put none l out.1⟩ :=
    .turns _ (.step (.start ["a"]) (.beginPut _ _ c 2 (.bytes [7, 8]) [7, 8]
      (Source.gives_bytes (.ofMembers ["a"]) [7, 8]) (by decide) (by decide) (by decide)))
  have hl : out.2.lives.liveAt 4 = some l := by decide +kernel
  have hw := (put_all_or_nothing h).1 4 (by decide +kernel) (by decide +kernel)
  simp only [hl] at hw
  exact ⟨h, hw⟩

end Scene

end Keyspace.Chunked
