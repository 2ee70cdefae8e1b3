import Keyspace.Proofs.Chunked.AllOrNothing
import Keyspace.Proofs.Chunked.Stages

/-!
# Chunked values leave nothing behind

While puts and deletions are made one after the other, and left at any step, all that lies under a key is
the live version, with just its chunks, and beside it at most the next version (`Tidy`). A put that ends
well leaves just its own version and a deletion nothing, whatever was left before.
-/

namespace Keyspace.Chunked

variable {key : String} {f : Shelf} {version m : Int} {count n e : Nat}

/-! ## What lies under a version -/

/-- The first `n` chunks of the version lie under it, and nothing else. -/
def Filled (key : String) (f : Shelf) (version : Int) (n : Nat) : Prop :=
  ∀ k, Utf8.encode (versionHead key version) <+: k →
    ((f k).isSome ↔ ∃ i < n, k = Utf8.encode (chunkKey key version i))

theorem under_iff (version : Int) (k : Bytes) :
    (Span.under (Utf8.encode (versionHead key version))).contains k = true ↔
      Utf8.encode (versionHead key version) <+: k := Span.contains_under _ _

namespace Filled

theorem of_none (h : ∀ k, Utf8.encode (versionHead key version) <+: k → f k = none) : Filled key f version 0 := by
  intro k hk
  rw [h k hk]
  simp

theorem clear (f : Shelf) (version : Int) :
    Filled key (f.apply (.delete (.under (Utf8.encode (versionHead key version))))) version 0 :=
  of_none fun k hk => if_pos ((under_iff version k).2 hk)

theorem clear_other (h : Filled key f version n) (hne : m ≠ version) :
    Filled key (f.apply (.delete (.under (Utf8.encode (versionHead key m))))) version n := by
  intro k hk
  show (if (Span.under (Utf8.encode (versionHead key m))).contains k then none else f k).isSome ↔ _
  by_cases hm : (Span.under (Utf8.encode (versionHead key m))).contains k = true
  · -- no chunk of one version lies under the other
    rw [if_pos hm]
    constructor
    · intro hn
      cases hn
    · rintro ⟨i, _, rfl⟩
      exact absurd (version_eq_of_under ((under_iff m _).1 hm)) hne
  · rw [if_neg hm]
    exact h k hk

theorem put_other (h : Filled key f version n) {k : Bytes}
    (hk : ¬ Utf8.encode (versionHead key version) <+: k) (b : Bytes) (lease : Option Int) :
    Filled key (f.apply (.put k b lease)) version n := by
  intro j hj
  have hne : k ≠ j := fun he => hk (he ▸ hj)
  rw [show f.apply (.put k b lease) j = f j from if_neg hne]
  exact h j hj

theorem chunk (h : Filled key f version e) (he : e = n ∨ e = n + 1) (b : Bytes) :
    Filled key (f.apply (.put (Utf8.encode (chunkKey key version n)) b none)) version (n + 1) := by
  intro k hk
  by_cases hn : Utf8.encode (chunkKey key version n) = k
  · rw [show f.apply (.put (Utf8.encode (chunkKey key version n)) b none) k = some b from if_pos hn]
    exact ⟨fun _ => ⟨n, Nat.lt_succ_self n, hn.symm⟩, fun _ => rfl⟩
  · rw [show f.apply (.put (Utf8.encode (chunkKey key version n)) b none) k = f k from if_neg hn, h k hk]
    constructor
    · rintro ⟨i, hi, rfl⟩
      exact ⟨i, by omega, rfl⟩
    · rintro ⟨i, hi, rfl⟩
      have : i ≠ n := fun h => hn (h ▸ rfl)
      exact ⟨i, by omega, rfl⟩

end Filled

/-! ## Tidy shelves -/

/-- The info record tells of the version and of the number of its chunks; both are 0 if there is none. -/
def Recorded (key : String) (f : Shelf) (version : Int) (count : Nat) : Prop :=
  match f (Utf8.encode (infoKey key)) with
  | none => version = 0 ∧ count = 0
  | some b => ∃ info, Info.ofBytes? b = some info ∧ info.version = version ∧ info.count = (count : Int)

theorem Recorded.congr {g : Shelf} (h : Recorded key f version count)
    (hi : g (Utf8.encode (infoKey key)) = f (Utf8.encode (infoKey key))) : Recorded key g version count := by
  unfold Recorded
  rw [hi]
  exact h

theorem Recorded.versionOf (h : Recorded key f version count) :
    versionOf (f (Utf8.encode (infoKey key))) = version := by
  unfold Recorded at h
  unfold Chunked.versionOf
  cases hf : f (Utf8.encode (infoKey key)) with
  | none =>
    rw [hf] at h
    exact h.1.symm
  | some b =>
    rw [hf] at h
    obtain ⟨info, hi, hv, _⟩ := h
    rw [Option.bind_some, hi]
    exact hv

/-- What lies under the key is of the live version, and then one of its chunks, or of the next version. -/
structure Tidy (key : String) (f : Shelf) (version : Int) (count : Nat) : Prop where
  recorded : Recorded key f version count
  version_nonneg : 0 ≤ version
  filled : Filled key f version count
  within : ∀ k, (f k).isSome → Utf8.encode (chunksHead key) <+: k →
    Utf8.encode (versionHead key version) <+: k ∨ Utf8.encode (versionHead key (version + 1)) <+: k

/-- Nothing of the next version is there either. -/
structure Clean (key : String) (f : Shelf) (version : Int) (count : Nat) : Prop where
  tidy : Tidy key f version count
  alone : ∀ k, (f k).isSome → Utf8.encode (chunksHead key) <+: k → Utf8.encode (versionHead key version) <+: k

theorem Clean.isSome_iff (h : Clean key f version count) {k : Bytes} (hk : Utf8.encode (chunksHead key) <+: k) :
    (f k).isSome ↔ ∃ i < count, k = Utf8.encode (chunkKey key version i) := by
  refine ⟨fun hs => (h.tidy.filled k (h.alone k hs hk)).1 hs, fun ⟨i, hi, he⟩ => ?_⟩
  subst he
  exact (h.tidy.filled _ (versionHead_prefix_chunkKey version i)).2 ⟨i, hi, rfl⟩

namespace Tidy

theorem clear (h : Tidy key f version count) :
    Tidy key (f.apply (.delete (.under (Utf8.encode (versionHead key (version + 1)))))) version count where
  recorded := h.recorded.congr (f.info_of_clear _)
  version_nonneg := h.version_nonneg
  filled := h.filled.clear_other (by omega)
  within k hk := by
    refine h.within k ?_
    have hk : (if (Span.under (Utf8.encode (versionHead key (version + 1)))).contains k then none else f k).isSome :=
      hk
    split at hk
    · cases hk
    · exact hk

theorem chunk (h : Tidy key f version count) (i : Int) (b : Bytes) :
    Tidy key (f.apply (.put (Utf8.encode (chunkKey key (version + 1) i)) b none)) version count where
  recorded := h.recorded.congr (f.info_of_chunk _ i b)
  version_nonneg := h.version_nonneg
  filled := h.filled.put_other (fun hp => by have := version_eq_of_under hp; omega) b none
  within k hk hc := by
    by_cases he : Utf8.encode (chunkKey key (version + 1) i) = k
    · exact .inr (he ▸ versionHead_prefix_chunkKey _ _)
    · exact h.within k ((show f.apply (.put _ b none) k = f k from if_neg he) ▸ hk) hc

end Tidy

/-- Once all chunks are written, turning to them leaves nothing else. -/
theorem Clean.of_turn {chunkSize size : Nat} (hc : 0 < chunkSize) (hsize : size < 9223372036854775808)
    (hr : Room version) (hw : ∀ k, (f k).isSome → Utf8.encode (chunksHead key) <+: k →
      Utf8.encode (versionHead key version) <+: k ∨ Utf8.encode (versionHead key (version + 1)) <+: k)
    (hf : Filled key f (version + 1) (chunkCount size chunkSize)) :
    Clean key (f.applyAll (commitTxn key (nextInfo chunkSize size version) version).success) (version + 1)
      (chunkCount size chunkSize) := by
  have halone : ∀ k, (f.applyAll (commitTxn key (nextInfo chunkSize size version) version).success k).isSome →
      Utf8.encode (chunksHead key) <+: k → Utf8.encode (versionHead key (version + 1)) <+: k := by
    intro k hk hc
    have hk : (if (Span.under (Utf8.encode (versionHead key version))).contains k then none
        else if Utf8.encode (infoKey key) = k then some (nextInfo chunkSize size version).toBytes else f k).isSome :=
      hk
    split at hk
    · cases hk
    · rename_i hu
      rw [if_neg fun he => not_chunksHead_prefix_infoKey (he ▸ hc)] at hk
      exact (hw k hk hc).resolve_left fun h => hu ((under_iff version k).2 h)
  refine ⟨⟨?_, Int.le_add_one hr.1, ?_, fun k hk hc => .inl (halone k hk hc)⟩, halone⟩
  · unfold Recorded
    rw [f.info_of_turn]
    exact ⟨_, Info.ofBytes?_toBytes (hr.fits hc hsize), hr.versionAfter, rfl⟩
  · exact (hf.put_other (not_versionHead_prefix_infoKey _) _ none).clear_other (by omega)

theorem Tidy.of_gone (h : ∀ k, Owns key k → f k = none) : Tidy key f 0 0 where
  recorded := by
    unfold Recorded
    rw [h _ owns_infoKey]
    exact ⟨rfl, rfl⟩
  version_nonneg := Int.le_refl 0
  filled := .of_none fun k hk => h k (.inr ((chunksHead_prefix_versionHead 0).trans hk))
  within k hk hc := by
    rw [h k (.inr hc)] at hk
    cases hk

/-! ## Stages on the shelf -/

namespace Stage

/-- What lies on the shelf when a put or a deletion has come so far. -/
def Leaves (key : String) (chunkSize size : Nat) : Stage → Shelf → Prop
  | looking, f => ∃ version count, Tidy key f version count ∧ Room version
  | clearing version, f => Room version ∧ ∃ count, Tidy key f version count
  | writing version n, f => Room version ∧
    -- a chunk that was not heard of may be there, and the turn may have been made unheard
    ((∃ count e, Tidy key f version count ∧ Filled key f (version + 1) e ∧ (e = n ∨ e = n + 1) ∧
        e ≤ chunkCount size chunkSize) ∨
      n = chunkCount size chunkSize ∧ Clean key f (version + 1) n)
  | turned version n, f => Clean key f (versionAfter version) n
  | removing, f => ∃ version count, Tidy key f version count
  | removed, f => ∀ k, Owns key k → f k = none

variable {chunkSize size : Nat} {st : Stage}

theorem Leaves.tidy (h : st.Leaves key chunkSize size f) : ∃ version count, Tidy key f version count := by
  cases st with
  | looking =>
    obtain ⟨version, count, ht, _⟩ := h
    exact ⟨version, count, ht⟩
  | clearing version =>
    obtain ⟨_, count, ht⟩ := h
    exact ⟨version, count, ht⟩
  | writing version n =>
    obtain ⟨_, ⟨count, _, ht, _⟩ | ⟨_, hcl⟩⟩ := h
    · exact ⟨version, count, ht⟩
    · exact ⟨version + 1, n, hcl.tidy⟩
  | turned version n => exact ⟨versionAfter version, n, Clean.tidy h⟩
  | removing => exact h
  | removed => exact ⟨0, 0, .of_gone h⟩

theorem Leaves.turn (hc : 0 < chunkSize) (hsize : size < 9223372036854775808)
    (h : (writing version (chunkCount size chunkSize)).Leaves key chunkSize size f) :
    Clean key (f.applyAll (commitTxn key (nextInfo chunkSize size version) version).success) (version + 1)
      (chunkCount size chunkSize) := by
  obtain ⟨hr, ⟨count, e, ht, hf, he, hle⟩ | ⟨_, hcl⟩⟩ := h
  · obtain rfl : e = chunkCount size chunkSize := by omega
    exact .of_turn hc hsize hr ht.within hf
  · exact .of_turn hc hsize hr (fun k hk hu => .inr (hcl.alone k hk hu)) hcl.tidy.filled

theorem Leaves.chunk (hn : n < chunkCount size chunkSize) (b : Bytes)
    (h : (writing version n).Leaves key chunkSize size f) :
    ∃ count, Tidy key (f.apply (.put (Utf8.encode (chunkKey key (version + 1) n)) b none)) version count ∧
      Filled key (f.apply (.put (Utf8.encode (chunkKey key (version + 1) n)) b none)) (version + 1) (n + 1) := by
  obtain ⟨_, ⟨count, e, ht, hf, he, _⟩ | ⟨rfl, _⟩⟩ := h
  · exact ⟨count, ht.chunk n b, hf.chunk he b⟩
  · exact absurd hn (Nat.lt_irrefl _)

/-- Each call of each stage, whatever becomes of it. -/
theorem Leaves.serve (hc : 0 < chunkSize) (hsize : size < 9223372036854775808) {b : Backend} {R : Int} {c : Call}
    (hk : Kept key b.store) (h : st.Leaves key chunkSize size (shelf key b.store))
    (hm : Calls R key chunkSize size st c) (t : Turn) : Kept key (b.serve t c).2.store ∧
      (st.hear c (b.serve t c).1).Leaves key chunkSize size (shelf key (b.serve t c).2.store) := by
  cases hm with
  | look =>
    refine hk.hear (.range _ _) t h h fun a ha => ?_
    obtain ⟨version, count, ht, hr⟩ := h
    have hver : versionOf (a.records.head?.map (·.value)) = version :=
      (congrArg versionOf (hk.heard ha)).trans ht.recorded.versionOf
    show (clearing (versionOf (a.records.head?.map (·.value)))).Leaves key chunkSize size (shelf key b.store)
    rw [hver]
    exact ⟨hr, count, ht⟩
  | clear version =>
    obtain ⟨hr, count, ht⟩ := h
    rw [hr.versionAfter]
    exact hk.hear (.deleteRange _) t ⟨hr, count, ht⟩ ⟨hr, count, ht.clear⟩ fun a _ =>
      ⟨hr, .inl ⟨count, 0, ht.clear, .clear _ _, .inl rfl, Nat.zero_le _⟩⟩
  | source version n span => exact hk.hear (.range _ _) t h h fun a _ => h
  | chunk version n hn x =>
    obtain ⟨count, ht, hf⟩ := h.chunk hn x
    rw [h.1.versionAfter]
    refine hk.hear (.put (owns_chunkKey _ _) x) t h ?_ fun a _ => ?_
    · exact ⟨h.1, .inl ⟨count, n + 1, ht, hf, .inr rfl, hn⟩⟩
    · exact ⟨h.1, .inl ⟨count, n + 1, ht, hf, .inl rfl, hn⟩⟩
  | turn version =>
    have hcl := h.turn hc hsize
    have hturned : (turned version (chunkCount size chunkSize)).Leaves key chunkSize size
        ((shelf key b.store).applyAll (commitTxn key (nextInfo chunkSize size version) version).success) := by
      rwa [Leaves, h.1.versionAfter]
    exact hk.hear (.turn key _ version) t h ⟨h.1, .inr ⟨rfl, hcl⟩⟩ fun a _ => hturned
  | remove =>
    have hgone : ∀ k, Owns key k → (shelf key b.store).applyAll (deleteTxn key).success k = none :=
      fun k => (shelf key b.store).none_of_remove
    exact hk.hear (.remove key) t h ⟨0, 0, .of_gone hgone⟩ fun a _ => hgone

end Stage

/-! ## Tasks -/

namespace Scene

section
variable {φ : Call → Type} {α : Type} {chunkSize size : Nat} {Q : α → Stage → Prop} {s s' : Store}
  {p : Prog Call.Answer φ α}

/-- A program that goes on at a stage which left the shelf as it is. -/
def Stands (key : String) (chunkSize size : Nat) (Q : α → Stage → Prop) (s : Store)
    (p : Prog Call.Answer φ α) : Prop :=
  ∃ R v st, s.Pinned R v ∧ st.Leaves key chunkSize size (shelf key s) ∧
    p.Ensures (stages R v key chunkSize size) Q st

theorem Stands.leads (h : Stands key chunkSize size Q s p) (hl : s.Leads (Foreign key) s') :
    Stands key chunkSize size Q s' p := by
  obtain ⟨R, v, st, hp, hs, he⟩ := h
  exact ⟨R, v, st, hp.leads hl, (Kept.shelf_leads hl).symm ▸ hs, he⟩

theorem Stands.tidy (h : Stands key chunkSize size Q s p) :
    ∃ version count, Tidy key (shelf key s) version count := by
  obtain ⟨_, _, _, _, hs, _⟩ := h
  exact hs.tidy

theorem Stands.step (hc : 0 < chunkSize) (hsize : size < 9223372036854775808) {σ : Site}
    (hk : Kept key σ.store) (h : Stands key chunkSize size Q σ.store p) (target : Option Live) (t : Turn) :
    Stands key chunkSize size Q (p.step (Site.serve target t) t σ).2.store
      (p.step (Site.serve target t) t σ).1 := by
  obtain ⟨R, v, st, hp, hs, he⟩ := h
  have hstep := Prog.Ensures.step_beside (Site.serve target t)
    (fun st σ => Kept key σ.store ∧ σ.store.Pinned R v ∧ st.Leaves key chunkSize size (shelf key σ.store))
    he t ⟨hk, hp, hs⟩ fun i hm => ?_
  · obtain ⟨st', ⟨_, hp', hs'⟩, he'⟩ := hstep
    exact ⟨R, v, st', hp', hs', he'⟩
  · obtain ⟨hk', hs'⟩ := hs.serve hc hsize hk hm t
    exact ⟨_, ⟨Backend.hears_serve hk.sound hp t i, rfl⟩, hk', hp.leads (Site.leads_serve hk.sound target t i), hs'⟩

end

variable {φ : Call → Type} {x y : Scene φ}

def Orderly (key : String) (s : Store) : Task φ → Prop
  | .idle => ∃ version count, Tidy key (shelf key s) version count
  | .put _ l p => 0 < l.chunkSize ∧ l.size < 9223372036854775808 ∧
    Stands key l.chunkSize l.size (fun x st => ∀ info, x = .ok info →
      ∃ version, st = .turned version (chunkCount l.size l.chunkSize) ∧
        info = nextInfo l.chunkSize l.size version) s p
  | .delete _ p => Stands key 1 0 (fun x st => x = .ok () → st = .removed) s p

theorem Orderly.tidy {s : Store} {task : Task φ} (h : Orderly key s task) :
    ∃ version count, Tidy key (shelf key s) version count := by
  cases task with
  | idle => exact h
  | put before l p => exact h.2.2.tidy
  | delete before p => exact Stands.tidy h

theorem Orderly.leads {s s' : Store} {task : Task φ} (h : Orderly key s task) (hl : s.Leads (Foreign key) s') :
    Orderly key s' task := by
  cases task with
  | idle =>
    obtain ⟨version, count, ht⟩ := h
    exact ⟨version, count, (Kept.shelf_leads hl).symm ▸ ht⟩
  | put before l p => exact ⟨h.1, h.2.1, h.2.2.leads hl⟩
  | delete before p => exact Stands.leads h hl

theorem versionOf_live {s : Store} {lives : Lives} (h : Good key s lives) :
    versionOf (shelf key s (Utf8.encode (infoKey key))) = lives.live.elim 0 (·.version) := by
  have hs := h.shows_latest
  rw [shelf_of_owns owns_infoKey, ← Store.get?_latest]
  cases hl : lives.live with
  | none =>
    rw [hl] at hs
    rw [hs]
    rfl
  | some l =>
    rw [hl] at hs
    obtain ⟨hf, _, ⟨r, hr, hval⟩, _⟩ := hs
    rw [hr, versionOf, Option.map_some, Option.bind_some, hval, Info.ofBytes?_toBytes hf.info]
    rfl

theorem Orderly.step (hk : Keeps key x) (h : Orderly key x.site.store x.task) (hs : Step key x y) :
    Orderly key y.site.store y.task := by
  cases hs with
  | other σ task now m hm => exact h.leads (hk.good.leads_move now hm)
  | beginPut σ task c size source content hs hc hsize hversion =>
    obtain ⟨version, count, ht⟩ := h.tidy
    obtain ⟨R, v, hp, hv, hr, _⟩ := hs
    have hver := ht.recorded.versionOf.symm.trans (versionOf_live hk.good)
    refine ⟨hc, hsize, R, v, .looking, hp, ⟨version, count, ht, ht.version_nonneg, ?_⟩, ensures_put_stages hv hr⟩
    rw [hver]
    exact hversion
  | beginDelete σ task c =>
    exact ⟨_, _, .removing, hk.good.sound.pinned, h.tidy, ensures_delete_stages⟩
  | turnPut σ before l p t => exact ⟨h.1, h.2.1, h.2.2.step h.1 h.2.1 hk.good.kept (some l) t⟩
  | turnDelete σ before p t => exact Stands.step Nat.one_pos (by decide) hk.good.kept h none t

theorem Reached.orderly (h : Reached key x) : Orderly key x.site.store x.task := by
  induction h with
  | start names =>
    have hn : ∀ k, shelf key (.ofMembers names) k = none := fun k => ite_self none
    exact ⟨0, 0, .of_gone fun k _ => hn k⟩
  | step h hs ih => exact ih.step h.keeps hs

/-! ## Nothing is left behind -/

/-- All that lies under the key at any time is of the live version, just its chunks, or of the next one. A put
that ended well has left the chunks of its version and nothing else, and a deletion nothing at all. -/
theorem chunks_do_not_leak (h : Reached key x) :
    (∃ version count, Tidy key (shelf key x.site.store) version count) ∧
    (∀ before l info, x.task = .put before l (.done (.ok info)) →
      versionOf (shelf key x.site.store (Utf8.encode (infoKey key))) = info.version ∧
      ∀ k, Utf8.encode (chunksHead key) <+: k → ((x.site.store.current k).isSome ↔
        ∃ i : Nat, (i : Int) < info.count ∧ k = Utf8.encode (chunkKey key info.version i))) ∧
    (∀ before, x.task = .delete before (.done (.ok ())) → ∀ k, Owns key k → x.site.store.current k = none) := by
  have hl := h.orderly
  refine ⟨hl.tidy, fun before l info ht => ?_, fun before ht k hk => ?_⟩
  · rw [ht] at hl
    obtain ⟨_, _, R, v, st, _, hs, he⟩ := hl
    obtain ⟨version, rfl, rfl⟩ := he st rfl info rfl
    have hs : Clean key (shelf key x.site.store) (versionAfter version) (chunkCount l.size l.chunkSize) := hs
    refine ⟨hs.tidy.recorded.versionOf, fun k hk => ?_⟩
    have hi := hs.isSome_iff hk
    rw [shelf_of_owns (.inr hk), Option.isSome_map] at hi
    rw [hi]
    simp only [nextInfo, Int.ofNat_lt]
  · rw [ht] at hl
    obtain ⟨R, v, st, _, hs, he⟩ := hl
    obtain rfl := he st rfl rfl
    have hs := hs k hk
    rw [shelf_of_owns hk] at hs
    exact Option.map_eq_none_iff.1 hs

/-- A put of two chunks is left before its turn, and one of a single chunk follows. -/
theorem chunks_do_not_leak_shorter_put :
    let c : Client := .ofConfig { Config.standard with chunkSize := 1 }
    let run (l : Live) (σ : Site) := Prog.steps (φ := fun _ => Unit) (Site.serve (some l))
      (List.replicate 4 ⟨0, ⟨0, 0⟩, .answered⟩) (put c "k" l.size (.bytes l.bytes)).run σ
    let left := run ⟨1, 1, 2, [7, 8]⟩ ⟨.ofMembers ["a"], []⟩
    let out := run ⟨1, 1, 1, [9]⟩ left.2
    Reached "k" ⟨out.2, .put none ⟨1, 1, 1, [9]⟩ out.1⟩ ∧ out.1 = .done (.ok ⟨1, 1, 1⟩) ∧
      (left.2.store.current (Utf8.encode (chunkKey "k" 1 1))).isSome ∧
      ∀ k, Utf8.encode (chunksHead "k") <+: k → ((out.2.store.current k).isSome ↔
        ∃ i : Nat, (i : Int) < 1 ∧ k = Utf8.encode (chunkKey "k" 1 i)) := by
  intro c run left out
  have hl : Reached "k" ⟨left.2, .put none ⟨1, 1, 2, [7, 8]⟩ left.1⟩ :=
    .turns _ (.step (.start ["a"]) (.beginPut _ _ c 2 (.bytes [7, 8]) [7, 8]
      (Source.gives_bytes (.ofMembers ["a"]) [7, 8]) (by decide) (by decide) (by decide)))
  have hnone : left.2.lives.live = none := by decide +kernel
  have hb : Step "k" _ _ := .beginPut left.2 (.put none ⟨1, 1, 2, [7, 8]⟩ left.1) c 1 (.bytes [9]) [9]
      (Source.gives_bytes hl.keeps.good.sound [9]) (by decide) (by decide) (by rw [hnone]; decide)
  rw [hnone] at hb
  have h : Reached "k" ⟨out.2, .put none ⟨1, 1, 1, [9]⟩ out.1⟩ := .turns _ (hl.step hb)
  have hd : out.1 = .done (.ok ⟨1, 1, 1⟩) := Prog.eq_done_of_result? (by decide +kernel)
  have hall := (chunks_do_not_leak h).2.1 none ⟨1, 1, 1, [9]⟩ ⟨1, 1, 1⟩ (congrArg (Task.put none _) hd)
  dsimp only at hall
  exact ⟨h, hd, by decide +kernel, hall.2⟩

end Scene

end Keyspace.Chunked
