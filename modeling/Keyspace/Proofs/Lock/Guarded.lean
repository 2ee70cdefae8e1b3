import Keyspace.Proofs.Lock.Record
import Keyspace.Proofs.Lock.Vying
import Keyspace.Proofs.Store.Ending

/-!
# A key that is guarded

A key is guarded if it is bound to leases by transactions that find it absent, and given free by
nothing but the ends of leases. Each hold then lasts until its own lease ends, and the next begins
later (`Guarded`). Moves that write elsewhere keep this, as do ends of leases and takes.
-/

namespace Keyspace

namespace Hold

/-- The views from the hold's revision to before `stop` have its record. -/
def Shown (h : Hold) (k : Bytes) (s : Store) (stop : Int) : Prop :=
  ∀ r, h.revision ≤ r → r < stop → s.floor ≤ r →
    ∃ x, (s.asOf r).get? k = some x ∧ x.lease = h.lease ∧ x.modRevision = h.revision

structure Lasts (h : Hold) (k : Bytes) (s : Store) : Prop where
  begun : h.revision ≤ s.revision
  shown : h.Shown k s (s.revision + 1)

structure Over (h : Hold) (k : Bytes) (ended : List Ending) (s : Store) (e : Ending) (d : Int) : Prop where
  mem : e ∈ ended
  lease : e.lease = h.lease
  deletes : e.Deletes k d
  lt : h.revision < d
  le : d ≤ s.revision
  shown : h.Shown k s d
  gone : s.leases.get? h.lease = none
  old : h.lease < s.nextLease

def Before (k : Bytes) (ended : List Ending) (h h' : Hold) : Prop :=
  h.lease ≠ h'.lease ∧ ∃ e ∈ ended, e.lease = h.lease ∧ ∃ d, e.Deletes k d ∧ h.revision < d ∧ d < h'.revision

variable {h h' : Hold} {k : Bytes} {ended ended' : List Ending} {s t : Store} {P : Event → Prop}

theorem Shown.leads (hs : h.Shown k s stop) (hl : s.Leads P t) (hle : stop ≤ s.revision + 1) : h.Shown k t stop := by
  intro r hr hstop hf
  have hfl := hl.floor_le
  rw [hl.past hf (by omega)]
  exact hs r hr hstop (by omega)

theorem Lasts.current (hb : h.Lasts k s) (hs : s.Sound) :
    ∃ x, s.current k = some x ∧ x.lease = h.lease ∧ x.modRevision = h.revision := by
  have hx := hb.shown s.revision hb.begun (by omega) hs.floor_le
  rwa [hs.asOf_revision, Store.get?_latest] at hx

theorem Over.leads (ho : h.Over k ended s e d) (hl : s.Leads P t) (hsub : ∀ e ∈ ended, e ∈ ended') :
    h.Over k ended' t e d where
  mem := hsub e ho.mem
  lease := ho.lease
  deletes := ho.deletes
  lt := ho.lt
  le := Int.le_trans ho.le hl.revision_le
  shown := ho.shown.leads hl (by have := ho.le; omega)
  gone := (hl.gone ho.gone ho.old).1
  old := (hl.gone ho.gone ho.old).2

theorem Before.mono (hb : Before k ended h h') (hsub : ∀ e ∈ ended, e ∈ ended') : Before k ended' h h' := by
  obtain ⟨hne, e, he, hrest⟩ := hb
  exact ⟨hne, e, hsub e he, hrest⟩

end Hold

/-- The holds that were won of a key and the leases that ended, up to where the store is. -/
structure Guarded (k : Bytes) (won : List Hold) (ended : List Ending) (s : Store) : Prop where
  sound : s.Sound
  locks : ∀ r, s.floor ≤ r → r ≤ s.revision → ∀ x, (s.asOf r).get? k = some x → x.lease ≠ 0 ∧ x.NamesLease
  stands : ∀ h ∈ won, h.Lasts k s ∨ ∃ e d, h.Over k ended s e d
  apart : won.Pairwise (Hold.Before k ended)

namespace Guarded

variable {k : Bytes} {won : List Hold} {ended : List Ending} {s t : Store}

theorem ofMembers (names : List String) : Guarded k [] [] (.ofMembers names) where
  sound := .ofMembers names
  locks r _ _ x hx := by cases hx
  stands h hm := by cases hm
  apart := .nil

theorem elsewhere (h : Guarded k won ended s) {P : Event → Prop} (hl : s.Leads P t)
    (hk : ∀ e, P e → e.record.key ≠ k) {ended' : List Ending} (hsub : ∀ e ∈ ended, e ∈ ended') :
    Guarded k won ended' t where
  sound := hl.1
  locks r hf hr x hx := by
    have hfl := hl.floor_le
    have hsf := h.sound.floor_le
    rw [hl.get?_asOf_min h.sound hk hf hr] at hx
    exact h.locks _ (by omega) (by omega) x hx
  stands g hm := by
    rcases h.stands g hm with hb | ⟨e, d, ho⟩
    · refine .inl ⟨Int.le_trans hb.begun hl.revision_le, fun r hr hstop hf => ?_⟩
      have hfl := hl.floor_le
      have hsf := h.sound.floor_le
      have hg := hb.begun
      rw [hl.get?_asOf_min h.sound hk hf (by omega)]
      exact hb.shown _ (by omega) (by omega) (by omega)
    · exact .inr ⟨e, d, ho.leads hl hsub⟩
  apart := h.apart.imp fun hb => hb.mono hsub

theorem ending (h : Guarded k won ended s) {lease : Int} (hr : s.revoke? lease = some t) :
    Guarded k won (ended ++ [⟨lease, s, t⟩]) t := by
  have hsub : ∀ e ∈ ended, e ∈ ended ++ [⟨lease, s, t⟩] := fun e he => List.mem_append_left _ he
  rcases Store.revoke?_cases h.sound hr k with hl | ⟨⟨x, hx, hlease⟩, hgone, hrev⟩
  · exact h.elsewhere hl (fun _ he => he) hsub
  · have hl := Store.leads_revoke? h.sound hr
    have hsound := hl.1
    refine ⟨hsound, fun r hf hle y hy => ?_, fun g hm => .inr ?_, h.apart.imp fun hb => hb.mono hsub⟩
    · by_cases he : r ≤ s.revision
      · have hfl := hl.floor_le
        rw [hl.past hf he] at hy
        exact h.locks r (by omega) he y hy
      · have he : r = t.revision := by omega
        rw [he, hsound.asOf_revision, Store.get?_latest, hgone] at hy
        cases hy
    · rcases h.stands g hm with hb | ⟨e, d, ho⟩
      · obtain ⟨y, hy, hylease, _⟩ := hb.current h.sound
        rw [hx] at hy
        cases hy
        have hlive : (s.leases.get? lease).isSome := by
          rw [Store.revoke?_eq] at hr
          obtain ⟨l, hl, _⟩ := Option.map_eq_some_iff.1 hr
          rw [hl]
          rfl
        have hold : g.lease = lease := by rw [← hylease, hlease]
        have hgl := Store.get?_leases_revoke? h.sound hr
        have hnext : s.nextLease ≤ t.nextLease := by
          obtain ⟨_, bs, ha, _⟩ := hl
          exact ha.nextLease
        have hlt := (h.sound.leased lease hlive).2
        have hbegun := hb.begun
        refine ⟨⟨lease, s, t⟩, t.revision, ?_, hold.symm, ⟨hr, ⟨x, hx, hlease⟩, hgone, by simp only; omega, rfl⟩, by omega,
          Int.le_refl _, ?_, ?_, ?_⟩
        · exact List.mem_append_right _ List.mem_cons_self
        · rw [hrev]
          exact hb.shown.leads hl (Int.le_refl _)
        · rw [hold]
          exact hgl
        · omega
      · exact ⟨e, d, ho.leads hl hsub⟩

theorem endAll (h : Guarded k won ended s) (leases : List Int) :
    Guarded k won (ended ++ s.endings leases) (s.endAll leases) :=
  Store.endings_inv (I := fun es s => Guarded k won es s) (fun h hr => h.ending hr) leases h

/-! ## Takes -/

theorem over_of_absent (h : Guarded k won ended s) (ha : s.current k = none) {g : Hold} (hg : g ∈ won) :
    ∃ e d, g.Over k ended s e d := by
  rcases h.stands g hg with hb | ho
  · obtain ⟨x, hx, _⟩ := hb.current h.sound
    rw [ha] at hx
    cases hx
  · exact ho

theorem take (h : Guarded k won ended s) (ha : s.current k = none) {l : Lock} (hl : l.lease ≠ 0)
    (hm : s.missingLease? [.put k l.toBytes (some l.lease)] = none) :
    Guarded k won ended (s.commit [.put k l.toBytes (some l.lease)]) ∧
      Guarded k (won ++ [⟨l.lease, s.revision + 1⟩]) ended (s.commit [.put k l.toBytes (some l.lease)]) := by
  have hlead := Store.leads_commit h.sound [.put k l.toBytes (some l.lease)]
  have hrev := Store.revision_commit_put h.sound k l.toBytes (some l.lease) []
  have hlive : (s.leases.get? l.lease).isSome := by
    unfold Store.missingLease? at hm
    split at hm
    · cases hm
    · rename_i hc
      rw [← SortedMap.contains_eq_isSome]
      simpa [hl] using hc
  generalize hx : (Edit.start s).recordOf k l.toBytes (some l.lease) = x at *
  have hcur : (s.commit [.put k l.toBytes (some l.lease)]).current k = some x := by
    rw [Store.current_commit_put, if_pos rfl, hx]
  have hxl : x.lease = l.lease := by rw [← hx]; rfl
  have hxm : x.modRevision = s.revision + 1 := by rw [← hx]; rfl
  have hxv : x.value = l.toBytes := by rw [← hx]; rfl
  generalize s.commit [.put k l.toBytes (some l.lease)] = t at *
  have hlast : (t.asOf t.revision).get? k = some x := by
    rw [hlead.1.asOf_revision, Store.get?_latest, hcur]
  have hg : Guarded k won ended t := by
    refine ⟨hlead.1, fun r hf hle y hy => ?_, fun g hg => .inr ?_, h.apart⟩
    · by_cases he : r ≤ s.revision
      · have hfl := hlead.floor_le
        rw [hlead.past hf he] at hy
        exact h.locks r (by omega) he y hy
      · rw [show r = t.revision by omega, hlast] at hy
        cases hy
        exact ⟨by rw [hxl]; exact hl, Record.namesLease_of_value hxv hxl⟩
    · obtain ⟨e, d, ho⟩ := h.over_of_absent ha hg
      exact ⟨e, d, ho.leads hlead fun _ he => he⟩
  refine ⟨hg, hg.sound, hg.locks, fun g hm => ?_, ?_⟩
  · rcases List.mem_append.1 hm with hm | hm
    · exact hg.stands g hm
    · rw [List.mem_singleton.1 hm]
      refine .inl ⟨by simp only; omega, fun r hr hstop _ => ?_⟩
      simp only at hr
      rw [show r = t.revision by omega]
      exact ⟨x, hlast, hxl, hxm⟩
  · refine List.pairwise_append.2 ⟨hg.apart, List.pairwise_singleton _ _, fun g hm g' hm' => ?_⟩
    obtain ⟨e, d, ho⟩ := h.over_of_absent ha hm
    rw [List.mem_singleton.1 hm']
    have hd := ho.le
    refine ⟨fun he => ?_, e, ho.mem, ho.lease, d, ho.deletes, ho.lt, by simp only; omega⟩
    have hgone := ho.gone
    rw [he] at hgone
    rw [hgone] at hlive
    cases hlive

end Guarded

end Keyspace
