import Keyspace.Proofs.Store.Edit
import Keyspace.Backend

/-!
# How a store moves on

`Sound` holds of every store that is reached. `Advances s bs s'` says what there is to say of the way
from `s` to `s'` on which the batches `bs` were committed: each took the next revision, views of
revisions not below the floor stand as they were, and each new view is the one before it changed by
its batch. Ways can be put together (`Advances.trans`), and every call is such a way
(`advances_answer`).
-/

namespace Keyspace

/-- What every store that is reached has. -/
structure Store.Sound (s : Store) : Prop where
  revision_pos : 0 < s.revision
  floor_nonneg : 0 ≤ s.floor
  floor_le : s.floor ≤ s.revision
  dated : s.Dated s.revision
  binds : s.BindsSoundly
  leased : ∀ lease, (s.leases.get? lease).isSome → 0 < lease ∧ lease < s.nextLease
  nextLease_pos : 0 < s.nextLease
  logged : ∀ b ∈ s.log, s.floor ≤ b.revision ∧ b.revision ≤ s.revision
  ordered : s.log.Pairwise fun a b => a.revision < b.revision

/-- The way from `s` to `s'`, on which the batches `bs` were committed. -/
structure Store.Advances (s : Store) (bs : List Batch) (s' : Store) : Prop where
  revision : s'.revision = s.revision + bs.length
  numbered : ∀ (i : Nat) b, bs[i]? = some b → b.revision = s.revision + i + 1
  floor : s.floor ≤ s'.floor
  past : ∀ r, s'.floor ≤ r → r ≤ s.revision → s'.asOf r = s.asOf r
  since : ∀ n ≤ bs.length, s'.floor ≤ s.revision + n →
    s'.asOf (s.revision + n) = (bs.take n).foldl Batch.applyTo s.latest
  latest : s'.latest = bs.foldl Batch.applyTo s.latest
  log : s'.log = (s.log ++ bs).filter (s'.floor ≤ ·.revision)
  nextLease : s.nextLease ≤ s'.nextLease
  leased : ∀ lease, (s'.leases.get? lease).isSome → (s.leases.get? lease).isSome ∨ s.nextLease ≤ lease

namespace Store

variable {s s' s'' : Store}

theorem Sound.asOf_revision (h : s.Sound) : s.asOf s.revision = s.latest :=
  asOf_eq_latest fun k l hk p hp => (h.dated k l hk p hp).1

theorem Sound.log_filter (h : s.Sound) : s.log.filter (s.floor ≤ ·.revision) = s.log :=
  List.filter_eq_self.2 fun b hb => by simpa using (h.logged b hb).1

theorem Sound.ofMembers (names : List String) : (ofMembers names).Sound where
  revision_pos := by simp [Store.ofMembers]
  floor_nonneg := Int.le_refl _
  floor_le := by simp [Store.ofMembers]
  dated k l hk := by cases hk
  binds lease key h := by obtain ⟨l, hl, _⟩ := h; cases hl
  leased lease h := by cases h
  nextLease_pos := by simp [Store.ofMembers]
  logged b hb := by cases hb
  ordered := List.Pairwise.nil

/-! ## Putting ways together -/

theorem Advances.still (h : s.Sound) (hr : s'.revision = s.revision) (hf : s'.floor = s.floor)
    (hh : s'.histories = s.histories) (hl : s'.log = s.log) (hn : s.nextLease ≤ s'.nextLease)
    (hlive : ∀ lease, (s'.leases.get? lease).isSome → (s.leases.get? lease).isSome ∨ s.nextLease ≤ lease) :
    s.Advances [] s' where
  revision := by simp [hr]
  numbered i b hb := by simp at hb
  floor := by omega
  past r _ _ := by unfold asOf; rw [hh]
  since n hn _ := by
    have hn : n = 0 := by simpa using hn
    subst hn
    have : s'.asOf s.revision = s.asOf s.revision := by unfold asOf; rw [hh]
    simpa [this] using h.asOf_revision
  latest := by unfold Store.latest; rw [hh]; rfl
  log := by rw [hl, hf, List.append_nil, h.log_filter]
  nextLease := hn
  leased := hlive

theorem Advances.refl (h : s.Sound) : s.Advances [] s :=
  .still h rfl rfl rfl rfl (Int.le_refl _) fun _ => .inl

theorem Advances.trans {bs bs' : List Batch} (h : s.Advances bs s') (h' : s'.Advances bs' s'') :
    s.Advances (bs ++ bs') s'' where
  revision := by rw [h'.revision, h.revision, List.length_append]; omega
  numbered i b hb := by
    by_cases hi : i < bs.length
    · rw [List.getElem?_append_left hi] at hb
      exact h.numbered i b hb
    · rw [List.getElem?_append_right (by omega)] at hb
      have := h'.numbered _ b hb
      have := h.revision
      omega
  floor := Int.le_trans h.floor h'.floor
  past r hf hr := by
    have := h'.floor
    have := h.revision
    rw [h'.past r hf (by omega), h.past r (by omega) hr]
  since n hn hf := by
    have hrev := h.revision
    have hfl := h'.floor
    by_cases hnb : n ≤ bs.length
    · rw [h'.past _ hf (by omega), h.since n hnb (by omega), List.take_append_of_le_length hnb]
    · obtain ⟨m, rfl⟩ : ∃ m, n = bs.length + m := ⟨n - bs.length, by omega⟩
      rw [List.length_append] at hn
      have he : s.revision + ((bs.length + m : Nat) : Int) = s'.revision + m := by omega
      rw [he] at hf ⊢
      rw [h'.since m (by omega) hf, List.take_length_add_append, List.foldl_append, h.latest]
  latest := by rw [h'.latest, h.latest, List.foldl_append]
  log := by
    have hfl := h'.floor
    have hboth : ∀ l : List Batch, (l.filter (s'.floor ≤ ·.revision)).filter (s''.floor ≤ ·.revision) =
        l.filter (s''.floor ≤ ·.revision) := by
      intro l
      rw [List.filter_filter]
      apply List.filter_congr
      intro b _
      rw [← Bool.decide_and, decide_eq_decide]
      omega
    rw [h'.log, h.log, List.filter_append, hboth]
    simp only [List.filter_append, List.append_assoc]
  nextLease := Int.le_trans h.nextLease h'.nextLease
  leased lease hl := by
    rcases h'.leased lease hl with hl | hl
    · exact h.leased lease hl
    · have := h.nextLease
      exact .inr (by omega)

end Store

/-! ## Commits -/

namespace Edit

def batches (e : Edit) : List Batch := if e.events.isEmpty then [] else [⟨e.revision, e.events⟩]

variable {s : Store} {e : Edit}

theorem commit_of_nil (he : e.events = []) : e.commit = e.store := by
  simp [commit, he]

theorem histories_commit (e : Edit) : e.commit.histories = e.store.histories := by
  unfold commit; split <;> rfl

theorem leases_commit (e : Edit) : e.commit.leases = e.store.leases := by
  unfold commit; split <;> rfl

theorem revision_commit (e : Edit) :
    e.commit.revision = if e.events = [] then e.store.revision else e.revision := by
  unfold commit
  by_cases he : e.events = [] <;> simp [he]

theorem log_commit (e : Edit) :
    e.commit.log = e.store.log ++ if e.events = [] then [] else [⟨e.revision, e.events⟩] := by
  unfold commit
  by_cases he : e.events = [] <;> simp [he]

theorem Stands.commit_eq (h : Stands s e) (he : e.events ≠ []) :
    e.commit = { s with
      revision := e.revision
      histories := e.store.histories
      leases := e.store.leases
      log := s.log ++ [⟨e.revision, e.events⟩]
      feeds := s.feeds.map (·.offer ⟨e.revision, e.events⟩) } := by
  unfold commit
  rw [if_neg (by simpa using he), h.frame]

theorem Stands.advances (hs : s.Sound) (h : Stands s e) : s.Advances e.batches e.commit := by
  by_cases he : e.events = []
  · rw [commit_of_nil he, h.unchanged he]
    simpa [batches, he] using Store.Advances.refl hs
  have hlatest : e.commit.latest = e.events.foldl Event.applyTo s.latest := by
    rw [← h.latest]; unfold Store.latest; rw [histories_commit]
  have hb : e.batches = [⟨e.revision, e.events⟩] := by simp [batches, he]
  have hc := h.commit_eq he
  have hfloor : e.commit.floor = s.floor := by rw [hc]
  have hdated : e.commit.Dated e.revision := by
    unfold Store.Dated; rw [histories_commit]; exact h.dated
  rw [hb]
  refine ⟨?_, ?_, ?_, ?_, ?_, hlatest, ?_, ?_, ?_⟩
  · rw [hc]; exact h.revision
  · intro i b hi
    cases i with
    | zero => cases hi; simpa using h.revision
    | succ i => simp at hi
  · omega
  · intro r _ hr
    rw [← h.past r hr]; unfold Store.asOf; rw [histories_commit]
  · intro n hn _
    have hn : n = 0 ∨ n = 1 := by simp at hn; omega
    rcases hn with rfl | rfl
    · have := h.past s.revision (Int.le_refl _)
      rw [hs.asOf_revision] at this
      rw [List.take_zero, List.foldl_nil, ← this]
      unfold Store.asOf; rw [histories_commit]; simp
    · rw [Store.asOf_eq_latest fun k l hk p hp => ?_]
      · exact hlatest
      · have := (hdated k l hk p hp).1
        have := h.revision
        omega
  · have hkeep : s.floor ≤ e.revision := by
      have := hs.floor_le
      have := h.revision
      omega
    rw [hfloor, hc, List.filter_append, hs.log_filter]
    simp [hkeep]
  · exact Int.le_of_eq (by rw [hc])
  · intro lease hl
    rw [leases_commit, h.live] at hl
    exact .inl hl

theorem Stands.sound (hs : s.Sound) (h : Stands s e) : e.commit.Sound := by
  by_cases he : e.events = []
  · rwa [commit_of_nil he, h.unchanged he]
  have hc := h.commit_eq he
  have hrev := h.revision
  have hle := hs.floor_le
  have hfloor : e.commit.floor = s.floor := by rw [hc]
  have hlog : e.commit.log = s.log ++ [⟨e.revision, e.events⟩] := by rw [hc]
  have hnext : e.commit.nextLease = s.nextLease := by rw [hc]
  have hr : e.commit.revision = e.revision := by rw [hc]
  have hpos := hs.revision_pos
  refine ⟨by omega, by rw [hfloor]; exact hs.floor_nonneg, by omega, ?_, ?_, ?_, ?_, ?_, ?_⟩
  · unfold Store.Dated; rw [histories_commit, hr]; exact h.dated
  · intro lease key hb
    have hb : e.store.Binds lease key := by
      unfold Store.Binds at *; rwa [leases_commit] at hb
    have := h.binds lease key hb
    unfold Store.current at *; rwa [histories_commit]
  · intro lease hl
    rw [leases_commit, h.live] at hl
    rw [hnext]; exact hs.leased lease hl
  · rw [hnext]; exact hs.nextLease_pos
  · intro b hb
    rw [hlog] at hb
    rcases List.mem_append.1 hb with hb | hb
    · have := hs.logged b hb
      omega
    · rw [List.mem_singleton.1 hb]
      simp only; omega
  · rw [hlog]
    refine List.pairwise_append.2 ⟨hs.ordered, List.pairwise_singleton _ _, fun a ha b hb => ?_⟩
    have := hs.logged a ha
    rw [List.mem_singleton.1 hb]
    simp only; omega

end Edit

end Keyspace
