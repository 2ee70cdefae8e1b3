import Keyspace.Proofs.Run.Reading
import Keyspace.Proofs.Store.Chronicle
import Keyspace.Proofs.Store.Ending
import Keyspace.Proofs.Store.Transaction

/-!
# Reading the past

A run takes the store from one commit to the next, one revision at a time (`exists_passed`). Read at a revision
that is not compacted, the store answers what its latest view was when it had that revision, in whatever way
the run went on (`read_past_exact`).
-/

namespace Keyspace

/-! ## One revision at a time -/

namespace Store

variable {s t : Store}

theorem revision_commit_le {e : Edit} (h : e.Stands s) : e.commit.revision ≤ s.revision + 1 := by
  have hr := h.revision
  have hs : e.store.revision = s.revision := by rw [h.frame]
  unfold Edit.commit
  split
  · omega
  · exact Int.le_of_eq hr

theorem revision_revoke?_le (h : s.Sound) {lease : Int} (hr : s.revoke? lease = some t) :
    t.revision ≤ s.revision + 1 := by
  rw [revoke?_eq] at hr
  obtain ⟨l, _, rfl⟩ := Option.map_eq_some_iff.1 hr
  have he := revision_commit_le (h.stands_ending lease l)
  exact he

theorem revision_answer_le (h : s.Sound) (now : Nat) (c : Call) :
    (s.answer now c).2.revision ≤ (s.endAll (s.ends now c)).revision + 1 := by
  have hx : (s.expire now).Sound := (leads_expire h now).1
  have still : ∀ {u v : Store}, u.revision = v.revision → u.revision ≤ v.revision + 1 :=
    fun hu => by omega
  have txn : ∀ t : Txn, (s.answer now (.txn t)).2.revision ≤ (s.expire now).revision + 1 := by
    intro t
    rw [answer_txn]
    split
    · exact still rfl
    · exact revision_commit_le (hx.stands_applyAll _)
  cases c with
  | range span revision => exact still rfl
  | memberList => exact still rfl
  | endpointStatus endpoint => exact still rfl
  | put key value lease =>
    rw [answer_put]
    exact txn _
  | deleteRange span =>
    rw [answer_delete]
    exact txn _
  | txn t => exact txn t
  | watch span start =>
    show (s.answer now (.watch span start)).2.revision ≤ (s.expire now).revision + 1
    apply still
    simp only [answer, watch]
    split
    · rfl
    · split <;> rfl
  | leaseGrant ttl =>
    simp only [answer, ends]
    split
    · exact still rfl
    · exact still rfl
  | leaseRevoke lease =>
    rw [answer_leaseRevoke]
    exact still rfl
  | moveLeader member =>
    show (s.answer now (.moveLeader member)).2.revision ≤ (s.expire now).revision + 1
    apply still
    simp only [answer]
    split
    · rfl
    · rename_i u hm
      unfold moveLeader at hm
      split at hm
      · cases hm
      · split at hm
        · cases hm
        · split at hm
          · cases hm
          · split at hm <;> cases hm <;> rfl

theorem leads_of_mem_endings (leases : List Int) : ∀ {s : Store} {e : Ending}, s.Sound → e ∈ s.endings leases →
    e.after.Sound ∧ e.after.Leads (fun _ => True) (s.endAll leases) := by
  induction leases with
  | nil => exact fun _ he => nomatch he
  | cons lease leases ih =>
    intro s e h he
    rw [endings] at he
    rw [endAll_cons]
    cases hr : s.revoke? lease with
    | none =>
      rw [hr] at he
      exact ih h he
    | some t =>
      rw [hr] at he
      have ht := (leads_revoke? h hr).1
      rcases List.mem_cons.1 he with rfl | he
      · exact ⟨ht, (leads_endAll leases ht).mono fun _ _ => trivial⟩
      · exact ih ht he

theorem exists_endings (leases : List Int) : ∀ {s : Store} {r : Int}, s.Sound → s.revision < r →
    r ≤ (s.endAll leases).revision → ∃ e ∈ s.endings leases, e.after.revision = r := by
  induction leases with
  | nil =>
    intro s r _ hlt hle
    have hle : r ≤ s.revision := hle
    omega
  | cons lease leases ih =>
    intro s r h hlt hle
    rw [endAll_cons] at hle
    rw [endings]
    cases hr : s.revoke? lease with
    | none =>
      rw [hr] at hle
      exact ih h hlt hle
    | some t =>
      rw [hr] at hle
      have ht := revision_revoke?_le h hr
      by_cases hrt : t.revision < r
      · obtain ⟨e, he, hrev⟩ := ih (leads_revoke? h hr).1 hrt hle
        exact ⟨e, List.mem_cons_of_mem _ he, hrev⟩
      · exact ⟨_, List.mem_cons_self, by show t.revision = r; omega⟩

end Store

/-! ## The stores that a run passes -/

namespace Backend

variable {b : Backend}

theorem revision_move_le (h : b.store.Sound) (now : Nat) (m : Move) :
    (b.move now m).store.revision ≤ (b.store.endAll (b.ends now m)).revision + 1 := by
  cases m with
  | call c =>
    simp only [move, answer, ends]
    cases meetFault c.name b.faults with
    | none => exact Store.revision_answer_le h now c
    | some k => exact Int.le_of_lt (Int.lt_succ b.store.revision)
  | countLeases => exact Int.le_of_lt (Int.lt_succ (b.store.expire now).revision)
  | compact revision =>
    exact Int.le_trans (Int.le_of_eq (b.store.revision_compact revision)) (Int.le_of_lt (Int.lt_succ b.store.revision))
  | takeNext feed =>
    have hr := (b.store.onlyFeeds_takeNext feed).revision
    exact Int.le_trans (Int.le_of_eq hr) (Int.le_of_lt (Int.lt_succ b.store.revision))
  | _ => exact Int.le_of_lt (Int.lt_succ b.store.revision)

/-- The stores that a run passes: those between its moves, and those after each end of a lease. -/
def passed (b : Backend) : List (Nat × Move) → List Store
  | [] => [b.store]
  | (now, m) :: l => b.store :: ((b.store.endings (b.ends now m)).map (·.after) ++ (b.move now m).passed l)

theorem leads_of_mem_passed (l : List (Nat × Move)) : ∀ {b : Backend} {s : Store}, b.store.Sound →
    s ∈ b.passed l → s.Sound ∧ s.Leads (fun _ => True) (b.moves l).store := by
  induction l with
  | nil =>
    intro b s h hs
    rw [List.mem_singleton.1 hs]
    exact ⟨h, .refl h⟩
  | cons m l ih =>
    intro b s h hs
    have hm := (leads_move h m.1 m.2).1
    rcases List.mem_cons.1 hs with rfl | hs
    · exact ⟨h, leads_moves (m :: l) h⟩
    · rcases List.mem_append.1 hs with hs | hs
      · obtain ⟨e, he, rfl⟩ := List.mem_map.1 hs
        have hon := (leads_move_of_ends h m.1 m.2).mono (Q := fun _ => True) fun _ _ => trivial
        obtain ⟨hend, hall⟩ := Store.leads_of_mem_endings _ h he
        exact ⟨hend, hall.trans (hon.trans (leads_moves l hm))⟩
      · exact ih hm hs

theorem exists_passed (l : List (Nat × Move)) : ∀ {b : Backend} {r : Int}, b.store.Sound → b.store.revision ≤ r →
    r ≤ (b.moves l).store.revision → ∃ s ∈ b.passed l, s.revision = r := by
  induction l with
  | nil =>
    intro b r _ h1 h2
    exact ⟨b.store, List.mem_cons_self, Int.le_antisymm h1 h2⟩
  | cons m l ih =>
    intro b r h h1 h2
    by_cases hr : (b.move m.1 m.2).store.revision ≤ r
    · obtain ⟨s, hs, he⟩ := ih (leads_move h m.1 m.2).1 hr h2
      exact ⟨s, List.mem_cons_of_mem _ (List.mem_append_right _ hs), he⟩
    -- The move jumps over the revision: it was there when a lease had ended.
    · by_cases hfirst : b.store.revision = r
      · exact ⟨b.store, List.mem_cons_self, hfirst⟩
      · have hle := revision_move_le h m.1 m.2
        obtain ⟨e, he, hrev⟩ := Store.exists_endings (b.ends m.1 m.2) h (r := r) (by omega) (by omega)
        exact ⟨e.after, List.mem_cons_of_mem _ (List.mem_append_left _ (List.mem_map_of_mem he)), hrev⟩

/-! ## Reading -/

/-- What a backend that passed the stores `passed` has to say of the past. -/
structure ReadsPast (passed : List Store) (b : Backend) (now : Nat) (span : Span) (r : Int) : Prop where
  /-- Reading ends the leases that are due, and that is all it does. -/
  after : (b.answer now (.range span (some r))).2 =
    { b with store := b.store.expire now, calls := .range :: b.calls }
  /-- A view that was there is read as it was. -/
  exact : 1 ≤ r → (b.store.expire now).floor ≤ r → r ≤ (b.store.expire now).revision →
    (∃ s ∈ passed, s.revision = r) ∧ ∀ s ∈ passed, s.revision = r →
      (b.answer now (.range span (some r))).1 =
        .ok ⟨(b.store.expire now).revision, (s.latest.filter fun k _ => span.contains k).values⟩
  compacted : 0 < r → r < (b.store.expire now).floor →
    (b.answer now (.range span (some r))).1 = .error (.revisionCompacted r (b.store.expire now).floor)
  future : (b.store.expire now).revision < r →
    (b.answer now (.range span (some r))).1 = .error (.invalidRequest ("required revision " ++ toString r
      ++ " is a future revision (current " ++ toString (b.store.expire now).revision ++ ")"))

theorem answer_range_of_unfaulted (b : Backend) (now : Nat) (span : Span) (r : Option Int)
    (h : meetFault .range b.faults = none) :
    b.answer now (.range span r) =
      (((b.store.expire now).readRevision r).map fun n =>
          ⟨(b.store.expire now).revision,
            (((b.store.expire now).asOf n).filter fun k _ => span.contains k).values⟩,
        { b with store := b.store.expire now, calls := .range :: b.calls }) := by
  have hn : (Call.range span r).name = .range := rfl
  simp only [answer, hn, h, Store.answer, Store.read_eq]
  cases (b.store.expire now).readRevision r <;> rfl

/-- The past that is not compacted is read as it was. -/
theorem read_past_exact (names : List String) (l : List (Nat × Move)) (now : Nat) (span : Span) (r : Int)
    (h : meetFault .range ((ofMembers names).moves l).faults = none) :
    ReadsPast ((ofMembers names).passed (l ++ [(now, .call (.range span (some r)))])) ((ofMembers names).moves l) now
      span r := by
  obtain ⟨b, hb⟩ : ∃ b, b = (ofMembers names).moves l := ⟨_, rfl⟩
  rw [← hb] at h ⊢
  have hs : b.store.Sound := hb ▸ (leads_moves l (.ofMembers names)).1
  have hfloor := (Store.leads_expire hs now).1.floor_nonneg
  have hle := (Store.leads_expire hs now).1.floor_le
  have ha := b.answer_range_of_unfaulted now span (some r) h
  have hlast : ((ofMembers names).moves (l ++ [(now, .call (.range span (some r)))])).store = b.store.expire now := by
    rw [moves_append, ← hb]
    show (b.answer now (.range span (some r))).2.store = _
    rw [ha]
  refine ⟨by rw [ha], fun h1 hf hr => ⟨?_, fun m hm he => ?_⟩, fun h0 hf => ?_, fun hr => ?_⟩
  · apply exists_passed _ (.ofMembers names) h1
    rwa [hlast]
  · obtain ⟨hm, hlead⟩ := leads_of_mem_passed _ (.ofMembers names) hm
    rw [hlast] at hlead
    have hview : (b.store.expire now).asOf r = m.latest := by
      rw [hlead.past hf (Int.le_of_eq he.symm), ← he, hm.asOf_revision]
    have hat : (b.store.expire now).readRevision (some r) = .ok r := by
      simp only [Store.readRevision]
      rw [if_neg (by omega), if_neg (by omega), if_neg (by omega)]
    rw [ha, hat, ← hview]
    rfl
  · have hat : (b.store.expire now).readRevision (some r) =
        .error (.revisionCompacted r (b.store.expire now).floor) := by
      simp only [Store.readRevision]
      rw [if_neg (by omega), if_pos hf]
    rw [ha, hat]
    rfl
  · have hpos := (Store.leads_expire hs now).1.revision_pos
    rw [ha]
    simp only [Store.readRevision]
    rw [if_neg (by omega), if_neg (by omega), if_pos hr]
    rfl

/-- A key is written twice at one revision, which is the floor then, and goes with its lease when it is read. -/
theorem read_past_exact_expired :
    let l : List (Nat × Move) := [(0, .call (.leaseGrant 5)),
      (0, .call (.txn (.always [.put [1] [10] (some 1), .put [1] [11] (some 1)]))), (0, .compact 2)]
    let b := (ofMembers ["a"]).moves l
    let c : Call := .range ⟨[1], some [0]⟩ (some 2)
    meetFault .range b.faults = none ∧
      ReadsPast ((ofMembers ["a"]).passed (l ++ [(5000, .call c)])) b 5000 ⟨[1], some [0]⟩ 2 ∧
      @Except.toOption _ RangeAnswer (b.answer 5000 c).1 = some ⟨3, [⟨[1], [11], 2, 2, 2, 1⟩]⟩ := by
  intro l b c
  have h : meetFault .range b.faults = none := by decide +kernel
  exact ⟨h, read_past_exact _ l 5000 _ 2 h, by decide +kernel⟩

end Backend

end Keyspace
