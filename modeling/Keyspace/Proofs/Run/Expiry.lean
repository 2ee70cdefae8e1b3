import Keyspace.Proofs.Run.Leases
import Keyspace.Proofs.Run.Reading
import Keyspace.Proofs.Store.Alike

/-!
# When leases end is not seen

Leases that are due end when the next call comes in. Whether they end all at once or some of them earlier, what is
left is the same (`matches_expire_expire`), but for the revisions in the log at which the keys went. So reads that
are put into a run change nothing of what its other calls see of the latest view (`expiry_unseen`).
-/

namespace Keyspace

namespace Store

variable {s t u : Store}

/-! ## Leases that end in two goes -/

/-- Each lease that had keys took a revision. -/
theorem EndsInTurn.revision {leases : List Int} (h : s.EndsInTurn leases t) (hn : leases.Nodup) :
    t.revision = s.revision + leases.countP fun lease => s.bound lease ≠ [] := by
  induction leases generalizing s with
  | nil =>
    cases h
    simp
  | cons lease leases ih =>
    obtain ⟨u, hu, ht⟩ := h
    obtain ⟨hlease, hn⟩ := List.nodup_cons.1 hn
    -- the end of the first lease takes no keys of the others
    have hrest : ∀ j ∈ leases, u.bound j = s.bound j := by
      intro j hj
      have hone : s.EndsInTurn [lease] u := ⟨u, hu, rfl⟩
      exact hone.bound fun he => hlease (List.mem_singleton.1 he ▸ hj)
    have hcount : (leases.countP fun j => u.bound j ≠ []) = leases.countP fun j => s.bound j ≠ [] :=
      List.countP_congr fun j hj => by rw [hrest j hj]
    rw [ih ht hn, hu.revision, hcount, List.countP_cons]
    by_cases hb : s.bound lease = []
    · simp [hb]
    · simp [hb]
      omega

theorem nodup_due (s : Store) (now : Nat) : (s.due now).Nodup := SortedMap.keys_nodup _

theorem mem_due_expire (h : s.Sound) (hb : s.BindsAll) {m n : Nat} {lease : Int} :
    lease ∈ (s.expire m).due n ↔ ∃ l, s.leases.get? lease = some l ∧ m < l.deadline ∧ l.deadline ≤ n := by
  rw [mem_due, get?_leases_expire h hb]
  simp only [Option.filter_eq_some_iff, decide_eq_true_eq, and_assoc]

/-- What is due later is due already or still to come. -/
theorem due_perm (h : s.Sound) (hb : s.BindsAll) {m n : Nat} (hmn : m ≤ n) :
    (s.due n).Perm (s.due m ++ (s.expire m).due n) := by
  have hdisj : ∀ j ∈ s.due m, j ∉ (s.expire m).due n := by
    intro j hj hj'
    obtain ⟨l, hl, hle⟩ := s.mem_due.1 hj
    obtain ⟨l', hl', hlt, _⟩ := (mem_due_expire h hb).1 hj'
    cases hl.symm.trans hl'
    omega
  have hnodup : (s.due m ++ (s.expire m).due n).Nodup :=
    List.nodup_append.2 ⟨s.nodup_due m, (s.expire m).nodup_due n, fun a ha b hb he => hdisj a ha (he ▸ hb)⟩
  refine (List.perm_ext_iff_of_nodup (s.nodup_due n) hnodup).2 fun j => ?_
  rw [List.mem_append, mem_due_expire h hb, mem_due, mem_due]
  constructor
  · rintro ⟨l, hl, hle⟩
    by_cases hm : l.deadline ≤ m
    · exact .inl ⟨l, hl, hm⟩
    · exact .inr ⟨l, hl, by omega, hle⟩
  · rintro (⟨l, hl, hle⟩ | ⟨l, hl, _, hle⟩)
    · exact ⟨l, hl, by omega⟩
    · exact ⟨l, hl, hle⟩

theorem nextLease_expire (h : s.Sound) (now : Nat) : (s.expire now).nextLease = s.nextLease := by
  obtain ⟨_, _, _, _, _, heq⟩ := endAll_eq (s.due now) h
  show (s.endAll (s.due now)).nextLease = _
  rw [heq]

theorem matches_expire_expire (h : s.Sound) (hb : s.BindsAll) {m n : Nat} (hmn : m ≤ n) :
    (s.expire n).Matches ((s.expire m).expire n) := by
  have hx : (s.expire m).Sound := (leads_expire h m).1
  have hperm := due_perm h hb hmn
  have once := endsInTurn_expire h hb n
  have first := endsInTurn_expire h hb m
  have second := endsInTurn_expire hx (bindsAll_expire h hb m) n
  have hmem : ∀ j, j ∈ s.due n ↔ j ∈ s.due m ∨ j ∈ (s.expire m).due n := fun j => by
    rw [hperm.mem_iff, List.mem_append]
  constructor
  · -- the leases of the second go have the keys that they had before the first
    have hlater : ∀ j ∈ (s.expire m).due n, (s.expire m).bound j = s.bound j := fun j hj =>
      first.bound fun hj' => (List.nodup_append.1 (hperm.nodup (s.nodup_due n))).2.2 j hj' j hj rfl
    rw [second.revision ((s.expire m).nodup_due n), first.revision (s.nodup_due m), once.revision (s.nodup_due n),
      hperm.countP_eq, List.countP_append, Int.natCast_add, ← Int.add_assoc]
    congr 2
    exact List.countP_congr fun j hj => by rw [hlater j hj]
  · refine SortedMap.ext_get? fun k => ?_
    rw [get?_latest, get?_latest, second.current, first.current, once.current, Option.filter_filter]
    congr 1
    funext r
    simp only [hmem, not_or, Bool.decide_and]
  · refine SortedMap.ext_get? fun j => ?_
    rw [second.get?_leases, first.get?_leases, once.get?_leases]
    by_cases hm : j ∈ s.due m <;> by_cases hn : j ∈ (s.expire m).due n <;> simp [hmem, hm, hn]
  · rw [nextLease_expire hx, nextLease_expire h, nextLease_expire h]

end Store

/-- A read of the latest view. -/
def Call.Peeks : Call → Prop
  | .range _ revision => ∀ r, revision = some r → r ≤ 0
  | _ => False

/-- A call that is answered by the latest view and the leases. -/
def Call.Latest : Call → Prop
  | .put .. | .deleteRange _ | .txn _ | .leaseGrant _ | .leaseRevoke _ => True
  | c => c.Peeks

/-- A call that does no more than to end the leases that are due. -/
def Call.Idles (c : Call) : Prop := c.Peeks ∨ ∃ ttl ≤ 0, c = .leaseGrant ttl

namespace Store

variable {s t : Store}

theorem answer_range_of_le (s : Store) (now : Nat) (span : Span) {r : Int} (hr : r ≤ 0) :
    s.answer now (.range span (some r)) = s.answer now (.range span none) := by
  simp only [answer, read, readRevision, if_pos hr]
  rfl

theorem matches_watch (s : Store) (span : Span) (start : Option Int) : s.Matches (s.watch span start).2 := by
  unfold watch
  split
  · exact ⟨rfl, rfl, rfl, rfl⟩
  · split <;> exact ⟨rfl, rfl, rfl, rfl⟩

theorem matches_moveLeader {member : Nat} {s' : Store} (h : s.moveLeader member = .ok s') : s.Matches s' := by
  unfold moveLeader at h
  split at h
  · cases h
  · split at h
    · cases h
    · split at h
      · cases h
      · split at h <;> cases h <;> exact ⟨rfl, rfl, rfl, rfl⟩

section
variable {now : Nat} (h : (s.expire now).Matches (t.expire now)) (hs : s.Sound) (ht : t.Sound)
include h hs ht

/-- Calls do the same to stores that match once the due leases have ended, -/
theorem Matches.answer {c : Call} (hc : ∀ ttl, c = .leaseGrant ttl → 0 < ttl) :
    (s.answer now c).2.Matches (t.answer now c).2 := by
  cases c with
  | range span revision => exact h
  | memberList => exact h
  | endpointStatus endpoint => exact h
  | put key value lease =>
    rw [answer_put, answer_put]
    exact (h.txn hs ht _).2
  | deleteRange span =>
    rw [answer_delete, answer_delete]
    exact (h.txn hs ht _).2
  | txn x => exact (h.txn hs ht x).2
  | watch span start => exact ((matches_watch _ span start).symm.trans h).trans (matches_watch _ span start)
  | leaseGrant ttl =>
    rw [answer_grant s now (hc ttl rfl), answer_grant t now (hc ttl rfl)]
    refine ⟨h.revision, h.latest, ?_, congrArg (· + 1) h.nextLease⟩
    simp only [grant, h.nextLease, h.leases]
  | leaseRevoke lease =>
    rw [answer_leaseRevoke, answer_leaseRevoke, ends, ends, endAll_append, endAll_append]
    exact h.endAll [lease] (leads_expire hs now).1 (leads_expire ht now).1
  | moveLeader member =>
    have still : ∀ {s : Store}, (s.expire now).Matches (s.answer now (.moveLeader member)).2 := by
      intro s
      simp only [Store.answer]
      cases hm : (s.expire now).moveLeader member with
      | error f => exact .refl _
      | ok s' => exact matches_moveLeader hm
    exact (still.symm.trans h).trans still

/-- and those that the latest view answers hear the same. -/
theorem Matches.heard {c : Call} (hc : c.Latest) : (t.answer now c).1 = (s.answer now c).1 := by
  cases c with
  | range span revision =>
    have now : (t.answer now (.range span none)).1 = (s.answer now (.range span none)).1 := by
      rw [answer_range_latest hs, answer_range_latest ht, h.revision, h.latest]
    cases revision with
    | none => exact now
    | some r =>
      rw [answer_range_of_le s _ span (hc r rfl), answer_range_of_le t _ span (hc r rfl)]
      exact now
  | put key value lease =>
    rw [answer_put, answer_put]
    exact congrArg (Except.map _) (h.txn hs ht _).1
  | deleteRange span =>
    rw [answer_delete, answer_delete, h.latest]
    simp only [(h.txn hs ht _).1]
  | txn x => exact (h.txn hs ht x).1
  | leaseGrant ttl =>
    by_cases h0 : 0 < ttl
    · rw [answer_grant s now h0, answer_grant t now h0]
      simp only [h.nextLease]
    · rw [answer_leaseGrant_of_le s now (Int.not_lt.1 h0), answer_leaseGrant_of_le t now (Int.not_lt.1 h0)]
  | leaseRevoke lease =>
    obtain ⟨hsome, _⟩ := h.revoke? (leads_expire hs now).1 (leads_expire ht now).1 lease
    simp only [Store.answer]
    cases hrs : (s.expire now).revoke? lease with
    | none =>
      cases hrt : (t.expire now).revoke? lease with
      | none => rfl
      | some u => simp [hrs, hrt] at hsome
    | some u =>
      cases hrt : (t.expire now).revoke? lease with
      | none => simp [hrs, hrt] at hsome
      | some v => rfl
  | watch span start => exact hc.elim
  | memberList => exact hc.elim
  | endpointStatus endpoint => exact hc.elim
  | moveLeader member => exact hc.elim

end

end Store

/-! ## Runs -/

/-- The second run makes the moves of the first one, and may read the latest view between them. -/
inductive Peeks : List (Nat × Move) → List (Nat × Move) → Prop
  | nil : Peeks [] []
  | both {l l' : List (Nat × Move)} (now : Nat) (m : Move) (h : Peeks l l') : Peeks ((now, m) :: l) ((now, m) :: l')
  | more {l l' : List (Nat × Move)} (now : Nat) {c : Call} (hc : c.Peeks) (h : Peeks l l') :
      Peeks l ((now, .call c) :: l')

namespace Backend

variable {b b' : Backend} {now : Nat}

/-- Such a call and all other moves leave what is there now, or they end the leases that are due. -/
theorem idle_move (b : Backend) (now : Nat) {m : Move} (hm : ∀ c, m = .call c → c.Idles) :
    b.store.Matches (b.move now m).store ∨ (b.move now m).store = b.store.expire now := by
  cases m with
  | call c =>
    rcases b.answer_cases now c with ⟨_, hs⟩ | ⟨_, hs⟩
    · exact .inl (.of_eq hs)
    · have hstore : (b.move now (.call c)).store = (b.store.answer now c).2 := hs
      rcases hm c rfl with hc | ⟨ttl, h0, rfl⟩
      · cases c with
        | range span revision => exact .inr hs
        | _ => exact hc.elim
      · rw [hstore, Store.answer_leaseGrant_of_le _ _ h0]
        exact .inl (.refl _)
  | compact revision =>
    left
    obtain ⟨_, _, _, heq⟩ := b.store.compact_eq revision
    have hl := b.store.latest_compact revision
    show b.store.Matches (b.store.compact revision)
    rw [heq] at hl ⊢
    exact ⟨rfl, hl, rfl, rfl⟩
  | countLeases => exact .inr rfl
  | takeNext feed =>
    left
    obtain ⟨_, heq, _⟩ := b.store.onlyFeeds_takeNext feed
    show b.store.Matches (b.store.takeNext feed).2
    rw [heq]
    exact ⟨rfl, rfl, rfl, rfl⟩
  | fail _ | clearFaults | closeFeed _ | setResponsive _ _ | setLearner _ _ => exact .inl ⟨rfl, rfl, rfl, rfl⟩

theorem matches_idle (h : b.Reached) {m : Move} (hm : ∀ c, m = .call c → c.Idles) {n : Nat} (hn : now ≤ n) :
    (b.store.expire n).Matches ((b.move now m).store.expire n) := by
  rcases b.idle_move now hm with hs | hs
  · exact hs.expire h.sound (h.move now m).sound n
  · rw [hs]
    exact Store.matches_expire_expire h.sound h.bindsAll hn

/-- From now on, what has come about in the one store will have in the other, once the due leases have ended. -/
structure Evens (b b' : Backend) (now : Nat) : Prop where
  reached : b.Reached
  reached' : b'.Reached
  unfaulted : b.faults = []
  unfaulted' : b'.faults = []
  same : ∀ n, now ≤ n → (b.store.expire n).Matches (b'.store.expire n)

theorem Evens.refl {b : Backend} (h : b.Reached) (hf : b.faults = []) (now : Nat) : b.Evens b now :=
  ⟨h, h, hf, hf, fun _ _ => .refl _⟩

theorem faults_move (hf : b.faults = []) (now : Nat) {m : Move} (hm : ∀ rule, m ≠ .fail rule) :
    (b.move now m).faults = [] := by
  cases m with
  | call c => simp [Backend.move, Backend.answer, hf, meetFault]
  | fail rule => exact absurd rfl (hm rule)
  | clearFaults => rfl
  | _ => exact hf

theorem Evens.peek (h : b.Evens b' now) {m : Nat} (hle : now ≤ m) {c : Call} (hc : c.Peeks) :
    b.Evens (b'.move m (.call c)) m where
  reached := h.reached
  reached' := h.reached'.move m _
  unfaulted := h.unfaulted
  unfaulted' := faults_move h.unfaulted' m nofun
  same n hn := (h.same n (Nat.le_trans hle hn)).trans
    (matches_idle h.reached' (fun _ he => by cases he; exact .inl hc) hn)

theorem Evens.move (h : b.Evens b' now) {m : Nat} (hle : now ≤ m) {mv : Move} (hm : ∀ rule, mv ≠ .fail rule) :
    (b.move m mv).Evens (b'.move m mv) m where
  reached := h.reached.move m mv
  reached' := h.reached'.move m mv
  unfaulted := faults_move h.unfaulted m hm
  unfaulted' := faults_move h.unfaulted' m hm
  same n hn := by
    -- such a call ends the due leases itself, so that it meets equal stores; other moves leave these as they are
    by_cases hcall : ∃ c, mv = .call c ∧ ¬ c.Idles
    · obtain ⟨c, rfl, hc⟩ := hcall
      have hgrant : ∀ ttl, c = .leaseGrant ttl → 0 < ttl := fun ttl he =>
        Int.not_le.1 fun h0 => hc (.inr ⟨ttl, h0, he⟩)
      have hs := (answer_of_unfaulted m (c := c) (by rw [h.unfaulted]; rfl)).2
      have hs' := (answer_of_unfaulted m (c := c) (by rw [h.unfaulted']; rfl)).2
      have ha := (h.same m hle).answer h.reached.sound h.reached'.sound hgrant
      rw [← hs, ← hs'] at ha
      exact ha.expire (h.reached.move m (.call c)).sound (h.reached'.move m (.call c)).sound n
    · have hidle : ∀ c, mv = .call c → c.Idles := fun c he =>
        Classical.byContradiction fun hc => hcall ⟨c, he, hc⟩
      have hs := h.same n (Nat.le_trans hle hn)
      exact ((matches_idle h.reached hidle hn).symm.trans hs).trans (matches_idle h.reached' hidle hn)

theorem Evens.moves {l l' : List (Nat × Move)} (h : Peeks l l') : ∀ {b b' : Backend} {now : Nat},
    b.Evens b' now → (∀ m ∈ l', ∀ rule, m.2 ≠ .fail rule) → (now :: l'.map (·.1)).Pairwise (· ≤ ·) →
      ∃ last, (last = now ∨ last ∈ l'.map (·.1)) ∧ (b.moves l).Evens (b'.moves l') last := by
  induction h with
  | nil => exact fun {_ _ now} he _ _ => ⟨now, .inl rfl, he⟩
  | both m mv _ ih =>
    intro b b' now he hm ht
    obtain ⟨hnow, ht⟩ := List.pairwise_cons.1 ht
    obtain ⟨last, hlast, hl⟩ := ih (he.move (hnow m List.mem_cons_self) (hm _ List.mem_cons_self))
      (fun x hx => hm x (List.mem_cons_of_mem _ hx)) ht
    exact ⟨last, .inr (List.mem_cons.2 hlast), hl⟩
  | more m hc _ ih =>
    intro b b' now he hm ht
    obtain ⟨hnow, ht⟩ := List.pairwise_cons.1 ht
    obtain ⟨last, hlast, hl⟩ := ih (he.peek (hnow m List.mem_cons_self) hc)
      (fun x hx => hm x (List.mem_cons_of_mem _ hx)) ht
    exact ⟨last, .inr (List.mem_cons.2 hlast), hl⟩

/-- Of two runs without faults that differ in reads of the latest view, whenever these come and end leases, each
call that is answered by the latest view and the leases hears the same in both. -/
theorem expiry_unseen (names : List String) {l l' : List (Nat × Move)} (h : Peeks l l')
    (hf : ∀ m ∈ l', ∀ rule, m.2 ≠ .fail rule) {now : Nat} (ht : (l'.map (·.1) ++ [now]).Pairwise (· ≤ ·)) {c : Call}
    (hc : c.Latest) :
    (((ofMembers names).moves l').answer now c).1 = (((ofMembers names).moves l).answer now c).1 := by
  have start : (ofMembers names).Evens (ofMembers names) 0 := .refl (.ofMembers names) rfl 0
  obtain ⟨htimes, _, hnow⟩ := List.pairwise_append.1 ht
  obtain ⟨last, hlast, he⟩ := start.moves h hf (List.pairwise_cons.2 ⟨fun _ _ => Nat.zero_le _, htimes⟩)
  have hle : last ≤ now := by
    rcases hlast with rfl | hlast
    · exact Nat.zero_le now
    · exact hnow last hlast now (List.mem_singleton.2 rfl)
  rw [(answer_of_unfaulted now (by rw [he.unfaulted']; rfl)).1, (answer_of_unfaulted now (by rw [he.unfaulted]; rfl)).1]
  exact (he.same now hle).heard he.reached.sound he.reached'.sound hc

/-- Two leases that end in the order of their deadlines, or by their ids and both at once. -/
theorem expiry_unseen_two_leases :
    let l : List (Nat × Move) := [(0, .call (.leaseGrant 2)), (0, .call (.leaseGrant 1)),
      (0, .call (.put [1] [10] (some 1))), (0, .call (.put [2] [20] (some 2)))]
    let l' : List (Nat × Move) := l ++
      [(1000, .call (.range ⟨[1], none⟩ none)), (2000, .call (.range ⟨[1], none⟩ (some 0)))]
    let b := (ofMembers ["a"]).moves l
    let b' := (ofMembers ["a"]).moves l'
    Peeks l l' ∧ (∀ m ∈ l', ∀ rule, m.2 ≠ .fail rule) ∧ (l'.map Prod.fst ++ [2500]).Pairwise (· ≤ ·) ∧
      b.store.revision = 3 ∧ b'.store.revision = 5 ∧
      (b'.answer 2500 (.put [1] [11] none)).1 = (b.answer 2500 (.put [1] [11] none)).1 ∧
      (b.move 2500 (.call (.put [1] [11] none))).store.revision = 6 ∧
      (b.move 2500 (.call (.put [1] [11] none))).store.log ≠ (b'.move 2500 (.call (.put [1] [11] none))).store.log := by
  intro l l' b b'
  have h : Peeks l l' :=
    .both _ _ (.both _ _ (.both _ _ (.both _ _ (.more _ nofun (.more _ (fun _ h => by cases h; decide) .nil)))))
  have ht : (l'.map Prod.fst ++ [2500]).Pairwise (· ≤ ·) := by decide
  have hf : ∀ m ∈ l', ∀ rule, m.2 ≠ .fail rule := by
    intro m hm rule
    simp only [l', l, List.cons_append, List.nil_append, List.mem_cons, List.not_mem_nil, or_false] at hm
    rcases hm with rfl | rfl | rfl | rfl | rfl | rfl <;> exact nofun
  exact ⟨h, hf, ht, by decide +kernel, by decide +kernel, expiry_unseen _ h hf ht trivial, by decide +kernel,
    by decide +kernel⟩

end Backend

end Keyspace
