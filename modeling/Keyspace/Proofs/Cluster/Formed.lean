import Keyspace.Proofs.Run.Arena
import Keyspace.Proofs.Store.Alike
import Mathlib.Data.List.Nodup

/-!
# Clusters

Nothing changes the cluster of a store but a change of its leader and what is set of its hosts (`cluster_move`), and
these keep what was given with the first hosts: ids, addresses, and a leader that is one of them (`Reached.formed`).
So a member is found by its id, its name and its address.
-/

namespace Keyspace

/-! ## What keeps the cluster -/

namespace Store

variable {s : Store}

theorem cluster_commit {e : Edit} (h : e.Stands s) : e.commit.cluster = s.cluster := by
  by_cases hn : e.events = []
  · rw [Edit.commit_of_nil hn, h.unchanged hn]
  · rw [h.commit_eq hn]

theorem cluster_endAll (h : s.Sound) (leases : List Int) : (s.endAll leases).cluster = s.cluster := by
  obtain ⟨_, _, _, _, _, heq⟩ := endAll_eq leases h
  rw [heq]

theorem cluster_expire (h : s.Sound) (now : Nat) : (s.expire now).cluster = s.cluster := cluster_endAll h _

theorem cluster_answer (h : s.Sound) (now : Nat) {c : Call} (hc : ∀ member, c ≠ .moveLeader member) :
    (s.answer now c).2.cluster = s.cluster := by
  have hx : (s.expire now).Sound := (leads_expire h now).1
  have txn : ∀ t, (s.answer now (.txn t)).2.cluster = s.cluster := by
    intro t
    rw [answer_txn, ← cluster_expire h now]
    split
    · rfl
    · exact cluster_commit (hx.stands_applyAll _)
  cases c with
  | put key value lease =>
    rw [answer_put]
    exact txn _
  | deleteRange span =>
    rw [answer_delete]
    exact txn _
  | txn t => exact txn t
  | leaseRevoke lease =>
    rw [answer_leaseRevoke]
    exact cluster_endAll h _
  | moveLeader member => exact absurd rfl (hc member)
  | watch span start =>
    rw [← cluster_expire h now]
    simp only [answer, watch]
    split
    · rfl
    · split <;> rfl
  | leaseGrant ttl =>
    by_cases h0 : ttl ≤ 0
    · rw [answer_leaseGrant_of_le s now h0]
    · rw [answer_grant s now (by omega)]
      exact cluster_expire h now
  | range span revision => exact cluster_expire h now
  | memberList => exact cluster_expire h now
  | endpointStatus endpoint => exact cluster_expire h now

end Store

/-- Moves that a cluster is not to go through while its leadership is changed. -/
def Move.Unsettles : Move → Prop
  | .call (.moveLeader _) | .setResponsive .. | .setLearner .. | .fail _ => True
  | _ => False

theorem Backend.cluster_move {b : Backend} (h : b.store.Sound) (now : Nat) {m : Move} (hm : ¬ m.Unsettles) :
    (b.move now m).store.cluster = b.store.cluster := by
  cases m with
  | call c =>
    rcases b.answer_cases now c with ⟨_, hs⟩ | ⟨_, hs⟩
    · exact congrArg Store.cluster hs
    · exact (congrArg Store.cluster hs).trans (Store.cluster_answer h now fun member he => hm (he ▸ trivial))
  | compact revision =>
    obtain ⟨_, _, _, heq⟩ := b.store.compact_eq revision
    show (b.store.compact revision).cluster = _
    rw [heq]
  | countLeases => exact Store.cluster_expire h now
  | takeNext feed =>
    obtain ⟨_, heq, _⟩ := b.store.onlyFeeds_takeNext feed
    show (b.store.takeNext feed).2.cluster = _
    rw [heq]
  | closeFeed feed => rfl
  | clearFaults => rfl
  | fail rule => rfl
  | setResponsive member responsive => exact absurd trivial hm
  | setLearner member learner => exact absurd trivial hm

/-! ## Hosts -/

/-- What is given with a host and never set. -/
def Host.given (h : Host) : Nat × String × List String := (h.member.id, h.member.name, h.member.clientUrls)

def Member.url (name : String) : String := "mem://" ++ name ++ ":2379"

namespace Cluster

/-- A cluster as it is made, but for who leads, who learns and who answers. -/
structure Formed (c : Cluster) : Prop where
  id_pos : ∀ h ∈ c.hosts, 0 < h.member.id
  ids : (c.hosts.map (·.member.id)).Nodup
  urls : ∀ h ∈ c.hosts, h.member.clientUrls = [Member.url h.member.name]
  led : c.hosts ≠ [] → ∃ h ∈ c.hosts, h.member.id = c.leader

theorem mem_hosts_ofNames {names : List String} {h : Host} (hm : h ∈ (Cluster.ofNames names).hosts) :
    0 < h.member.id ∧ h.member.clientUrls = [Member.url h.member.name] := by
  obtain ⟨⟨name, i⟩, -, rfl⟩ := List.mem_map.1 hm
  exact ⟨Nat.succ_pos i, rfl⟩

theorem formed_ofNames (names : List String) : (Cluster.ofNames names).Formed where
  id_pos _ hm := (mem_hosts_ofNames hm).1
  ids := by
    have hids : (Cluster.ofNames names).hosts.map (·.member.id) = (names.zipIdx.map Prod.snd).map (· + 1) := by
      rw [Cluster.ofNames, List.map_map, List.map_map]
      rfl
    rw [hids, List.zipIdx_map_snd]
    exact List.Nodup.map (fun _ _ h => Nat.succ.inj h) List.nodup_range'
  urls _ hm := (mem_hosts_ofNames hm).2
  led hne := by
    cases names with
    | nil => exact absurd rfl hne
    | cons name names => exact ⟨_, List.mem_cons_self, rfl⟩

variable {c c' : Cluster}

theorem Formed.of_given (hc : c.Formed) (hg : c'.hosts.map Host.given = c.hosts.map Host.given)
    (hl : c'.leader = c.leader) : c'.Formed := by
  have mem : ∀ h' ∈ c'.hosts, ∃ h ∈ c.hosts, h.member.id = h'.member.id ∧ h.member.name = h'.member.name ∧
      h.member.clientUrls = h'.member.clientUrls := by
    intro h' hm
    obtain ⟨h, hm, he⟩ := List.mem_map.1 (hg ▸ List.mem_map_of_mem hm)
    simp only [Host.given, Prod.mk.injEq] at he
    exact ⟨h, hm, he⟩
  have hids : c'.hosts.map (·.member.id) = c.hosts.map (·.member.id) := by
    have := congrArg (List.map Prod.fst) hg
    simpa [Function.comp_def, Host.given] using this
  refine ⟨fun h' hm => ?_, hids ▸ hc.ids, fun h' hm => ?_, fun hne => ?_⟩
  · obtain ⟨h, hm, hid, -⟩ := mem h' hm
    exact hid ▸ hc.id_pos h hm
  · obtain ⟨h, hm, -, hname, hurls⟩ := mem h' hm
    rw [← hurls, ← hname, hc.urls h hm]
  · have hne : c.hosts ≠ [] := fun h0 => hne (List.map_eq_nil_iff.1 (hg.trans (h0 ▸ rfl)))
    obtain ⟨h, hm, he⟩ := hc.led hne
    obtain ⟨h', hm', he'⟩ := List.mem_map.1 (hids ▸ List.mem_map_of_mem (f := fun h : Host => h.member.id) hm)
    exact ⟨h', hm', he'.trans (he.trans hl.symm)⟩

theorem Formed.lead (hc : c.Formed) {h : Host} (hm : h ∈ c.hosts) (term : Nat) :
    ({ c with leader := h.member.id, term } : Cluster).Formed :=
  ⟨hc.id_pos, hc.ids, hc.urls, fun _ => ⟨h, hm, rfl⟩⟩

end Cluster

namespace Store

variable {s : Store}

theorem given_updateHost (s : Store) (name : String) {f : Host → Host} (hf : ∀ h, (f h).given = h.given) :
    (s.updateHost name f).cluster.hosts.map Host.given = s.cluster.hosts.map Host.given := by
  show (updateHost.go name f s.cluster.hosts).map Host.given = _
  induction s.cluster.hosts with
  | nil => rfl
  | cons h hs ih =>
    rw [updateHost.go]
    split
    · rw [List.map_cons, List.map_cons, hf]
    · rw [List.map_cons, List.map_cons, ih]

theorem formed_moveLeader {s' : Store} {member : Nat} (hc : s.cluster.Formed) (h : s.moveLeader member = .ok s') :
    s'.cluster.Formed := by
  unfold moveLeader at h
  cases hf : s.cluster.hosts.find? fun h => h.member.id = member with
  | none =>
    rw [hf] at h
    cases h
  | some host =>
    have hid : host.member.id = member := by simpa using List.find?_some hf
    rw [hf] at h
    simp only at h
    split at h
    · cases h
    · split at h
      · cases h
      · split at h <;> cases h
        · exact hc
        · exact hid ▸ hc.lead (List.mem_of_find?_eq_some hf) _

end Store

theorem Backend.Reached.formed {b : Backend} (h : b.Reached) : b.store.cluster.Formed := by
  induction h with
  | ofMembers names => exact Cluster.formed_ofNames names
  | @move b h now m ih =>
    by_cases hm : m.Unsettles
    · cases m with
      | call c =>
        cases c with
        | moveLeader member =>
          rcases b.answer_cases now (.moveLeader member) with ⟨_, hs⟩ | ⟨_, hs⟩
          · exact (congrArg Store.cluster hs) ▸ ih
          · have hx := Store.cluster_expire h.sound now
            show (b.answer now (.moveLeader member)).2.store.cluster.Formed
            rw [hs]
            simp only [Store.answer]
            cases hl : (b.store.expire now).moveLeader member with
            | error f => exact hx ▸ ih
            | ok s' => exact Store.formed_moveLeader (hx ▸ ih) hl
        | _ => exact hm.elim
      | fail rule => exact ih
      | setResponsive member responsive => exact ih.of_given (b.store.given_updateHost member fun _ => rfl) rfl
      | setLearner member learner => exact ih.of_given (b.store.given_updateHost member fun _ => rfl) rfl
      | _ => exact hm.elim
    · rw [cluster_move h.sound now hm]
      exact ih

/-! ## Finding a host -/

theorem find?_eq_of_unique {α : Type} {l : List α} {p : α → Bool} {a : α} (ha : a ∈ l)
    (hp : ∀ x ∈ l, p x = true ↔ x = a) : l.find? p = some a := by
  cases hf : l.find? p with
  | none => exact absurd ((hp a ha).2 rfl) (List.find?_eq_none.1 hf a ha)
  | some b => rw [(hp b (List.mem_of_find?_eq_some hf)).1 (List.find?_some hf)]

namespace Cluster

variable {c : Cluster} {h : Host}

/-- No two members have the same name. -/
def Named (c : Cluster) : Prop := (c.hosts.map (·.member.name)).Nodup

instance (c : Cluster) : Decidable c.Named := inferInstanceAs (Decidable (List.Nodup _))

theorem Formed.eq_of_id (hc : c.Formed) {h' : Host} (hm : h ∈ c.hosts) (hm' : h' ∈ c.hosts)
    (he : h'.member.id = h.member.id) : h' = h := List.inj_on_of_nodup_map hc.ids hm' hm he

theorem Named.eq_of_name (hn : c.Named) {h' : Host} (hm : h ∈ c.hosts) (hm' : h' ∈ c.hosts)
    (he : h'.member.name = h.member.name) : h' = h := List.inj_on_of_nodup_map hn hm' hm he

theorem Formed.find?_id (hc : c.Formed) (hm : h ∈ c.hosts) :
    (c.hosts.find? fun h' => h'.member.id = h.member.id) = some h :=
  find?_eq_of_unique hm fun h' hm' => by
    rw [decide_eq_true_eq]
    exact ⟨hc.eq_of_id hm hm', fun he => he ▸ rfl⟩

theorem url_inj {name name' : String} : Member.url name = Member.url name' ↔ name = name' := by
  simp [Member.url]

theorem Formed.find?_url (hc : c.Formed) (hn : c.Named) (hm : h ∈ c.hosts) :
    (c.hosts.find? fun h' => h'.member.clientUrls.contains (Member.url h.member.name)) = some h :=
  find?_eq_of_unique hm fun h' hm' => by
    rw [hc.urls h' hm']
    simp only [List.contains_cons, List.contains_nil, Bool.or_false, beq_iff_eq, url_inj]
    exact ⟨fun he => hn.eq_of_name hm hm' he.symm, fun he => he ▸ rfl⟩

end Cluster

end Keyspace
