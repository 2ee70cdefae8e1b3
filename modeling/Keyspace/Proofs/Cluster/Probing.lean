import Keyspace.Leadership
import Keyspace.Proofs.Cluster.Formed
import Keyspace.Proofs.Lock.Contention
import Mathlib.Data.List.Forall2

/-!
# Probing

As long as nobody else changes the cluster, a listing with the status of each member shows the cluster as it is
(`Holds.yields_members`): who answers, who learns, and who leads if anybody answers at all. A member that does not
answer costs retries, and time.
-/

namespace Keyspace

namespace Arena

/-! ## Programs that end -/

section
variable (plan : Plan) (today : Nat → Instant) {α β : Type}

/-- The program ends, and `Q` says with what and in which arena. -/
def Yields (p : Prog Call.Answer (fun c => Outcome c.Answer) α) (Q : α → Arena → Prop) (w : Arena) : Prop :=
  ∃ a w', p.complete (env plan today) w = some (a, w') ∧ Q a w'

end

section
variable {plan : Plan} {today : Nat → Instant} {α β : Type} {w : Arena}

theorem yields_done {a : α} {Q : α → Arena → Prop} (h : Q a w) : Yields plan today (.done a) Q w := ⟨a, w, rfl, h⟩

theorem complete_call (o : Option Nat) (i : Call)
    (k : Outcome i.Answer → Prog Call.Answer (fun c => Outcome c.Answer) α) :
    (Prog.call o i k).complete (env plan today) w =
      (k ((w.met plan).serve i).1).complete (env plan today) ((w.met plan).serve i).2 :=
  rfl

theorem Yields.bind {p : Prog Call.Answer (fun c => Outcome c.Answer) α}
    {f : α → Prog Call.Answer (fun c => Outcome c.Answer) β} {Q : α → Arena → Prop} {R : β → Arena → Prop}
    (h : Yields plan today p Q w) (hf : ∀ a w', Q a w' → Yields plan today (f a) R w') :
    Yields plan today (p.bind f) R w := by
  obtain ⟨a, w', ha, hq⟩ := h
  obtain ⟨b, w'', hb, hr⟩ := hf a w' hq
  exact ⟨b, w'', by rw [Prog.complete_bind, ha]; exact hb, hr⟩

/-- After a part that does not fail comes the next one. -/
theorem Yields.andThen {a : Action Call.Answer (fun c => Outcome c.Answer) α}
    {f : α → Action Call.Answer (fun c => Outcome c.Answer) β} {Q : α → Arena → Prop} {R : Outcome β → Arena → Prop}
    (h : Yields plan today a.run (fun r w' => ∃ x, r = .ok x ∧ Q x w') w)
    (hf : ∀ x w', Q x w' → Yields plan today (f x).run R w') : Yields plan today (a >>= f).run R w := by
  rw [Action.run_bind]
  refine h.bind ?_
  rintro _ w' ⟨x, rfl, hx⟩
  exact hf x w' hx

theorem Yields.mono {p : Prog Call.Answer (fun c => Outcome c.Answer) α} {Q R : α → Arena → Prop}
    (h : Yields plan today p Q w) (hr : ∀ a w', Q a w' → R a w') : Yields plan today p R w := by
  obtain ⟨a, w', ha, hq⟩ := h
  exact ⟨a, w', ha, hr a w' hq⟩

end

/-! ## A cluster that others leave alone -/

/-- Others leave the cluster as it is, and inject no faults. -/
def Settled (plan : Plan) : Prop := ∀ n t m, (t, m) ∈ plan n → ¬ m.Unsettles

end Arena

/-- Whom a visit asks to move leadership to. -/
def Visit.transferee? : Visit → Option Nat
  | ⟨_, .moveLeader member, _⟩ => some member
  | _ => none

namespace Arena

/-- Whom leadership was asked to move to, each time that it was. -/
def transferees (w : Arena) : List Nat := w.visits.filterMap Visit.transferee?

/-- The cluster is `c`, and whom leadership was asked to move to so far are `ids`. -/
structure Holds (w : Arena) (c : Cluster) (ids : List Nat) : Prop where
  fair : w.Fair
  cluster : w.store.cluster = c
  asked : w.transferees = ids

variable {plan : Plan} {today : Nat → Instant} {w : Arena} {c : Cluster} {ids : List Nat}

theorem cluster_moves (ms : List (Nat × Move)) : ∀ {b : Backend}, b.Reached → (∀ m ∈ ms, ¬ m.2.Unsettles) →
    (b.moves ms).store.cluster = b.store.cluster := by
  induction ms with
  | nil => exact fun _ _ => rfl
  | cons m ms ih =>
    intro b hb hm
    exact (ih (hb.move m.1 m.2) fun m' h' => hm m' (List.mem_cons_of_mem _ h')).trans
      (Backend.cluster_move hb.sound m.1 (hm m List.mem_cons_self))

theorem Holds.met (h : w.Holds c ids) (hp : Settled plan) : (w.met plan).Holds c ids where
  fair := h.fair.met fun n t rule hm => hp n t _ hm trivial
  cluster := by
    refine (cluster_moves _ h.fair.reached fun m hm => ?_).trans h.cluster
    obtain ⟨-, -, t, ht⟩ := mem_others hm
    exact hp _ t _ ht
  asked := h.asked

theorem Holds.wait (h : w.Holds c ids) (t : Nat) : ({ w with now := t } : Arena).Holds c ids :=
  ⟨⟨h.fair.reached, h.fair.unfaulted⟩, h.cluster, h.asked⟩

theorem transferees_serve (w : Arena) (i : Call) :
    (w.serve i).2.transferees = w.transferees ++ (Visit.transferee? ⟨w.now, i, w.store⟩).toList := by
  unfold transferees
  rw [visits_serve, List.filterMap_append]
  cases hv : Visit.transferee? ⟨w.now, i, w.store⟩ <;> simp [hv]

theorem Holds.serve (h : w.Holds c ids) {i : Call} (hi : ∀ member, i ≠ .moveLeader member) :
    (w.serve i).2.Holds c ids := by
  obtain ⟨hfair, -, hs⟩ := h.fair.serve i
  refine ⟨hfair, ?_, ?_⟩
  · rw [hs, Store.cluster_answer h.fair.reached.sound w.now hi, h.cluster]
  · have hv : Visit.transferee? ⟨w.now, i, w.store⟩ = none := by
      cases i with
      | moveLeader member => exact absurd rfl (hi member)
      | _ => rfl
    rw [transferees_serve, hv, h.asked]
    exact List.append_nil ids

/-- A call is made until it succeeds or there are no retries left, and each answer is one that the cluster gives. -/
theorem Holds.yields_call (client : Client) {i : Call} (hi : ∀ member, i ≠ .moveLeader member) (hp : Settled plan)
    {P : Outcome i.Answer → Prop} (hP : ∀ v : Arena, v.Holds c ids → P (v.store.answer v.now i).1)
    (h : w.Holds c ids) : Yields plan today (client.call i).run (fun r w' => P r ∧ w'.Holds c ids) w := by
  show Yields plan today (client.policy.runWith i client.policy.retries) _ w
  have attempt : ∀ {w : Arena}, w.Holds c ids →
      P ((w.met plan).serve i).1 ∧ ((w.met plan).serve i).2.Holds c ids := by
    intro w h
    have hm := h.met hp
    exact ⟨(hm.fair.serve i).2.1 ▸ hP _ hm, hm.serve hi⟩
  induction client.policy.retries generalizing w with
  | zero => exact ⟨_, _, rfl, attempt h⟩
  | succ n ih =>
    obtain ⟨hr, hw⟩ := attempt h
    unfold Yields
    rw [Retry.Policy.runWith, complete_call]
    cases ha : ((w.met plan).serve i).1 with
    | ok a => exact ⟨_, _, rfl, ha ▸ hr, hw⟩
    | error f =>
      simp only
      by_cases hf : f.isTransient = true
      · rw [if_pos hf]
        exact ih (hw.wait _)
      · rw [if_neg hf]
        exact ⟨_, _, rfl, ha ▸ hr, hw⟩

end Arena

/-! ## What members tell -/

/-- What is heard when a host is probed. -/
def Host.Tells (h : Host) (c : Cluster) : Outcome EndpointStatus → Prop
  | .ok a => h.responsive = true ∧ a.leader = c.leader ∧ a.term = c.term ∧ a.learner = h.member.learner
  | .error _ => h.responsive = false

theorem Store.tells_endpointStatus {s : Store} {c : Cluster} (hs : s.Sound) (hc : s.cluster = c) (hf : c.Formed)
    (hn : c.Named) {h : Host} (hm : h ∈ c.hosts) (now : Nat) :
    h.Tells c (s.answer now (.endpointStatus (Member.url h.member.name))).1 := by
  have hx : (s.expire now).cluster = c := (cluster_expire hs now).trans hc
  simp only [answer, endpointStatus, hx, hf.find?_url hn hm]
  cases hr : h.responsive with
  | true => exact ⟨hr, rfl, rfl, rfl⟩
  | false => exact hr

namespace Cluster

/-- Somebody answers. -/
def answers (c : Cluster) : Bool := c.hosts.any (·.responsive)

/-- What is held of the leader after a host was probed. -/
def hear (c : Cluster) (claim : LeaderClaim) (h : Host) : LeaderClaim :=
  if h.responsive = true ∧ claim.term ≤ c.term then ⟨c.leader, c.term⟩ else claim

theorem foldl_hear (c : Cluster) (hs : List Host) : ∀ {claim : LeaderClaim}, claim.term ≤ c.term →
    hs.foldl c.hear claim = if hs.any (·.responsive) then ⟨c.leader, c.term⟩ else claim := by
  induction hs with
  | nil => exact fun _ => rfl
  | cons h hs ih =>
    intro claim hle
    rw [List.foldl_cons, List.any_cons]
    by_cases hr : h.responsive = true
    · rw [show c.hear claim h = ⟨c.leader, c.term⟩ from if_pos ⟨hr, hle⟩, ih (Nat.le_refl _), hr]
      simp
    · rw [show c.hear claim h = claim from if_neg fun hc => hr hc.1, ih hle]
      simp [hr]

/-- What a listing shows of a host: who it is, whether it answers and whether it leads. -/
def look (c : Cluster) (h : Host) : Member × Bool × Bool :=
  (h.member, h.responsive, c.answers && decide (h.member.id = c.leader))

end Cluster

def ClusterMember.look (m : ClusterMember) : Member × Bool × Bool := (m.member, m.responds, m.leads)

/-- How a host is listed once it was probed. -/
structure Host.Probed (h : Host) (m : ClusterMember) : Prop where
  member : m.member = h.member
  status : ∃ st, m.status = some st ∧ st.leader = false ∧ st.responsive = h.responsive

/-- Nobody is marked if nobody answers, since no id is zero. -/
theorem Host.Probed.look_markLeader {c : Cluster} {h : Host} {m : ClusterMember} (hp : h.Probed m)
    (hid : 0 < h.member.id) :
    (Client.markLeader (if c.answers then ⟨c.leader, c.term⟩ else ⟨0, 0⟩ : LeaderClaim).leader m).look = c.look h := by
  obtain ⟨hm, st, hst, hl, hr⟩ := hp
  have h0 : h.member.id ≠ 0 := Nat.ne_of_gt hid
  unfold Client.markLeader Cluster.look ClusterMember.look ClusterMember.responds ClusterMember.leads
  rw [hm]
  cases ha : c.answers with
  | true => by_cases he : h.member.id = c.leader <;> simp [he, hm, hst, hl, hr]
  | false => simp [h0, hm, hst, hl, hr]

theorem Host.Probed.look_markAll {c : Cluster} {hs : List Host} {ms : List ClusterMember}
    (hall : List.Forall₂ Host.Probed hs ms) (hid : ∀ h ∈ hs, 0 < h.member.id) :
    (ms.map (Client.markLeader (if c.answers then ⟨c.leader, c.term⟩ else ⟨0, 0⟩ : LeaderClaim).leader)).map
      ClusterMember.look = hs.map c.look := by
  induction hall with
  | nil => rfl
  | cons hp _ ih =>
    rw [List.map_cons, List.map_cons, List.map_cons, hp.look_markLeader (hid _ List.mem_cons_self),
      ih fun h hm => hid h (List.mem_cons_of_mem _ hm)]

namespace Arena

variable {plan : Plan} {today : Nat → Instant} {w : Arena} {c : Cluster} {ids : List Nat}

section
variable (client : Client) (hp : Settled plan) (hf : c.Formed) (hn : c.Named)
include hp hf hn

theorem Holds.yields_probe {h : Host} (hm : h ∈ c.hosts) (claim : LeaderClaim) (hw : w.Holds c ids) :
    Yields plan today (client.probe claim h.member).run
      (fun r w' => ∃ x, r = .ok x ∧ h.Probed x.1 ∧ x.2 = c.hear claim h ∧ w'.Holds c ids) w := by
  have hcall : Yields plan today (client.call (.endpointStatus (Member.url h.member.name))).run
      (fun o w' => h.Tells c o ∧ w'.Holds c ids) w :=
    hw.yields_call client (i := .endpointStatus _) nofun hp fun v hv =>
      Store.tells_endpointStatus hv.fair.reached.sound hv.cluster hf hn hm v.now
  unfold Client.probe
  rw [hf.urls h hm]
  have houtcome : Yields plan today
      (Action.outcome (client.call (.endpointStatus (Member.url h.member.name)))).run
      (fun r w' => ∃ o, r = .ok o ∧ h.Tells c o ∧ w'.Holds c ids) w :=
    hcall.bind fun o w' ho => yields_done ⟨o, rfl, ho⟩
  refine houtcome.andThen fun o w' ⟨ht, hw'⟩ => ?_
  cases o with
  | ok a =>
    obtain ⟨hr, hl, hterm, hlearn⟩ := ht
    refine yields_done ⟨_, rfl, ⟨?_, _, rfl, rfl, hr.symm⟩, ?_, hw'⟩
    · simp [hlearn, ← hf.urls h hm]
    · simp [LeaderClaim.hear, Cluster.hear, hr, hl, hterm]
  | error f =>
    have hr : h.responsive = false := ht
    refine yields_done ⟨_, rfl, ⟨rfl, _, rfl, rfl, hr.symm⟩, ?_, hw'⟩
    simp [Cluster.hear, hr]

theorem Holds.yields_probeAll (hs : List Host) (hm : ∀ h ∈ hs, h ∈ c.hosts) : ∀ {w : Arena} (claim : LeaderClaim),
    w.Holds c ids → Yields plan today (client.probeAll claim (hs.map (·.member))).run
      (fun r w' => ∃ x, r = .ok x ∧ List.Forall₂ Host.Probed hs x.1 ∧ x.2 = hs.foldl c.hear claim ∧ w'.Holds c ids)
      w := by
  induction hs with
  | nil => exact fun claim hw => yields_done ⟨_, rfl, .nil, rfl, hw⟩
  | cons h hs ih =>
    intro w claim hw
    refine (hw.yields_probe client hp hf hn (hm h List.mem_cons_self) claim).andThen ?_
    rintro ⟨m, _⟩ w' ⟨hprobed, rfl, hw'⟩
    refine (ih (fun h' hm' => hm h' (List.mem_cons_of_mem _ hm')) _ hw').andThen ?_
    rintro ⟨ms, _⟩ w'' ⟨hall, rfl, hw''⟩
    exact yields_done ⟨_, rfl, .cons hprobed hall, rfl, hw''⟩

/-- A listing with the status of each member shows the cluster as it is. -/
theorem Holds.yields_members (hw : w.Holds c ids) : Yields plan today (client.clusterMembers true).run
    (fun r w' => ∃ ms, r = .ok ms ∧ ms.members.map ClusterMember.look = c.hosts.map c.look ∧ w'.Holds c ids) w := by
  have hlist : ∀ v : Arena, v.Holds c ids → ∃ l : MemberList, (v.store.answer v.now .memberList).1 = .ok l ∧
      l.members = c.hosts.map (·.member) := fun v hv =>
    ⟨_, rfl, congrArg (fun c : Cluster => c.hosts.map fun h : Host => h.member)
      ((Store.cluster_expire hv.fair.reached.sound v.now).trans hv.cluster)⟩
  have hcall : Yields plan today (client.call .memberList).run (fun r w' =>
      (∃ l : MemberList, r = .ok l ∧ l.members = c.hosts.map (·.member)) ∧ w'.Holds c ids) w :=
    hw.yields_call client (i := .memberList) nofun hp hlist
  have hcall : Yields plan today (client.call .memberList).run
      (fun r w' => ∃ l : MemberList, r = .ok l ∧ l.members = c.hosts.map (·.member) ∧ w'.Holds c ids) w :=
    hcall.mono fun r w' ⟨⟨l, hl, hms⟩, hw'⟩ => ⟨l, hl, hms, hw'⟩
  refine hcall.andThen fun l w' ⟨hms, hw'⟩ => ?_
  rw [hms]
  simp only [if_true]
  refine (hw'.yields_probeAll client hp hf hn c.hosts (fun _ h => h) ⟨0, 0⟩).andThen ?_
  rintro ⟨ms, _⟩ w'' ⟨hall, rfl, hw''⟩
  refine yields_done ⟨_, rfl, ?_, hw''⟩
  rw [c.foldl_hear _ (Nat.zero_le _)]
  exact Host.Probed.look_markAll hall hf.id_pos

end

end Arena

end Keyspace
