import Keyspace.Proofs.Cluster.Probing

/-!
# Changes of leadership

What comes of a wish to change who leads is read off the cluster (`Cluster.demand`): it is refused, it is met already,
or leadership moves to one host. A program that makes the wish does that and nothing else (`Holds.yields_setLeader`,
`Holds.yields_changeLeader`). So it does what was asked or leaves all as it was (`leadership_as_asked`); who takes over
has to answer, but who led before need not (`leadership_moved_to_heir`).
-/

namespace Keyspace

/-! ## What comes of a wish -/

inductive Verdict
  | refused (f : Failure)
  | met
  | moved (h : Host)

namespace Verdict

def outcome : Verdict → Outcome Unit
  | refused f => .error f
  | _ => .ok ()

/-- The cluster after. -/
def apply (c : Cluster) : Verdict → Cluster
  | moved h => { c with leader := h.member.id, term := c.term + 1 }
  | _ => c

/-- Whom leadership is asked to move to. -/
def ids : Verdict → List Nat
  | moved h => [h.member.id]
  | _ => []

end Verdict

namespace Cluster

/-- Leadership can move to the host. -/
def Heir (c : Cluster) (h : Host) : Prop :=
  h ∈ c.hosts ∧ h.responsive = true ∧ h.member.learner = false ∧ h.member.id ≠ c.leader

def heirs (c : Cluster) : List Host :=
  c.hosts.filter fun h => h.member.id ≠ c.leader && !h.member.learner && h.responsive

def host? (c : Cluster) (name : String) : Option Host := c.hosts.find? (·.member.name = name)

def noLeader : Failure :=
  .cluster "cannot change leader status as it requires a pre-existing leader and no such node can be reached"

def noHeir : Failure := .cluster "cannot change leader status as no transfer candidate exists"

/-- Moves leadership to the first of the hosts, if anybody answers. -/
def transfer (c : Cluster) (hs : List Host) : Verdict :=
  if c.answers then
    match hs with
    | [] => .refused noHeir
    | h :: _ => .moved h
  else .refused noLeader

/-- What comes of the wish that a member lead, or not. -/
def demand (c : Cluster) (name : String) (lead : Bool) : Verdict :=
  match c.host? name with
  | none => .refused (.cluster ("no member named " ++ name))
  | some h =>
    if h.member.learner then
      .refused (.cluster ("cannot change leader status of node " ++ name ++ " as it is a learner"))
    else if !h.responsive then
      .refused (.cluster ("cannot change leader status of node " ++ name ++ " as it is not responsive"))
    else if decide (h.member.id = c.leader) = lead then .met
    else c.transfer (if lead then [h] else c.heirs)

variable {c : Cluster} {h : Host}

theorem mem_heirs : h ∈ c.heirs ↔ c.Heir h := by
  unfold heirs Heir
  rw [List.mem_filter]
  simp only [Bool.and_eq_true, decide_eq_true_eq, Bool.not_eq_true']
  constructor
  · rintro ⟨hm, ⟨hne, hl⟩, hr⟩
    exact ⟨hm, hr, hl, hne⟩
  · rintro ⟨hm, hr, hl, hne⟩
    exact ⟨hm, ⟨hne, hl⟩, hr⟩

theorem answers_of_mem (hm : h ∈ c.hosts) (hr : h.responsive = true) : c.answers = true :=
  List.any_eq_true.2 ⟨h, hm, hr⟩

/-! ## Listings -/

variable {ms : ClusterMembers} (hl : ms.members.map ClusterMember.look = c.hosts.map c.look)
include hl

theorem leader_of_look (hf : c.Formed) : ms.leader.isNone = !c.answers := by
  have hany : ms.members.any (·.leads) = (c.hosts.map c.look).any (·.2.2) := by
    rw [← hl, List.any_map]
    rfl
  have hleader : ms.leader.isSome = c.answers := by
    rw [ClusterMembers.leader, List.isSome_find?, hany, List.any_map]
    cases ha : c.answers with
    | false => simp [look, ha]
    | true =>
      obtain ⟨h, hm, _⟩ := List.any_eq_true.1 ha
      obtain ⟨h, hm, he⟩ := hf.led (List.ne_nil_of_mem hm)
      exact List.any_eq_true.2 ⟨h, hm, by simp [look, ha, he]⟩
  rw [← hleader, Option.not_isSome]

theorem candidates_of_look : ms.candidates = c.heirs.map (·.member.id) := by
  have hc : ms.candidates =
      ((ms.members.map ClusterMember.look).filter fun x => !x.2.2 && !x.1.learner && x.2.1).map (·.1.id) := by
    rw [List.filter_map, List.map_map]
    rfl
  rw [hc, hl, List.filter_map, List.map_map]
  show (c.hosts.filter _).map _ = (c.hosts.filter _).map _
  congr 1
  refine List.filter_congr fun h hm => ?_
  cases hr : h.responsive with
  | false => simp [look, hr]
  | true => simp [look, hr, answers_of_mem hm hr]

theorem find?_of_look (name : String) :
    (ms.members.find? (·.member.name = name)).map ClusterMember.look = (c.host? name).map c.look := by
  have hfind : ∀ {α : Type} (f : α → Member × Bool × Bool) (l : List α),
      (l.find? fun x => decide ((f x).1.name = name)).map f = (l.map f).find? fun x => decide (x.1.name = name) :=
    fun f l => by rw [List.find?_map]; rfl
  exact (hfind ClusterMember.look ms.members).trans (hl ▸ (hfind c.look c.hosts).symm)

/-- Who is marked is who leads, if anybody answers. -/
theorem marked_of_look (hf : c.Formed) : (ms.members.filter (·.leads)).map (·.member.name) =
    if c.answers then ((c.hosts.find? fun h => h.member.id = c.leader).map (·.member.name)).toList else [] := by
  have hm : (ms.members.filter (·.leads)).map (·.member.name) =
      ((ms.members.map ClusterMember.look).filter (·.2.2)).map (·.1.name) := by
    rw [List.filter_map, List.map_map]
    rfl
  rw [hm, hl, List.filter_map, List.map_map]
  cases ha : c.answers with
  | false =>
    have hnone : c.hosts.filter ((·.2.2) ∘ c.look) = [] := List.filter_eq_nil_iff.2 fun h _ => by simp [look, ha]
    rw [hnone]
    rfl
  | true =>
    obtain ⟨h, hmem, _⟩ := List.any_eq_true.1 ha
    obtain ⟨h, hmem, he⟩ := hf.led (List.ne_nil_of_mem hmem)
    have hone : c.hosts.filter ((·.2.2) ∘ c.look) = [h] := by
      have hself : c.hosts.filter ((·.2.2) ∘ c.look) = c.hosts.filter (· == h) := by
        refine List.filter_congr fun h' hm' => ?_
        rw [Bool.eq_iff_iff]
        simp only [Function.comp, look, ha, Bool.true_and, decide_eq_true_eq, beq_iff_eq, ← he]
        exact ⟨hf.eq_of_id hmem hm', fun e => e ▸ rfl⟩
      rw [hself, List.filter_beq, List.count_eq_one_of_mem (List.Nodup.of_map _ hf.ids) hmem]
      rfl
    rw [hone, ← he, hf.find?_id hmem]
    rfl

end Cluster

/-! ## Programs -/

theorem Store.moveLeader_heir {s : Store} (hf : s.cluster.Formed) {h : Host} (hh : s.cluster.Heir h) :
    s.moveLeader h.member.id =
      .ok { s with cluster := { s.cluster with leader := h.member.id, term := s.cluster.term + 1 } } := by
  obtain ⟨hm, hr, hl, hne⟩ := hh
  simp [moveLeader, hf.find?_id hm, hl, hr, Ne.symm hne]

namespace Arena

variable {plan : Plan} {today : Nat → Instant} {w : Arena} {c : Cluster} {ids : List Nat}

/-- What was made of a wish. -/
def Comes (v : Verdict) (c : Cluster) (ids : List Nat) (x : Outcome Unit) (w : Arena) : Prop :=
  x = v.outcome ∧ w.Holds (v.apply c) (ids ++ v.ids)

theorem Holds.yields_still (hw : w.Holds c ids) {v : Verdict} (hv : ∀ h, v ≠ .moved h) :
    Yields plan today (.done v.outcome) (Comes v c ids) w := by
  have hids : w.Holds c (ids ++ []) := (List.append_nil ids).symm ▸ hw
  cases v with
  | moved h => exact absurd rfl (hv h)
  | refused f => exact yields_done ⟨rfl, hids⟩
  | met => exact yields_done ⟨rfl, hids⟩

section
variable (client : Client) (hp : Settled plan) (hf : c.Formed)
include hp hf

/-- The first attempt to move leadership to an heir succeeds. -/
theorem Holds.yields_move (hw : w.Holds c ids) {h : Host} (hh : c.Heir h) :
    Yields plan today (client.call (.moveLeader h.member.id)).run (Comes (.moved h) c ids) w := by
  have hm := hw.met hp
  obtain ⟨hfair, hanswer, hstore⟩ := hm.fair.serve (.moveLeader h.member.id)
  obtain ⟨s, hs, hc⟩ : ∃ s, (w.met plan).store.expire (w.met plan).now = s ∧ s.cluster = c :=
    ⟨_, rfl, (Store.cluster_expire hm.fair.reached.sound _).trans hm.cluster⟩
  have hmove := Store.moveLeader_heir (hc ▸ hf) (hc ▸ hh)
  simp only [Store.answer, hs, hmove] at hanswer hstore
  have hholds : ((w.met plan).serve (.moveLeader h.member.id)).2.Holds
      (Verdict.apply c (.moved h)) (ids ++ Verdict.ids (.moved h)) := by
    refine ⟨hfair, ?_, ?_⟩
    · rw [hstore, hc]
      rfl
    · rw [transferees_serve, hm.asked]
      rfl
  refine ⟨.ok (), _, ?_, rfl, hholds⟩
  show (client.policy.runWith _ client.policy.retries).complete (env plan today) w = _
  cases client.policy.retries with
  | zero =>
    rw [Retry.Policy.runWith, Retry.Policy.attempt, complete_call, hanswer]
    rfl
  | succ n =>
    rw [Retry.Policy.runWith, complete_call, hanswer]
    rfl

variable {ms : ClusterMembers} (hl : ms.members.map ClusterMember.look = c.hosts.map c.look)
include hl

theorem Holds.yields_transfer (hw : w.Holds c ids) {hs : List Host} (hh : ∀ h ∈ hs, c.Heir h) :
    Yields plan today (client.transferLeadership ms (hs.map (·.member.id))).run (Comes (c.transfer hs) c ids) w := by
  unfold Client.transferLeadership Cluster.transfer
  rw [Cluster.leader_of_look hl hf]
  cases c.answers with
  | false => exact hw.yields_still (v := .refused Cluster.noLeader) nofun
  | true =>
    cases hs with
    | nil => exact hw.yields_still (v := .refused Cluster.noHeir) nofun
    | cons h hs => exact hw.yields_move client hp hf (hh h List.mem_cons_self)

end

section
variable (client : Client) (hp : Settled plan) (hf : c.Formed) (hn : c.Named) (hw : w.Holds c ids)
include hp hf hn hw

theorem Holds.yields_changeLeader :
    Yields plan today client.changeLeader.run (Comes (c.transfer c.heirs) c ids) w := by
  refine (hw.yields_members client hp hf hn).andThen fun ms w' ⟨hl, hw'⟩ => ?_
  rw [Cluster.candidates_of_look hl]
  exact hw'.yields_transfer client hp hf hl fun h hm => Cluster.mem_heirs.1 hm

theorem Holds.yields_setLeader (name : String) (lead : Bool) :
    Yields plan today (client.setLeader name lead).run (Comes (c.demand name lead) c ids) w := by
  refine (hw.yields_members client hp hf hn).andThen fun ms w' ⟨hl, hw'⟩ => ?_
  have hfind := Cluster.find?_of_look hl name
  unfold Cluster.demand
  cases hh : c.host? name with
  | none =>
    rw [hh, Option.map_none, Option.map_eq_none_iff] at hfind
    rw [hfind]
    exact hw'.yields_still (v := .refused (.cluster ("no member named " ++ name))) nofun
  | some h =>
    rw [hh, Option.map_some, Option.map_eq_some_iff] at hfind
    obtain ⟨m, hm, hlook⟩ := hfind
    rw [hm]
    simp only [ClusterMember.look, Cluster.look, Prod.mk.injEq] at hlook
    obtain ⟨hmember, hresponds, hleads⟩ := hlook
    simp only [hmember, hresponds, hleads]
    have hmem : h ∈ c.hosts := List.mem_of_find?_eq_some hh
    cases hlearn : h.member.learner with
    | true =>
      exact hw'.yields_still (v := .refused (.cluster
        ("cannot change leader status of node " ++ name ++ " as it is a learner"))) nofun
    | false =>
      cases hr : h.responsive with
      | false =>
        exact hw'.yields_still (v := .refused (.cluster
          ("cannot change leader status of node " ++ name ++ " as it is not responsive"))) nofun
      | true =>
        -- as the member itself answers, the leader is flagged whether it does or not
        rw [Cluster.answers_of_mem hmem hr, Bool.true_and]
        by_cases hd : decide (h.member.id = c.leader) = lead
        · simp only [hd, ne_eq, not_true_eq_false, if_false, Bool.not_true, Bool.false_eq_true, if_true]
          exact hw'.yields_still (v := .met) nofun
        · simp only [hd, ne_eq, not_false_eq_true, if_false, Bool.not_true, Bool.false_eq_true, if_true]
          cases lead with
          | true =>
            have hheir : ∀ h' ∈ [h], c.Heir h' := fun h' hm' => by
              rw [List.mem_singleton.1 hm']
              exact ⟨hmem, hr, hlearn, by simpa using hd⟩
            exact hw'.yields_transfer client hp hf hl hheir
          | false =>
            rw [Cluster.candidates_of_look hl]
            exact hw'.yields_transfer client hp hf hl fun h' hm' => Cluster.mem_heirs.1 hm'

end

end Arena

/-! ## What is asked for, or nothing -/

namespace Cluster

variable {c : Cluster} {h heir : Host} {name : String} {lead : Bool}

/-- The member of that name can be made to lead, or to lead no more. -/
structure Fit (c : Cluster) (name : String) (h : Host) : Prop where
  mem : h ∈ c.hosts
  name : h.member.name = name
  learner : h.member.learner = false
  responsive : h.responsive = true

theorem demand_cases (hn : c.Named) (name : String) (lead : Bool) :
    (∃ text, c.demand name lead = .refused (.cluster text) ∧ ∀ h, ¬ c.Fit name h) ∨
      ∃ h, c.Fit name h ∧ c.demand name lead =
        if decide (h.member.id = c.leader) = lead then .met else c.transfer (if lead then [h] else c.heirs) := by
  unfold demand
  cases hh : c.host? name with
  | none =>
    refine .inl ⟨_, rfl, fun h hf => ?_⟩
    exact List.find?_eq_none.1 hh h hf.mem (decide_eq_true hf.name)
  | some h =>
    have hmem : h ∈ c.hosts := List.mem_of_find?_eq_some hh
    have hname : h.member.name = name := by simpa using List.find?_some hh
    have only : ∀ h', c.Fit name h' → h' = h := fun h' hf => hn.eq_of_name hmem hf.mem (hf.name.trans hname.symm)
    cases hl : h.member.learner with
    | true =>
      exact .inl ⟨_, by simp only [hl, if_true]; rfl, fun h' hf => by simpa [only h' hf, hl] using hf.learner⟩
    | false =>
      cases hr : h.responsive with
      | false =>
        exact .inl ⟨_, by simp only [hl, hr, Bool.not_false, Bool.false_eq_true, if_true, if_false]; rfl,
          fun h' hf => by simpa [only h' hf, hr] using hf.responsive⟩
      | true => exact .inr ⟨h, ⟨hmem, hname, hl, hr⟩, by simp [hl, hr]⟩

/-- Who is to take over, where it is to be somebody. -/
theorem heir_of_fit (hf : c.Fit name h) (hd : ¬ decide (h.member.id = c.leader) = lead) :
    ∀ heir ∈ (if lead then [h] else c.heirs), c.Heir heir := by
  cases lead with
  | true =>
    intro heir hm
    rw [List.mem_singleton.1 hm]
    exact ⟨hf.mem, hf.responsive, hf.learner, by simpa using hd⟩
  | false => exact fun heir hm => mem_heirs.1 hm

end Cluster

theorem Store.leaderName_iff {s : Store} (hf : s.cluster.Formed) (hn : s.cluster.Named) {h : Host}
    (hm : h ∈ s.cluster.hosts) : s.leaderName = some h.member.name ↔ h.member.id = s.cluster.leader := by
  unfold leaderName
  constructor
  · intro hl
    obtain ⟨h', hh', hname⟩ := Option.map_eq_some_iff.1 hl
    have hid : h'.member.id = s.cluster.leader := by simpa using List.find?_some hh'
    rwa [hn.eq_of_name hm (List.mem_of_find?_eq_some hh') hname] at hid
  · intro hid
    rw [← hid, hf.find?_id hm]
    rfl

namespace Arena

variable {plan : Plan} {today : Nat → Instant} {w w' : Arena} {c : Cluster} {ids : List Nat} {x : Outcome Unit}

/-- Nothing is done, and the failure says so. -/
def Refuses (w w' : Arena) (x : Outcome Unit) : Prop :=
  (∃ text, x = .error (.cluster text)) ∧ w'.store.cluster = w.store.cluster ∧ w'.transferees = w.transferees

/-- Leadership moves to the first of the hosts, in a new term; if there is none that is refused. -/
def Hands (w w' : Arena) (x : Outcome Unit) : List Host → Prop
  | [] => w.Refuses w' x
  | h :: _ =>
    x = .ok () ∧ w'.store.cluster = { w.store.cluster with leader := h.member.id, term := w.store.cluster.term + 1 } ∧
      w'.transferees = w.transferees ++ [h.member.id]

theorem Comes.hands {hs : List Host} (h : Comes (w.store.cluster.transfer hs) w.store.cluster w.transferees x w')
    (hh : ∀ h ∈ hs, w.store.cluster.Heir h) : w.Hands w' x hs := by
  obtain ⟨rfl, hw'⟩ := h
  have refused : ∀ {text}, w.store.cluster.transfer hs = .refused (.cluster text) →
      w.Refuses w' (w.store.cluster.transfer hs).outcome := by
    intro text ht
    rw [ht] at hw' ⊢
    exact ⟨⟨text, rfl⟩, hw'.cluster, hw'.asked.trans (List.append_nil _)⟩
  cases hs with
  | nil =>
    cases ha : w.store.cluster.answers with
    | true => exact refused (by rw [Cluster.transfer, ha]; rfl)
    | false => exact refused (by rw [Cluster.transfer, ha]; rfl)
  | cons h hs =>
    obtain ⟨hm, hr, _, _⟩ := hh h List.mem_cons_self
    have ht : w.store.cluster.transfer (h :: hs) = .moved h := by
      rw [Cluster.transfer, Cluster.answers_of_mem hm hr]
      rfl
    rw [ht] at hw' ⊢
    exact ⟨rfl, hw'.cluster, hw'.asked⟩

/-- What a wish that a member lead, or not, comes to. -/
structure Obeys (w w' : Arena) (x : Outcome Unit) (name : String) (lead : Bool) : Prop where
  unfit : (∀ h, ¬ w.store.cluster.Fit name h) → w.Refuses w' x
  met : ∀ h, w.store.cluster.Fit name h → decide (h.member.id = w.store.cluster.leader) = lead →
    x = .ok () ∧ w'.store.cluster = w.store.cluster ∧ w'.transferees = w.transferees
  unmet : ∀ h, w.store.cluster.Fit name h → ¬ decide (h.member.id = w.store.cluster.leader) = lead →
    w.Hands w' x (if lead then [h] else w.store.cluster.heirs)

theorem Comes.obeys (hn : w.store.cluster.Named) {name : String} {lead : Bool}
    (h : Comes (w.store.cluster.demand name lead) w.store.cluster w.transferees x w') : w.Obeys w' x name lead := by
  rcases Cluster.demand_cases hn name lead with ⟨text, hd, hnone⟩ | ⟨h₀, hfit, hd⟩
  · rw [hd] at h
    obtain ⟨rfl, hw'⟩ := h
    exact ⟨fun _ => ⟨⟨text, rfl⟩, hw'.cluster, hw'.asked.trans (List.append_nil _)⟩,
      fun h hf => absurd hf (hnone h), fun h hf => absurd hf (hnone h)⟩
  · have only : ∀ h, w.store.cluster.Fit name h → h = h₀ := fun h hf =>
      hn.eq_of_name hfit.mem hf.mem (hf.name.trans hfit.name.symm)
    refine ⟨fun hnone => absurd hfit (hnone h₀), fun h' hf hmet => ?_, fun h' hf hunmet => ?_⟩
    · rw [only h' hf] at hmet
      rw [hd, if_pos hmet] at h
      exact ⟨h.1, h.2.cluster, h.2.asked.trans (List.append_nil _)⟩
    · rw [only h' hf] at hunmet ⊢
      rw [hd, if_neg hunmet] at h
      exact h.hands (Cluster.heir_of_fit hfit hunmet)

section
variable (client : Client) (today : Nat → Instant) (hw : w.Fair) (hn : w.store.cluster.Named) (hp : Settled plan)
include hw hn hp

theorem Fair.yields_changeLeader :
    Yields plan today client.changeLeader.run (fun x w' => w'.Fair ∧ w.Hands w' x w.store.cluster.heirs) w :=
  ((Holds.yields_changeLeader client hp hw.reached.formed hn ⟨hw, rfl, rfl⟩).mono fun _ _ h =>
    ⟨h.2.fair, h.hands fun _ hm => Cluster.mem_heirs.1 hm⟩)

theorem Fair.yields_setLeader (name : String) (lead : Bool) :
    Yields plan today (client.setLeader name lead).run (fun x w' => w'.Fair ∧ w.Obeys w' x name lead) w :=
  (Holds.yields_setLeader client hp hw.reached.formed hn ⟨hw, rfl, rfl⟩ name lead).mono fun _ _ h =>
    ⟨h.2.fair, h.obeys hn⟩

end

/-- Leadership stays where it is, or it was asked once to move, to a host to which it can. -/
structure Careful (w w' : Arena) (x : Outcome Unit) : Prop where
  failed : ∀ f, x = .error f → w'.store.cluster = w.store.cluster
  asked : w'.transferees = w.transferees ∨
    ∃ h, w.store.cluster.Heir h ∧ w'.transferees = w.transferees ++ [h.member.id]

theorem Refuses.careful (h : w.Refuses w' x) : w.Careful w' x := ⟨fun _ _ => h.2.1, .inl h.2.2⟩

theorem Hands.careful {hs : List Host} (h : w.Hands w' x hs) (hh : ∀ h ∈ hs, w.store.cluster.Heir h) :
    w.Careful w' x := by
  cases hs with
  | nil => exact Refuses.careful h
  | cons heir hs =>
    obtain ⟨rfl, _, hasked⟩ := h
    exact ⟨nofun, .inr ⟨heir, hh heir List.mem_cons_self, hasked⟩⟩

theorem Hands.leader_ne {hs : List Host} (h : w.Hands w' (.ok ()) hs) (hh : ∀ h ∈ hs, w.store.cluster.Heir h) :
    w'.store.cluster.leader ≠ w.store.cluster.leader := by
  cases hs with
  | nil =>
    obtain ⟨⟨_, hx⟩, _⟩ := h
    cases hx
  | cons heir hs =>
    obtain ⟨-, hc, -⟩ := h
    rw [hc]
    exact (hh heir List.mem_cons_self).2.2.2

section
variable {name : String} {lead : Bool} (hn : w.store.cluster.Named)

theorem Obeys.careful (h : w.Obeys w' x name lead) : w.Careful w' x := by
  by_cases hfit : ∃ h, w.store.cluster.Fit name h
  · obtain ⟨m, hf⟩ := hfit
    by_cases hd : decide (m.member.id = w.store.cluster.leader) = lead
    · obtain ⟨-, hc, hasked⟩ := h.met m hf hd
      exact ⟨fun _ _ => hc, .inl hasked⟩
    · exact (h.unmet m hf hd).careful (Cluster.heir_of_fit hf hd)
  · exact (h.unfit fun m hf => hfit ⟨m, hf⟩).careful

include hn

theorem Obeys.leaderName_iff (h : w.Obeys w' (.ok ()) name lead) (hw' : w'.Fair) :
    w'.store.leaderName = some name ↔ lead = true := by
  obtain ⟨m, hf⟩ : ∃ m, w.store.cluster.Fit name m := by
    apply Classical.byContradiction
    intro hnone
    obtain ⟨⟨_, hx⟩, _⟩ := h.unfit fun m hf => hnone ⟨m, hf⟩
    cases hx
  have after : w'.store.cluster.hosts = w.store.cluster.hosts →
      (w'.store.leaderName = some name ↔ m.member.id = w'.store.cluster.leader) := by
    intro hhosts
    have hn' : w'.store.cluster.Named := by rwa [Cluster.Named, hhosts]
    exact hf.name ▸ Store.leaderName_iff hw'.reached.formed hn' (hhosts ▸ hf.mem)
  by_cases hd : decide (m.member.id = w.store.cluster.leader) = lead
  · obtain ⟨-, hc, -⟩ := h.met m hf hd
    rw [after (by rw [hc]), hc, ← hd, decide_eq_true_eq]
  · have hhands := h.unmet m hf hd
    cases lead with
    | true =>
      obtain ⟨-, hc, -⟩ := hhands
      rw [after (by rw [hc]), hc]
      simp
    | false =>
      have hne := hhands.leader_ne (Cluster.heir_of_fit hf hd)
      have hm : m.member.id = w.store.cluster.leader := by simpa using hd
      have hhosts : w'.store.cluster.hosts = w.store.cluster.hosts := by
        cases hheirs : w.store.cluster.heirs with
        | nil =>
          rw [hheirs] at hhands
          obtain ⟨⟨_, hx⟩, _⟩ := hhands
          cases hx
        | cons heir heirs =>
          rw [hheirs] at hhands
          obtain ⟨-, hc, -⟩ := hhands
          rw [hc]
      rw [after hhosts, hm]
      simp [Ne.symm hne]

theorem Obeys.unasked (h : w.Obeys w' x name lead) (hw : w.Fair)
    (hno : (w.store.leaderName = some name ↔ lead = true) ∨ ∀ h, ¬ w.store.cluster.Fit name h) :
    w'.transferees = w.transferees := by
  by_cases hfit : ∃ h, w.store.cluster.Fit name h
  · obtain ⟨m, hf⟩ := hfit
    have hheld := hno.resolve_right fun hnone => hnone m hf
    have hleads : w.store.leaderName = some name ↔ m.member.id = w.store.cluster.leader :=
      hf.name ▸ Store.leaderName_iff hw.reached.formed hn hf.mem
    refine (h.met m hf ?_).2.2
    rw [Bool.eq_iff_iff, decide_eq_true_eq, ← hleads]
    exact hheld
  · exact (h.unfit fun m hf => hfit ⟨m, hf⟩).2.2

end

/-- Only a leader that answers is made to lead no more. -/
theorem Obeys.leader_answers {name : String} (h : w.Obeys w' x name false) (hasked : w'.transferees ≠ w.transferees) :
    ∃ m ∈ w.store.cluster.hosts, m.member.id = w.store.cluster.leader ∧ m.responsive = true := by
  obtain ⟨m, hf⟩ : ∃ m, w.store.cluster.Fit name m := by
    apply Classical.byContradiction
    exact fun hnone => hasked (h.unfit fun m hf => hnone ⟨m, hf⟩).2.2
  refine ⟨m, hf.mem, ?_, hf.responsive⟩
  apply Classical.byContradiction
  exact fun hne => hasked (h.met m hf (decide_eq_false hne)).2.2

/-- A change of leadership does what was asked or nothing, and asks at most once to move leadership, to a member that
can lead and does not. A listing marks who leads if anybody answers, and nobody else. -/
theorem leadership_as_asked (client : Client) (today : Nat → Instant) (hw : w.Fair) (hn : w.store.cluster.Named)
    (hp : Settled plan) :
    (∀ name lead, Yields plan today (client.setLeader name lead).run (fun x w' => w.Careful w' x ∧
      (x = .ok () → (w'.store.leaderName = some name ↔ lead = true)) ∧
      ((w.store.leaderName = some name ↔ lead = true) ∨ (∀ h, ¬ w.store.cluster.Fit name h) →
        w'.transferees = w.transferees)) w) ∧
    Yields plan today client.changeLeader.run (fun x w' => w.Careful w' x ∧
      (x = .ok () → w'.store.cluster.leader ≠ w.store.cluster.leader)) w ∧
    Yields plan today (client.clusterMembers true).run (fun r _ => ∃ ms, r = .ok ms ∧
      (ms.members.filter (·.leads)).map (·.member.name) =
        if w.store.cluster.answers then w.store.leaderName.toList else []) w := by
  refine ⟨fun name lead => ?_, ?_, ?_⟩
  · refine (hw.yields_setLeader client today hn hp name lead).mono fun x w' ⟨hw', h⟩ => ⟨h.careful, ?_, h.unasked hn hw⟩
    rintro rfl
    exact h.leaderName_iff hn hw'
  · have heir : ∀ h ∈ w.store.cluster.heirs, w.store.cluster.Heir h := fun h hm => Cluster.mem_heirs.1 hm
    refine (hw.yields_changeLeader client today hn hp).mono fun x w' ⟨_, h⟩ => ⟨h.careful heir, ?_⟩
    rintro rfl
    exact h.leader_ne heir
  · exact (Holds.yields_members client hp hw.reached.formed hn ⟨hw, rfl, rfl⟩).mono fun r _ ⟨ms, hr, hl, _⟩ =>
      ⟨ms, hr, Cluster.marked_of_look hl hw.reached.formed⟩

/-- Among four members one learns and two do not answer, and others go on writing. -/
theorem leadership_as_asked_four :
    let client : Client := ⟨⟨1, 100, 10000⟩, Config.standard⟩
    let plan : Plan := fun n => if n = 3 then [(50, .call (.put [1] [10] none))] else []
    let w : Arena := ⟨(Backend.ofMembers ["a", "b", "c", "d"]).moves [(0, .setLearner "b" true),
      (0, .setResponsive "a" false), (0, .setResponsive "c" false)], 0, []⟩
    (w.Fair ∧ w.store.cluster.Named ∧ Settled plan) ∧
      ((client.changeLeader.run.complete (env plan fun _ => ⟨0, 0⟩) w).map
        fun y => (y.1.toOption, y.2.store.leaderName, y.2.transferees)) = some (some (), some "d", [4]) ∧
      ((∀ name lead, Yields plan (fun _ => ⟨0, 0⟩) (client.setLeader name lead).run (fun x w' => w.Careful w' x ∧
        (x = .ok () → (w'.store.leaderName = some name ↔ lead = true)) ∧
        ((w.store.leaderName = some name ↔ lead = true) ∨ (∀ h, ¬ w.store.cluster.Fit name h) →
          w'.transferees = w.transferees)) w) ∧
      Yields plan (fun _ => ⟨0, 0⟩) client.changeLeader.run (fun x w' => w.Careful w' x ∧
        (x = .ok () → w'.store.cluster.leader ≠ w.store.cluster.leader)) w ∧
      Yields plan (fun _ => ⟨0, 0⟩) (client.clusterMembers true).run (fun r _ => ∃ ms, r = .ok ms ∧
        (ms.members.filter (·.leads)).map (·.member.name) =
          if w.store.cluster.answers then w.store.leaderName.toList else []) w) := by
  intro client plan w
  have hw : w.Fair := ⟨Backend.Reached.moves _ (.ofMembers _), by decide +kernel⟩
  have hn : w.store.cluster.Named := by decide +kernel
  have hp : Settled plan := by
    intro n t m hm
    simp only [plan] at hm
    split at hm
    · rw [List.mem_singleton] at hm
      cases hm
      exact id
    · cases hm
  exact ⟨⟨hw, hn, hp⟩, by decide +kernel, leadership_as_asked client _ hw hn hp⟩

/-- Who is to take over leadership has to answer, but who has led so far need not, unless it is the member that is to
lead no more. -/
theorem leadership_moved_to_heir (client : Client) (today : Nat → Instant) (hw : w.Fair)
    (hn : w.store.cluster.Named) (hp : Settled plan) :
    Yields plan today client.changeLeader.run (fun x w' => w.Hands w' x w.store.cluster.heirs) w ∧
    ∀ name lead, Yields plan today (client.setLeader name lead).run (fun x w' => w.Obeys w' x name lead ∧
      (lead = false → w'.transferees ≠ w.transferees →
        ∃ m ∈ w.store.cluster.hosts, m.member.id = w.store.cluster.leader ∧ m.responsive = true)) w := by
  refine ⟨(hw.yields_changeLeader client today hn hp).mono fun _ _ h => h.2, fun name lead => ?_⟩
  refine (hw.yields_setLeader client today hn hp name lead).mono fun x w' ⟨_, h⟩ => ⟨h, ?_⟩
  rintro rfl
  exact h.leader_answers

/-- The leader does not answer, and nobody but it is to take over from. -/
theorem leadership_moved_to_heir_two :
    let client : Client := .ofConfig Config.standard
    let w : Arena := ⟨(Backend.ofMembers ["a", "b"]).moves [(0, .setResponsive "a" false)], 0, []⟩
    (w.Fair ∧ w.store.cluster.Named ∧ Settled fun _ => []) ∧
      (w.store.cluster.heirs.map (·.member.name) = ["b"] ∧
        Yields (fun _ => []) (fun _ => ⟨0, 0⟩) client.changeLeader.run (fun x w' => w.Hands w' x w.store.cluster.heirs)
          w) ∧
      ∀ name lead, Yields (fun _ => []) (fun _ => ⟨0, 0⟩) (client.setLeader name lead).run
        (fun x w' => w.Obeys w' x name lead ∧ (lead = false → w'.transferees ≠ w.transferees →
          ∃ m ∈ w.store.cluster.hosts, m.member.id = w.store.cluster.leader ∧ m.responsive = true)) w := by
  intro client w
  have hw : w.Fair := ⟨Backend.Reached.moves _ (.ofMembers _), by decide +kernel⟩
  have hn : w.store.cluster.Named := by decide +kernel
  have hp : Settled fun _ => [] := fun _ _ _ => nofun
  have hmoves := leadership_moved_to_heir client (fun _ => ⟨0, 0⟩) hw hn hp
  exact ⟨⟨hw, hn, hp⟩, ⟨by decide +kernel, hmoves.1⟩, hmoves.2⟩

/-- Leadership moves away from a leader that does not answer, as the other two do. -/
theorem moved_from_silent_leader :
    let client : Client := .ofConfig Config.standard
    let w : Arena :=
      ⟨(Backend.ofMembers ["node-a", "node-b", "node-c"]).moves [(0, .setResponsive "node-a" false)], 0, []⟩
    w.Fair ∧ w.store.cluster.Named ∧ w.store.leaderName = some "node-a" ∧
      (w.store.cluster.hosts.map fun h => (h.member.name, h.responsive)) =
        [("node-a", false), ("node-b", true), ("node-c", true)] ∧
      ((client.changeLeader.run.complete (env (fun _ => []) fun _ => ⟨0, 0⟩) w).map
        fun y => (y.1.toOption, y.2.store.leaderName, y.2.transferees)) = some (some (), some "node-b", [2]) ∧
      (((client.setLeader "node-c" true).run.complete (env (fun _ => []) fun _ => ⟨0, 0⟩) w).map
        fun y => (y.1.toOption, y.2.store.leaderName, y.2.transferees)) = some (some (), some "node-c", [3]) := by
  intro client w
  exact ⟨⟨Backend.Reached.moves _ (.ofMembers _), by decide +kernel⟩, by decide +kernel, by decide +kernel,
    by decide +kernel, by decide +kernel, by decide +kernel⟩

end Arena

end Keyspace
