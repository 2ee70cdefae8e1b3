import Keyspace.Client

/-!
# Leadership

Who leads is what the answering member with the highest term says. Leadership is moved only if a
leader is known, and only to a member that answers and is no learner.
-/

namespace Keyspace

/-- What probing a member gave. -/
structure MemberStatus where
  leader : Bool
  responsive : Bool
  /-- Why it is not responsive. -/
  failure : Option String
  version : String
  dbSize : Int
  dbSizeInUse : Int
  raftIndex : Nat
  term : Nat
  appliedIndex : Nat
  deriving DecidableEq, Repr

namespace MemberStatus

def unresponsive (failure : String) : MemberStatus := ⟨false, false, some failure, "", 0, 0, 0, 0, 0⟩

def ofEndpoint (s : EndpointStatus) : MemberStatus :=
  ⟨false, true, none, s.version, s.dbSize, s.dbSizeInUse, s.raftIndex, s.term, s.appliedIndex⟩

end MemberStatus

structure ClusterMember where
  member : Member
  status : Option MemberStatus
  deriving DecidableEq, Repr

namespace ClusterMember

def leads (m : ClusterMember) : Bool := m.status.any (·.leader)

def responds (m : ClusterMember) : Bool := m.status.any (·.responsive)

end ClusterMember

structure ClusterMembers where
  clusterId : Nat
  memberId : Nat
  revision : Int
  term : Nat
  members : List ClusterMember
  deriving DecidableEq, Repr

namespace ClusterMembers

def leader (c : ClusterMembers) : Option ClusterMember := c.members.find? (·.leads)

/-- The members that leadership can be moved to. -/
def candidates (c : ClusterMembers) : List Nat :=
  (c.members.filter fun m => !m.leads && !m.member.learner && m.responds).map (·.member.id)

end ClusterMembers

/-- Whom the members probed so far name as leader, and in which term. -/
structure LeaderClaim where
  leader : Nat
  term : Nat
  deriving DecidableEq, Repr

/-- A claim of the same or a later term takes over. -/
def LeaderClaim.hear (c : LeaderClaim) (s : EndpointStatus) : LeaderClaim :=
  if c.term ≤ s.term then ⟨s.leader, s.term⟩ else c

variable {φ : Call → Type}

namespace Client

/-- Probes a member at its first client address. -/
def probe (c : Client) (claim : LeaderClaim) (m : Member) :
    Action Call.Answer φ (ClusterMember × LeaderClaim) := do
  match m.clientUrls with
  | [] => return (⟨m, some (.unresponsive "member has no client url")⟩, claim)
  | url :: _ =>
    match ← Action.outcome (c.call (.endpointStatus url)) with
    | .ok s =>
      return (⟨{ m with learner := m.learner || s.learner }, some (.ofEndpoint s)⟩, claim.hear s)
    | .error f => return (⟨m, some (.unresponsive f.message)⟩, claim)

def probeAll (c : Client) (claim : LeaderClaim) :
    List Member → Action Call.Answer φ (List ClusterMember × LeaderClaim)
  | [] => return ([], claim)
  | m :: ms => do
    let (m, claim) ← c.probe claim m
    let (ms, claim) ← c.probeAll claim ms
    return (m :: ms, claim)

def markLeader (leader : Nat) (m : ClusterMember) : ClusterMember :=
  if m.member.id = leader then { m with status := m.status.map fun s => { s with leader := true } }
  else m

/-- A member that can not be probed is listed as not responsive. -/
def clusterMembers (c : Client) (withStatus : Bool) : Action Call.Answer φ ClusterMembers := do
  let l ← c.call .memberList
  let members : List ClusterMember ←
    if withStatus then do
      let (ms, claim) ← c.probeAll ⟨0, 0⟩ l.members
      pure (ms.map (markLeader claim.leader))
    else pure (l.members.map fun m => ⟨m, none⟩)
  return ⟨l.clusterId, l.memberId, l.revision, l.term, members⟩

def transferLeadership (c : Client) (ms : ClusterMembers) (candidates : List Nat) :
    Action Call.Answer φ Unit := do
  if ms.leader.isNone then
    throw (.cluster ("cannot change leader status as it requires a pre-existing leader and no such "
      ++ "node can be reached"))
  match candidates with
  | [] => throw (.cluster "cannot change leader status as no transfer candidate exists")
  | m :: _ => c.call (.moveLeader m)

/-- Makes the named member lead, or some other one lead in its place. -/
def setLeader (c : Client) (name : String) (lead : Bool) : Action Call.Answer φ Unit := do
  let ms ← c.clusterMembers true
  match ms.members.find? (·.member.name = name) with
  | none => throw (.cluster ("no member named " ++ name))
  | some m =>
    if m.member.learner then
      throw (.cluster ("cannot change leader status of node " ++ name ++ " as it is a learner"))
    if !m.responds then
      throw (.cluster ("cannot change leader status of node " ++ name ++ " as it is not responsive"))
    if m.leads ≠ lead then
      c.transferLeadership ms (if lead then [m.member.id] else ms.candidates)

def changeLeader (c : Client) : Action Call.Answer φ Unit := do
  let ms ← c.clusterMembers true
  c.transferLeadership ms ms.candidates

end Client

end Keyspace
