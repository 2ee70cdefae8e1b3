import Keyspace.Call

/-!
# Members

The members of the cluster that a store stands for, and who leads it.
-/

namespace Keyspace.Store

def memberList (s : Store) : MemberList :=
  ⟨s.cluster.id, s.cluster.leader, s.revision, s.cluster.term, s.cluster.hosts.map (·.member)⟩

/-- A point takes its key, its value and 32 bytes more. -/
def pointSize (key : Bytes) (p : Point) : Nat := key.length + p.record.elim 0 (·.value.length) + 32

def dbSize (s : Store) : Nat :=
  s.histories.entries.foldr (fun e n => e.2.foldr (fun p n => pointSize e.1 p + n) n) 0

def endpointStatus (s : Store) (endpoint : String) : Outcome EndpointStatus :=
  match s.cluster.hosts.find? fun h => h.member.clientUrls.contains endpoint with
  | none => .error (.unavailable ("no member serves " ++ endpoint))
  | some h =>
    if h.responsive then
      .ok ⟨"3.5.0", s.dbSize, s.dbSize, s.cluster.leader, s.revision.toNat, s.cluster.term,
        s.revision.toNat, h.member.learner⟩
    else .error (.unavailable (endpoint ++ " is not responding"))

def hex (n : Nat) : String := String.ofList (Nat.toDigits 16 n)

/-- A move to another member than the leader begins a new term. -/
def moveLeader (s : Store) (member : Nat) : Outcome Store :=
  match s.cluster.hosts.find? fun h => h.member.id = member with
  | none => .error (.backend ("member " ++ hex member ++ " not found"))
  | some h =>
    if h.member.learner then .error (.backend "cannot transfer leadership to a learner")
    else if !h.responsive then .error (.unavailable "leadership transferee is not responding")
    else if s.cluster.leader = member then .ok s
    else .ok { s with cluster := { s.cluster with leader := member, term := s.cluster.term + 1 } }

def leaderName (s : Store) : Option String :=
  (s.cluster.hosts.find? fun h => h.member.id = s.cluster.leader).map (·.member.name)

/-- Changes the first member of a name. -/
def updateHost (s : Store) (name : String) (f : Host → Host) : Store :=
  let rec go : List Host → List Host
    | [] => []
    | h :: hs => if h.member.name = name then f h :: hs else h :: go hs
  { s with cluster := { s.cluster with hosts := go s.cluster.hosts } }

def setResponsive (s : Store) (name : String) (responsive : Bool) : Store :=
  s.updateHost name fun h => { h with responsive }

def setLearner (s : Store) (name : String) (learner : Bool) : Store :=
  s.updateHost name fun h => { h with member := { h.member with learner } }

end Keyspace.Store
