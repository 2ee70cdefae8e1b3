import Keyspace.Lock.Lock
import Keyspace.Proofs.Json.RoundTrip
import Keyspace.Record

/-!
# The record of a lock

The payload of a lock is an object that begins with the lease, and whoever reads it as a lock is given
that lease.
-/

namespace Keyspace

/-- The payload is that of a lock, and the lease in it is the one that the record is bound to. -/
def Record.NamesLease (r : Record) : Prop :=
  ∃ ttl text, Json.ofBytes? r.value =
    some (.obj [("Lease", .int r.lease), ("Ttl", .int ttl), ("Timestamp", .str text)])

theorem Lock.ofBytes?_toBytes_json (l : Lock) : Json.ofBytes? l.toBytes = some l.toJson :=
  Json.ofBytes?_render (j := l.toJson) ⟨trivial, trivial, trivial, trivial⟩

theorem Record.namesLease_of_value {r : Record} {l : Lock} (hv : r.value = l.toBytes) (hl : r.lease = l.lease) :
    r.NamesLease := by
  refine ⟨l.ttl, l.acquiredAt.toText, ?_⟩
  rw [hv, hl]
  exact l.ofBytes?_toBytes_json

theorem Record.NamesLease.lease_eq {r : Record} (h : r.NamesLease) {l : Lock} (hl : Lock.ofBytes? r.value = some l) :
    l.lease = r.lease := by
  obtain ⟨ttl, text, hj⟩ := h
  have hg : Json.given? ["Lease", "Ttl", "Timestamp"] true
      (.obj [("Lease", .int r.lease), ("Ttl", .int ttl), ("Timestamp", .str text)]) =
    some ⟨true, [("Lease", some (.int r.lease)), ("Ttl", some (.int ttl)), ("Timestamp", some (.str text))]⟩ := rfl
  have hint : ∀ n, Json.int64? (.int r.lease) = some n → n = r.lease := by
    intro n hn
    simp only [Json.int64?, Json.intIn?] at hn
    split at hn
    · exact (Option.some.inj hn).symm
    · cases hn
  unfold Lock.ofBytes? at hl
  rw [hj, Option.bind_some, Lock.ofJson?, hg] at hl
  simp only [Option.bind_eq_bind, Option.bind_some, Option.bind_eq_some_iff] at hl
  obtain ⟨lease, hlease, _, _, _, _, he⟩ := hl
  cases he
  exact hint lease hlease

end Keyspace
