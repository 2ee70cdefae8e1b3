import Keyspace.Store.Basic

/-!
# Compaction

Compaction raises the floor and forgets what only reads below it would need.
-/

namespace Keyspace

/-- Of the points at or below the floor only the newest is kept. -/
def History.compact (h : History) (floor : Int) : History :=
  h.takeWhile (floor < ·.revision) ++ (h.dropWhile (floor < ·.revision)).take 1

/-- Nothing is left but that the key was deleted. -/
def History.isGone : History → Bool
  | [p] => p.record.isNone
  | _ => false

/-- The floor never sinks and never passes the current revision. -/
def Store.compact (s : Store) (revision : Int) : Store :=
  if revision ≤ s.floor then s
  else
    let floor := min revision s.revision
    { s with
      floor := floor
      log := s.log.filter (floor ≤ ·.revision)
      histories := s.histories.filterMap fun _ h =>
        let h := h.compact floor
        if h.isGone then none else some h }

end Keyspace
