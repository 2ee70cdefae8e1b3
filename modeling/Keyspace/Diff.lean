import Keyspace.Txn

/-!
# Diffs of keyspaces

A diff turns a destination into a source: it inserts the keys that only the source has, updates
those whose values differ, and deletes those that only the destination has.
-/

namespace Keyspace

structure Diff where
  inserts : ValueMap
  updates : ValueMap
  deletions : SortedSet String
  deriving DecidableEq

namespace Diff

def empty : Diff := ⟨.empty, .empty, .empty⟩

instance : Inhabited Diff := ⟨empty⟩

/-- The diff that turns `dst` into `src`. -/
def between (src dst : ValueMap) : Diff where
  inserts := src.filter fun k _ => !dst.contains k
  updates := src.filter fun k v => (dst.get? k).any (· ≠ v)
  deletions := dst.filterMap fun k _ => if src.contains k then none else some ()

/-- The diff between two listings, each keyed relative to its own head. -/
def betweenListings (src : Listing) (srcHead : String) (dst : Listing) (dstHead : String) : Diff :=
  between (src.valueMap srcHead) (dst.valueMap dstHead)

def isEmpty (d : Diff) : Bool := d.inserts.isEmpty && d.updates.isEmpty && d.deletions.isEmpty

def size (d : Diff) : Nat := d.inserts.size + d.updates.size + d.deletions.size

/-- Inserts, then updates. -/
def upserts (d : Diff) : List (String × Bytes) := d.inserts.entries ++ d.updates.entries

/-- Deletions come first, so a key that is also written stays. -/
def applyTo (d : Diff) (m : ValueMap) : ValueMap :=
  (d.deletions.keys.foldl SortedMap.erase m).insertAll d.upserts

def filterKeys (d : Diff) (keep : String → Bool) : Diff where
  inserts := d.inserts.filter fun k _ => keep k
  updates := d.updates.filter fun k _ => keep k
  deletions := SortedSet.filter d.deletions keep

/-- Of keys that become one, the last in the old order stays. -/
def mapKeys (d : Diff) (f : String → String) : Diff where
  inserts := .ofList (d.inserts.entries.map fun e => (f e.1, e.2))
  updates := .ofList (d.updates.entries.map fun e => (f e.1, e.2))
  deletions := .ofList (d.deletions.keys.map f)

/-- The operations that apply the diff under `head`: deletions, then writes. -/
def ops (d : Diff) (head : String) : List Op :=
  d.deletions.keys.map (fun k => .delete (.single (Utf8.encode (head ++ k))))
    ++ d.upserts.map fun e => .put (Utf8.encode (head ++ e.1)) e.2 none

end Diff

end Keyspace
