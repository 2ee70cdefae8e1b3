import Keyspace.Order

/-!
# Sorted maps

A map is its list of entries in strictly ascending key order, so two maps with the same entries
are equal. `get?_insert` and `get?_erase` say what the operations do.
-/

namespace Keyspace

variable {κ ν μ : Type} [KeyOrder κ]

def Ascending (l : List (κ × ν)) : Prop := l.Pairwise fun a b => KeyOrder.lt a.1 b.1 = true

structure SortedMap (κ ν : Type) [KeyOrder κ] where
  entries : List (κ × ν)
  ascending : Ascending entries

namespace SortedMap

instance [DecidableEq κ] [DecidableEq ν] : DecidableEq (SortedMap κ ν)
  | ⟨l, _⟩, ⟨m, _⟩ =>
    if h : l = m then .isTrue (by subst h; rfl) else .isFalse (fun e => h (by injection e))

@[ext] theorem ext {m n : SortedMap κ ν} (h : m.entries = n.entries) : m = n := by
  cases m; cases n; cases h; rfl

def empty : SortedMap κ ν := ⟨[], List.Pairwise.nil⟩

instance : Inhabited (SortedMap κ ν) := ⟨empty⟩

/-! ## Inserting and removing in a list -/

def insertEntry (k : κ) (v : ν) : List (κ × ν) → List (κ × ν)
  | [] => [(k, v)]
  | e :: l =>
    if KeyOrder.lt k e.1 then (k, v) :: e :: l
    else if KeyOrder.lt e.1 k then e :: insertEntry k v l
    else (k, v) :: l

theorem mem_insertEntry {k : κ} {v : ν} {l : List (κ × ν)} {e : κ × ν}
    (h : e ∈ insertEntry k v l) : e = (k, v) ∨ e ∈ l := by
  induction l with
  | nil => exact .inl (by simpa [insertEntry] using h)
  | cons d l ih =>
    simp only [insertEntry] at h
    split at h
    · simpa using h
    · split at h
      · rcases List.mem_cons.1 h with h | h
        · exact .inr (by simp [h])
        · exact (ih h).imp_right (List.mem_cons_of_mem _)
      · rcases List.mem_cons.1 h with h | h
        · exact .inl h
        · exact .inr (List.mem_cons_of_mem _ h)

theorem ascending_insertEntry (k : κ) (v : ν) {l : List (κ × ν)} (h : Ascending l) :
    Ascending (insertEntry k v l) := by
  induction l with
  | nil => simp [insertEntry, Ascending]
  | cons e l ih =>
    obtain ⟨he, hl⟩ := List.pairwise_cons.1 h
    simp only [insertEntry]
    split
    · rename_i hk
      refine List.pairwise_cons.2 ⟨fun d hd => ?_, h⟩
      rcases List.mem_cons.1 hd with rfl | hd
      · exact hk
      · exact KeyOrder.trans hk (he d hd)
    · rename_i hk
      split
      · rename_i hk'
        refine List.pairwise_cons.2 ⟨fun d hd => ?_, ih hl⟩
        rcases mem_insertEntry hd with rfl | hd
        · exact hk'
        · exact he d hd
      · rename_i hk'
        have : e.1 = k := KeyOrder.connected (by simpa using hk') (by simpa using hk)
        exact List.pairwise_cons.2 ⟨fun d hd => this ▸ he d hd, hl⟩

/-! ## Operations -/

def get? [DecidableEq κ] (m : SortedMap κ ν) (k : κ) : Option ν :=
  (m.entries.find? fun e => e.1 = k).map (·.2)

def contains [DecidableEq κ] (m : SortedMap κ ν) (k : κ) : Bool := m.entries.any fun e => e.1 = k

def keys (m : SortedMap κ ν) : List κ := m.entries.map (·.1)

def values (m : SortedMap κ ν) : List ν := m.entries.map (·.2)

def size (m : SortedMap κ ν) : Nat := m.entries.length

def isEmpty (m : SortedMap κ ν) : Bool := m.entries.isEmpty

def insert (m : SortedMap κ ν) (k : κ) (v : ν) : SortedMap κ ν :=
  ⟨insertEntry k v m.entries, ascending_insertEntry k v m.ascending⟩

def filter (m : SortedMap κ ν) (p : κ → ν → Bool) : SortedMap κ ν :=
  ⟨m.entries.filter fun e => p e.1 e.2, m.ascending.sublist List.filter_sublist⟩

def erase [DecidableEq κ] (m : SortedMap κ ν) (k : κ) : SortedMap κ ν :=
  m.filter fun k' _ => k' ≠ k

/-- The values changed, `none` dropping an entry. -/
def filterMap (m : SortedMap κ ν) (f : κ → ν → Option μ) : SortedMap κ μ where
  entries := m.entries.filterMap fun e => (f e.1 e.2).map (e.1, ·)
  ascending := by
    refine List.Pairwise.filterMap _ (fun a b h c hc d hd => ?_) m.ascending
    simp only [Option.map_eq_some_iff] at hc hd
    obtain ⟨_, _, rfl⟩ := hc
    obtain ⟨_, _, rfl⟩ := hd
    exact h

def insertAll (m : SortedMap κ ν) (l : List (κ × ν)) : SortedMap κ ν :=
  l.foldl (fun m e => m.insert e.1 e.2) m

/-- Of entries with one key the last one stays. -/
def ofList (l : List (κ × ν)) : SortedMap κ ν := insertAll empty l

/-- The entries from key `start` on. -/
def dropBelow (m : SortedMap κ ν) (start : κ) : SortedMap κ ν :=
  ⟨m.entries.dropWhile fun e => KeyOrder.lt e.1 start,
    m.ascending.sublist (List.dropWhile_sublist _)⟩

/-- The entries below key `stop`. -/
def takeBelow (m : SortedMap κ ν) (stop : κ) : SortedMap κ ν :=
  ⟨m.entries.takeWhile fun e => KeyOrder.lt e.1 stop,
    m.ascending.sublist (List.takeWhile_sublist _)⟩

/-- The entries from key `start` on and below key `stop`. There is no such part of the order if `stop` is
below `start`. -/
def slice? (m : SortedMap κ ν) (start stop : κ) : Option (SortedMap κ ν) :=
  if KeyOrder.lt stop start then none else some ((m.dropBelow start).takeBelow stop)

theorem slice?_of_lt (m : SortedMap κ ν) {start stop : κ} (h : KeyOrder.lt start stop = true) :
    m.slice? start stop = some ((m.dropBelow start).takeBelow stop) := by
  rw [slice?, KeyOrder.asymm h]
  rfl

theorem slice?_eq_none_iff (m : SortedMap κ ν) (start stop : κ) :
    m.slice? start stop = none ↔ KeyOrder.lt stop start = true := by
  unfold slice?
  split <;> simp_all

end SortedMap

/-! ## Sorted sets -/

/-- A set is a map to nothing. -/
abbrev SortedSet (κ : Type) [KeyOrder κ] := SortedMap κ Unit

namespace SortedSet

def insert (s : SortedSet κ) (k : κ) : SortedSet κ := SortedMap.insert s k ()

def ofList (l : List κ) : SortedSet κ := SortedMap.ofList (l.map (·, ()))

def filter (s : SortedSet κ) (p : κ → Bool) : SortedSet κ := SortedMap.filter s fun k _ => p k

def insertAll (s : SortedSet κ) (l : List κ) : SortedSet κ := l.foldl insert s

end SortedSet

/-! ## Lookups -/

namespace SortedMap

variable [DecidableEq κ]

theorem contains_eq_isSome (m : SortedMap κ ν) (k : κ) : m.contains k = (m.get? k).isSome := by
  simp [contains, get?, Option.isSome_map, List.isSome_find?]

theorem find?_insertEntry (k : κ) (v : ν) (l : List (κ × ν)) (j : κ) :
    (insertEntry k v l).find? (fun e => e.1 = j) =
      if k = j then some (k, v) else l.find? fun e => e.1 = j := by
  induction l with
  | nil => by_cases h : k = j <;> simp [insertEntry, h]
  | cons e l ih =>
    simp only [insertEntry]
    split
    · by_cases h : k = j <;> simp [h]
    · rename_i hk
      split
      · rename_i hk'
        have hne := KeyOrder.ne_of_lt hk'
        by_cases h : e.1 = j
        · have : ¬ k = j := fun hkj => hne (h.trans hkj.symm)
          simp [h, this]
        · simp [h, ih]
      · rename_i hk'
        have he : e.1 = k := KeyOrder.connected (by simpa using hk') (by simpa using hk)
        by_cases h : k = j <;> simp [h, he]

@[simp] theorem get?_empty (k : κ) : (empty : SortedMap κ ν).get? k = none := rfl

theorem get?_insert (m : SortedMap κ ν) (k : κ) (v : ν) (j : κ) :
    (m.insert k v).get? j = if k = j then some v else m.get? j := by
  simp only [get?, insert, find?_insertEntry]
  split <;> rfl

theorem get?_erase (m : SortedMap κ ν) (k j : κ) :
    (m.erase k).get? j = if k = j then none else m.get? j := by
  simp only [get?, erase, filter, List.find?_filter]
  split
  · rename_i h
    subst h
    simp
  · rename_i h
    congr 2
    funext e
    by_cases he : e.1 = j
    · simp [he, Ne.symm h]
    · simp [he]

end SortedMap

end Keyspace
