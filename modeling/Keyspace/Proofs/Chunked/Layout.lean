import Keyspace.Chunked.Write
import Keyspace.Proofs.Json.RoundTrip
import Keyspace.Proofs.Store.Prefix

/-!
# The layout of chunked values

The info record is read back, the keys of a value do not get in each other's way, and the pieces that
a value is cut into make up the value.
-/

namespace Keyspace.Chunked

/-! ## Info records -/

def Info.Fits (i : Info) : Prop :=
  ∀ n ∈ [i.size, i.count, i.version], -9223372036854775808 ≤ n ∧ n ≤ 9223372036854775807

theorem Info.ofBytes?_toBytes {i : Info} (h : i.Fits) : Info.ofBytes? i.toBytes = some i := by
  have hint : ∀ n ∈ [i.size, i.count, i.version], Json.int64? (.int n) = some n := by
    intro n hn
    simpa [Json.int64?, Json.intIn?] using h n hn
  have hp : i.toJson.Plain := ⟨trivial, trivial, trivial, trivial⟩
  have h₁ := hint i.size (by simp)
  have h₂ := hint i.count (by simp)
  have h₃ := hint i.version (by simp)
  have hg : i.toJson.given? ["Size", "Count", "Version"] true =
      some ⟨true, [("Size", some (.int i.size)), ("Count", some (.int i.count)),
        ("Version", some (.int i.version))]⟩ := rfl
  unfold Info.ofBytes? Info.toBytes
  rw [Json.ofBytes?_render hp, Option.bind_some, Info.ofJson?, hg]
  simp [Json.Given.required, Json.Given.value?, h₁, h₂, h₃]

theorem versionAfter_of_lt {version : Int} (h : 0 ≤ version) (hlt : version + 1 < 9223372036854775808) :
    versionAfter version = version + 1 :=
  Int.bmod_eq_of_le (by simp only [Int64.size]; omega) (by simp only [Int64.size]; omega)

example : versionAfter 9223372036854775807 = -9223372036854775808 := by decide

/-! ## Keys -/

section
variable (key : String)

theorem encode_infoKey : Utf8.encode (infoKey key) = Utf8.encode key ++ Utf8.encode "/info" :=
  Utf8.encode_append _ _

theorem encode_chunksHead : Utf8.encode (chunksHead key) = Utf8.encode key ++ Utf8.encode "/chunks/" :=
  Utf8.encode_append _ _

theorem encode_versionHead (version : Int) : Utf8.encode (versionHead key version) =
    Utf8.encode (chunksHead key) ++ 118 :: (Utf8.encode (toString version) ++ [47]) := by
  have hv : Utf8.encode "/chunks/v" = Utf8.encode "/chunks/" ++ [118] := rfl
  have hs : Utf8.encode "/" = [47] := rfl
  rw [versionHead, Utf8.encode_append, Utf8.encode_append, Utf8.encode_append, hv, hs, encode_chunksHead]
  simp only [List.append_assoc, List.cons_append, List.nil_append]

theorem encode_chunkKey (version index : Int) : Utf8.encode (chunkKey key version index) =
    Utf8.encode (versionHead key version) ++ Utf8.encode (toString index) :=
  Utf8.encode_append _ _

/-- A key of the value: its info record's or one under its chunks. -/
def Owns (k : Bytes) : Prop := k = Utf8.encode (infoKey key) ∨ Utf8.encode (chunksHead key) <+: k

variable {key}

theorem owns_infoKey : Owns key (Utf8.encode (infoKey key)) := .inl rfl

theorem versionHead_prefix_chunkKey (version index : Int) :
    Utf8.encode (versionHead key version) <+: Utf8.encode (chunkKey key version index) := by
  rw [encode_chunkKey]
  exact List.prefix_append _ _

theorem chunksHead_prefix_versionHead (version : Int) :
    Utf8.encode (chunksHead key) <+: Utf8.encode (versionHead key version) := by
  rw [encode_versionHead]
  exact List.prefix_append _ _

theorem owns_chunkKey (version index : Int) : Owns key (Utf8.encode (chunkKey key version index)) :=
  .inr ((chunksHead_prefix_versionHead version).trans (versionHead_prefix_chunkKey version index))

theorem not_chunksHead_prefix_infoKey : ¬ Utf8.encode (chunksHead key) <+: Utf8.encode (infoKey key) := by
  have hi : Utf8.encode "/info" = [47, 105, 110, 102, 111] := rfl
  have hc : Utf8.encode "/chunks/" = [47, 99, 104, 117, 110, 107, 115, 47] := rfl
  rw [encode_infoKey, encode_chunksHead, List.prefix_append_right_inj, hi, hc]
  decide

theorem not_versionHead_prefix_infoKey (version : Int) :
    ¬ Utf8.encode (versionHead key version) <+: Utf8.encode (infoKey key) := fun h =>
  not_chunksHead_prefix_infoKey ((chunksHead_prefix_versionHead version).trans h)

theorem chunkKey_ne_infoKey (version index : Int) :
    Utf8.encode (chunkKey key version index) ≠ Utf8.encode (infoKey key) := by
  intro h
  have hp : Utf8.encode (versionHead key version) <+: _ := versionHead_prefix_chunkKey version index
  rw [h] at hp
  exact not_versionHead_prefix_infoKey version hp

/-- The slash after the version keeps versions apart of which one begins with the other. -/
theorem version_eq_of_under {m n index : Int}
    (h : Utf8.encode (versionHead key m) <+: Utf8.encode (chunkKey key n index)) : m = n := by
  have hslash : ∀ i : Int, (47 : UInt8) ∉ Utf8.encode (toString i) := by
    intro i hi
    rcases Utf8.mem_encode_int hi with hi | hi
    · exact absurd hi (by decide)
    · exact absurd hi (by decide)
  rw [encode_chunkKey, encode_versionHead, encode_versionHead, List.append_assoc,
    List.prefix_append_right_inj, List.cons_append, List.cons_prefix_cons, List.append_assoc] at h
  obtain ⟨t, ht⟩ := h.2
  apply Utf8.encode_int_inj
  rw [List.append_assoc] at ht
  rcases List.append_eq_append_iff.1 ht with ⟨a, ha, hb⟩ | ⟨a, ha, hb⟩
  · cases a with
    | nil => simpa using ha.symm
    | cons x a =>
      have hx : 47 = x := (List.cons.inj hb).1
      exact absurd (ha ▸ List.mem_append_right _ (hx ▸ List.mem_cons_self)) (hslash n)
  · cases a with
    | nil => simpa using ha
    | cons x a =>
      have hx : 47 = x := (List.cons.inj hb).1
      exact absurd (ha ▸ List.mem_append_right _ (hx ▸ List.mem_cons_self)) (hslash m)

theorem version_eq_of_chunkKey_eq {m n i j : Int}
    (h : Utf8.encode (chunkKey key m i) = Utf8.encode (chunkKey key n j)) : m = n := by
  have hp : Utf8.encode (versionHead key m) <+: _ := versionHead_prefix_chunkKey m i
  rw [h] at hp
  exact version_eq_of_under hp

theorem index_eq_of_chunkKey_eq {version i j : Int}
    (h : Utf8.encode (chunkKey key version i) = Utf8.encode (chunkKey key version j)) : i = j := by
  rw [encode_chunkKey, encode_chunkKey] at h
  exact Utf8.encode_int_inj (List.append_cancel_left h)

end

/-! ## Pieces -/

def piece (chunkSize : Nat) (b : Bytes) (index : Nat) : Bytes := (b.drop (index * chunkSize)).take chunkSize

variable {chunkSize size i : Nat}

theorem lt_chunkCount_iff (hc : 0 < chunkSize) : i < chunkCount size chunkSize ↔ i * chunkSize < size := by
  have hdm := Nat.div_add_mod size chunkSize
  have hm := Nat.mod_lt size hc
  rw [Nat.mul_comm] at hdm
  unfold chunkCount
  split
  · rename_i h0
    rw [Nat.add_zero, Nat.lt_div_iff_mul_lt hc]
    constructor
    · intro h
      omega
    · intro h
      have hk : i < size / chunkSize := by
        apply Nat.lt_of_mul_lt_mul_right (a := chunkSize)
        omega
      have := Nat.mul_le_mul_right chunkSize (Nat.succ_le_of_lt hk)
      rw [Nat.succ_mul] at this
      omega
  · rename_i h0
    constructor
    · intro h
      have := Nat.mul_le_mul_right chunkSize (Nat.le_of_lt_succ h)
      omega
    · intro h
      apply Nat.lt_of_mul_lt_mul_right (a := chunkSize)
      rw [Nat.succ_mul]
      omega

theorem le_chunkCount_mul (hc : 0 < chunkSize) : size ≤ chunkCount size chunkSize * chunkSize :=
  Nat.le_of_not_lt fun h => Nat.lt_irrefl _ ((lt_chunkCount_iff hc).2 h)

theorem flatten_take_pieces (b : Bytes) (n : Nat) :
    ((List.range n).map (piece chunkSize b)).flatten = b.take (n * chunkSize) := by
  induction n with
  | zero => simp
  | succ n ih =>
    rw [List.range_succ, List.map_append, List.flatten_append, ih, Nat.succ_mul, List.take_add]
    simp [piece]

theorem flatten_pieces (hc : 0 < chunkSize) (b : Bytes) :
    ((List.range (chunkCount b.length chunkSize)).map (piece chunkSize b)).flatten = b := by
  rw [flatten_take_pieces, List.take_of_length_le (le_chunkCount_mul hc)]

/-- Taking a chunk's length off what is left of a source gives the piece of what was asked for. -/
theorem take_chunkLength (b : Bytes) (size chunkSize index : Nat) :
    (b.drop (index * chunkSize)).take (chunkLength size chunkSize index) =
      piece chunkSize (b.take size) index := by
  rw [piece, List.drop_take, List.take_take, chunkLength]

theorem chunkLength_of_lt (h : i + 1 < chunkCount size chunkSize) : chunkLength size chunkSize i = chunkSize := by
  by_cases hc : 0 < chunkSize
  · have := (lt_chunkCount_iff hc).1 h
    rw [Nat.succ_mul] at this
    unfold chunkLength
    omega
  · have h0 : chunkSize = 0 := by omega
    subst h0
    unfold chunkCount at h
    rw [Nat.div_zero] at h
    split at h <;> omega

end Keyspace.Chunked
