import Keyspace.Proofs.Chunked.Layout
import Keyspace.Proofs.Text.Head

/-!
# Values side by side

A logical key is apart from another if it is not where that one has its chunks, and not under it. What a value has
at its own keys is then none of the other's (`Apart.not_owns`), whatever their names begin or end with.
-/

namespace Keyspace

/-! ## Cutting at a slash -/

section
variable {h x y a c : Bytes}

/-- A head that ends in a slash goes no further than to the last one. -/
theorem prefix_cut (ha : (47 : UInt8) ∉ a) (hp : h ++ [47] <+: x ++ 47 :: a) : h = x ∨ h ++ [47] <+: x := by
  obtain ⟨t, ht⟩ := hp
  rcases List.append_eq_append_iff.1 ht with ⟨d, rfl, -⟩ | ⟨d, hd, hrest⟩
  · exact .inr (List.prefix_append _ _)
  · cases d with
    | nil => exact .inr ⟨[], by rw [List.append_nil, hd, List.append_nil]⟩
    | cons z d =>
      obtain ⟨rfl, rfl⟩ := List.cons.inj hrest
      rcases List.eq_nil_or_concat d with rfl | ⟨d, z, rfl⟩
      · exact .inl (List.append_cancel_right hd)
      · rw [List.concat_eq_append, ← List.cons_append, ← List.append_assoc] at hd
        obtain ⟨-, hz⟩ := List.append_inj' hd rfl
        have hmem : (47 : UInt8) ∈ d.concat z := by rw [List.concat_eq_append, ← hz]; simp
        exact absurd (List.mem_append_left t hmem) ha

theorem eq_of_cut (ha : (47 : UInt8) ∉ a) (hc : (47 : UInt8) ∉ c) (he : x ++ 47 :: a = y ++ 47 :: c) :
    x = y ∧ a = c := by
  have cut : ∀ u v : Bytes, u ++ 47 :: v = (u ++ [47]) ++ v := fun u v => by simp
  have hxy : x ++ [47] <+: y ++ 47 :: c := ⟨a, by rw [← cut, he]⟩
  have hyx : y ++ [47] <+: x ++ 47 :: a := ⟨c, by rw [← cut, he]⟩
  have heq : x = y := by
    rcases prefix_cut hc hxy with hxy | hxy
    · exact hxy
    · rcases prefix_cut ha hyx with hyx | hyx
      · exact hyx.symm
      · have h₁ := hxy.length_le
        have h₂ := hyx.length_le
        rw [List.length_append, List.length_singleton] at h₁ h₂
        exact absurd h₁ (by omega)
  subst heq
  exact ⟨rfl, (List.cons.inj (List.append_cancel_left he)).2⟩

end

namespace Chunked

variable {key other : String}

/-! ## The parts of keys -/

theorem slash_not_mem_int (i : Int) : (47 : UInt8) ∉ Utf8.encode (toString i) := by
  intro hi
  rcases Utf8.mem_encode_int hi with hi | hi
  · exact absurd hi (by decide)
  · exact absurd hi (by decide)

def chunksName (key : String) : Bytes := Utf8.encode key ++ Utf8.encode "/chunks"

theorem encode_chunksHead_eq (key : String) : Utf8.encode (chunksHead key) = chunksName key ++ [47] := by
  have h : Utf8.encode "/chunks/" = Utf8.encode "/chunks" ++ [47] := rfl
  rw [encode_chunksHead, chunksName, h, List.append_assoc]

theorem encode_infoKey_eq (key : String) : Utf8.encode (infoKey key) = Utf8.encode key ++ 47 :: Utf8.encode "info" :=
  encode_infoKey key

theorem chunksName_eq (key : String) : chunksName key = Utf8.encode key ++ 47 :: Utf8.encode "chunks" := rfl

theorem encode_chunkKey_eq (key : String) (version index : Int) : Utf8.encode (chunkKey key version index) =
    (chunksName key ++ 47 :: 118 :: Utf8.encode (toString version)) ++ 47 :: Utf8.encode (toString index) := by
  rw [encode_chunkKey, encode_versionHead, encode_chunksHead_eq]
  simp only [List.append_assoc, List.cons_append, List.nil_append]

/-! ## Keys apart -/

/-- The other key is neither that under which the chunks are nor one that begins as they do. -/
structure Apart (key other : String) : Prop where
  ne : other ≠ key
  name : other ≠ key ++ "/chunks"
  under : ∀ tail, other ≠ chunksHead key ++ tail

/-- The keys at which a value is: its info record's and those of its chunks. -/
inductive KeyOf (key : String) : Bytes → Prop
  | info : KeyOf key (Utf8.encode (infoKey key))
  | chunk (version index : Int) : KeyOf key (Utf8.encode (chunkKey key version index))

namespace Apart

theorem not_prefix (h : Apart key other) : ¬ Utf8.encode (chunksHead key) <+: Utf8.encode other := fun hp => by
  obtain ⟨tail, rfl⟩ := Utf8.exists_append_of_prefix hp
  exact h.under tail rfl

theorem chunksName_ne (h : Apart key other) : chunksName key ≠ Utf8.encode other := fun he =>
  h.name (Utf8.encode_inj (he.symm.trans (Utf8.encode_append key "/chunks").symm))

theorem encode_ne (h : Apart key other) : Utf8.encode key ≠ Utf8.encode other := fun he =>
  h.ne (Utf8.encode_inj he).symm

theorem not_owns_info (h : Apart key other) : ¬ Owns key (Utf8.encode (infoKey other)) := by
  have hinfo : (47 : UInt8) ∉ Utf8.encode "info" := by decide
  rw [encode_infoKey_eq other]
  rintro (he | hp)
  · rw [encode_infoKey_eq key] at he
    exact h.encode_ne (eq_of_cut hinfo hinfo he).1.symm
  · rw [encode_chunksHead_eq] at hp
    rcases prefix_cut hinfo hp with he | hp
    · exact h.chunksName_ne he
    · exact h.not_prefix (encode_chunksHead_eq key ▸ hp)

theorem not_owns_chunk (h : Apart key other) (version index : Int) :
    ¬ Owns key (Utf8.encode (chunkKey other version index)) := by
  have hchunks : (47 : UInt8) ∉ Utf8.encode "chunks" := by decide
  have hversion : (47 : UInt8) ∉ 118 :: Utf8.encode (toString version) := fun hm => by
    rcases List.mem_cons.1 hm with hm | hm
    · exact absurd hm (by decide)
    · exact slash_not_mem_int version hm
  rw [encode_chunkKey_eq]
  rintro (he | hp)
  · rw [encode_infoKey_eq] at he
    have hinfo : Utf8.encode (toString index) = Utf8.encode "info" :=
      (eq_of_cut (slash_not_mem_int index) (by decide) he).2
    have hmem : (105 : UInt8) ∈ Utf8.encode (toString index) := hinfo ▸ by decide
    rcases Utf8.mem_encode_int hmem with hm | hm
    · exact absurd hm (by decide)
    · exact absurd hm (by decide)
  · -- The head ends in a slash: it is one of the three before it, or goes no further than to the key itself.
    rw [encode_chunksHead_eq] at hp
    rcases prefix_cut (slash_not_mem_int index) hp with he | hp
    · rw [chunksName_eq] at he
      have hname := (eq_of_cut hchunks hversion he).2
      exact absurd (List.cons.inj hname).1 (by decide)
    · rcases prefix_cut hversion hp with he | hp
      · rw [chunksName_eq, chunksName_eq] at he
        exact h.encode_ne (eq_of_cut hchunks hchunks he).1
      · rcases prefix_cut hchunks hp with he | hp
        · exact h.chunksName_ne he
        · exact h.not_prefix (encode_chunksHead_eq key ▸ hp)

theorem not_owns (h : Apart key other) {k : Bytes} (hk : KeyOf other k) : ¬ Owns key k := by
  cases hk with
  | info => exact h.not_owns_info
  | chunk version index => exact h.not_owns_chunk version index

/-- A key that only begins as another does is apart from it, as long as it does not go on to its chunks. -/
theorem of_append {tail : String} (hne : tail ≠ "") (hname : tail ≠ "/chunks") (hunder : ∀ t, tail ≠ "/chunks/" ++ t) :
    Apart key (key ++ tail) where
  ne he := hne (String.append_right_inj key |>.1 (he.trans String.append_empty.symm))
  name he := hname (String.append_right_inj key |>.1 he)
  under t he := hunder t (String.append_right_inj key |>.1 (by rw [he, chunksHead, String.append_assoc]))

theorem siblings (key : String) : ∀ tail ∈ ["-x", "2", "/info"], Apart key (key ++ tail) := by
  have hlong : ∀ t : String, 8 ≤ ("/chunks/" ++ t).length := fun t => by
    rw [String.length_append]
    exact Nat.le_add_right 8 _
  have hshort : ∀ tail ∈ ["-x", "2", "/info"], tail ≠ "" ∧ tail ≠ "/chunks" ∧ tail.length < 8 := by decide
  intro tail hm
  obtain ⟨hne, hname, hlt⟩ := hshort tail hm
  exact .of_append hne hname fun t he => absurd (hlong t) (Nat.not_le_of_lt (he ▸ hlt))

end Apart

/-! ## Versions -/

theorem contains_versionHead (m n index : Int) :
    (Span.under (Utf8.encode (versionHead key m))).contains (Utf8.encode (chunkKey key n index)) = decide (m = n) := by
  rw [Bool.eq_iff_iff, Span.contains_under, decide_eq_true_eq]
  exact ⟨version_eq_of_under, fun h => h ▸ versionHead_prefix_chunkKey m index⟩

end Chunked

end Keyspace
