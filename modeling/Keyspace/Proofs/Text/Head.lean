import Keyspace.Text.Affix
import Keyspace.Text.Utf8.Lemmas

/-!
# Heads of keys

For keys that are text, to begin with a head is the same by bytes and by characters, and what is left
when the head is cut off tells the key.
-/

namespace Keyspace

/-- Bytes that some text is written as. -/
def IsText (b : Bytes) : Prop := ∃ s : String, Utf8.encode s = b

namespace Utf8

theorem units_flatMap_append (l : List Char) (rest : Bytes) :
    units (l.flatMap String.utf8EncodeChar ++ rest) = l.map some ++ units rest := by
  induction l with
  | nil => rfl
  | cons c l ih => rw [List.flatMap_cons, List.append_assoc, units_encodeChar, ih]; rfl

theorem decodeLossy_encode_append (s : String) (rest : Bytes) :
    decodeLossy (encode s ++ rest) = s ++ decodeLossy rest := by
  apply String.toList_inj.1
  simp [decodeLossy, encode_eq, units_flatMap_append, Function.comp_def]

theorem exists_append_of_prefix {head s : String} (h : encode head <+: encode s) : ∃ t, s = head ++ t := by
  obtain ⟨rest, hr⟩ := h
  refine ⟨decodeLossy rest, ?_⟩
  rw [← decodeLossy_encode_append, hr, decodeLossy_encode]

end Utf8

namespace Text

@[simp] theorem trimStart_append (head t : String) : trimStart (head ++ t) head = t := by
  have hs : startsWith (head ++ t) head = true := by
    rw [startsWith, List.isPrefixOf_iff_prefix, String.toList_append]
    exact List.prefix_append _ _
  rw [trimStart, if_pos hs, String.toList_append, List.drop_left, String.ofList_toList]

end Text

theorem IsText.under_iff {head : String} {k : Bytes} (h : IsText k) :
    Utf8.encode head <+: k ↔ ∃ t, k = Utf8.encode (head ++ t) := by
  obtain ⟨s, rfl⟩ := h
  constructor
  · intro hp
    obtain ⟨t, rfl⟩ := Utf8.exists_append_of_prefix hp
    exact ⟨t, rfl⟩
  · rintro ⟨t, ht⟩
    rw [ht, Utf8.encode_append]
    exact List.prefix_append _ _

end Keyspace
