import Keyspace.Json.Shape
import Keyspace.Proofs.Text.Numeral

/-!
# JSON: reading what was written

The reader takes the text of a value off the front and gives the value back (`value_render`), as long
as the value has no decimals and nothing unreadable. Leaves come first; each takes exactly its own
bytes, since what follows a value is the end or a comma or a closing bracket.
-/

namespace Keyspace.Json

open Utf8

namespace Reader

/-- What may follow a value: the end, a comma or a closing bracket. -/
def Stops (rest : Bytes) : Prop := ∀ b ∈ rest.head?, b = 44 ∨ b = 93 ∨ b = 125

theorem stops_nil : Stops [] := by intro b hb; cases hb

theorem stops_cons {b : UInt8} {rest : Bytes} (h : b = 44 ∨ b = 93 ∨ b = 125) : Stops (b :: rest) := by
  intro c hc
  cases hc
  exact h

theorem Stops.cases {rest : Bytes} (h : Stops rest) :
    rest = [] ∨ ∃ b r, rest = b :: r ∧ (b = 44 ∨ b = 93 ∨ b = 125) := by
  cases rest with
  | nil => exact .inl rfl
  | cons b r => exact .inr ⟨b, r, rfl, h b rfl⟩

theorem skipBlank_cons {b : UInt8} (h : isBlank b = false) (rest : Bytes) :
    skipBlank (b :: rest) = b :: rest := by
  simp [skipBlank, h]

/-! ## Numbers -/

theorem isDigit_iff {b : UInt8} : isDigit b = true ↔ 48 ≤ b.toNat ∧ b.toNat ≤ 57 := by
  simp only [isDigit, Bool.and_eq_true, decide_eq_true_eq, UInt8.le_iff_toNat_le]
  exact Iff.rfl

theorem Stops.takeWhile_digits {rest ds : Bytes} (h : Stops rest) (hd : ∀ b ∈ ds, isDigit b = true) :
    (ds ++ rest).takeWhile isDigit = ds ∧ (ds ++ rest).dropWhile isDigit = rest := by
  induction ds with
  | nil =>
    rcases h.cases with rfl | ⟨b, r, rfl, rfl | rfl | rfl⟩ <;> exact ⟨rfl, rfl⟩
  | cons d ds ih =>
    obtain ⟨ht, hr⟩ := ih fun b hb => hd b (List.mem_cons_of_mem _ hb)
    have := hd d (by simp)
    simp [this, ht, hr]

theorem Stops.fraction {rest : Bytes} (h : Stops rest) : Reader.fraction rest = some ([], rest) := by
  rcases h.cases with rfl | ⟨b, r, rfl, rfl | rfl | rfl⟩ <;> rfl

theorem Stops.exponent {rest : Bytes} (h : Stops rest) : Reader.exponent rest = some ([], rest) := by
  rcases h.cases with rfl | ⟨b, r, rfl, rfl | rfl | rfl⟩ <;> rfl

theorem whole_repr (n : Nat) {rest : Bytes} (h : Stops rest) :
    whole (encode n.repr ++ rest) = some (encode n.repr, rest) := by
  obtain ⟨ht, hr⟩ := h.takeWhile_digits fun b hb => isDigit_iff.2 (digit_of_mem_repr (n := n) hb)
  have hne : (encode n.repr).isEmpty = false := by simpa using encode_repr_ne_nil n
  unfold whole digits1
  simp only [ht, hr, hne]
  have hz : ¬ ((encode n.repr).head? = some (ascii '0') ∧ 1 < (encode n.repr).length) := by
    rintro ⟨h0, hl⟩
    have := head_repr h0
    omega
  simp only [Bool.false_eq_true, if_false, Option.bind_eq_bind, Option.bind_some, Bool.and_eq_true,
    decide_eq_true_eq, if_neg hz]

theorem number_int (n : Int) {rest : Bytes} (h : Stops rest) :
    number (encode (toString n) ++ rest) = some (.int n, rest) := by
  by_cases hn : 0 ≤ n
  · rw [encode_int_of_nonneg hn]
    have hw := whole_repr n.toNat h
    have hv : digitsValue (encode n.toNat.repr) = n.toNat := value_repr n.toNat
    cases hc : encode n.toNat.repr with
    | nil => exact absurd hc (encode_repr_ne_nil _)
    | cons c ds =>
      have hm : c ≠ ascii '-' := by
        rintro rfl
        exact minus_not_mem_repr n.toNat (hc ▸ List.mem_cons_self)
      rw [hc] at hw hv
      rw [List.cons_append] at hw ⊢
      simp only [number, if_neg hm, hw, Option.bind_eq_bind, Option.bind_some, h.fraction, h.exponent, hv]
      simp [Int.toNat_of_nonneg hn]
  · rw [encode_int_of_neg (by omega), List.cons_append]
    have hw := whole_repr (-n).toNat h
    have hv : digitsValue (encode (-n).toNat.repr) = (-n).toNat := value_repr (-n).toNat
    have hm : (45 : UInt8) = ascii '-' := rfl
    simp only [number, if_pos hm, hw, Option.bind_eq_bind, Option.bind_some, h.fraction, h.exponent, hv]
    have h0 : ¬ n = 0 := by omega
    have h1 : ¬ (-n).toNat = 0 := by omega
    simp [h1]
    omega

/-! ## Strings -/

theorem pieces_plain {l : Bytes} (h : ∀ b ∈ l, b ≠ 34 ∧ b ≠ 92 ∧ 32 ≤ b.toNat) {b : Bytes}
    {ps : List Piece} {r : Bytes} (hb : pieces b = some (ps, r)) :
    pieces (l ++ b) = some (l.map .byte ++ ps, r) := by
  induction l with
  | nil => exact hb
  | cons x l ih =>
    obtain ⟨h₁, h₂, h₃⟩ := h x (by simp)
    have hq : ¬ x = ascii '"' := h₁
    have hs : ¬ x = ascii '\\' := h₂
    have hc : ¬ x < 0x20 := by simp [UInt8.lt_iff_toNat_lt]; omega
    have := ih fun y hy => h y (List.mem_cons_of_mem _ hy)
    rw [List.cons_append, pieces.eq_def]
    simp [hq, hs, hc, this]

theorem spell_plain (l : Bytes) (ps : List Piece) :
    spell (l.map .byte ++ ps) = (spell ps).map (l ++ ·) := by
  induction l with
  | nil => simp
  | cons x l ih => simp [spell, ih, Function.comp_def]

theorem plain_of_mem {c : Char} (hq : c ≠ '"') (hs : c ≠ '\\') (hc : 32 ≤ c.toNat) :
    ∀ b ∈ String.utf8EncodeChar c, b ≠ 34 ∧ b ≠ 92 ∧ 32 ≤ b.toNat := by
  intro b hb
  have hn : ∀ m : Nat, 128 ≤ m → m < 256 → UInt8.ofNat m ≠ 34 ∧ UInt8.ofNat m ≠ 92 ∧
      32 ≤ (UInt8.ofNat m).toNat := by
    intro m h₁ h₂
    have ht : (UInt8.ofNat m).toNat = m := by rw [UInt8.toNat_ofNat']; omega
    refine ⟨fun h => ?_, fun h => ?_, by omega⟩ <;> rw [h] at ht <;>
      simp only [UInt8.reduceToNat] at ht <;> omega
  have hv : c.val.toNat = c.toNat := rfl
  rw [String.utf8EncodeChar.eq_1, hv] at hb
  split at hb
  · rw [List.mem_singleton.1 hb]
    have ht : (UInt8.ofNat c.toNat).toNat = c.toNat := by rw [UInt8.toNat_ofNat']; omega
    refine ⟨fun h => hq ?_, fun h => hs ?_, by omega⟩ <;> rw [h] at ht
    · exact Char.toNat_inj.1 ht.symm
    · exact Char.toNat_inj.1 ht.symm
  · split at hb
    · simp only [List.mem_cons, List.not_mem_nil, or_false] at hb
      rcases hb with rfl | rfl <;> exact hn _ (by omega) (by omega)
    · split at hb
      · simp only [List.mem_cons, List.not_mem_nil, or_false] at hb
        rcases hb with rfl | rfl | rfl <;> exact hn _ (by omega) (by omega)
      · simp only [List.mem_cons, List.not_mem_nil, or_false] at hb
        rcases hb with rfl | rfl | rfl | rfl <;> exact hn _ (by omega) (by omega)

theorem hex4_control : ∀ n < 32, hex4 48 48 (UInt8.ofNat (hexDigit (n / 16)).toNat)
    (UInt8.ofNat (hexDigit (n % 16)).toNat) = some n := by decide

theorem hexDigit_ascii : ∀ n < 16, (hexDigit n).toNat < 128 := by decide

theorem pieces_escape (c : Char) {b : Bytes} {ps : List Piece} {r : Bytes} (hb : pieces b = some (ps, r)) :
    ∃ qs, pieces ((escape c).flatMap String.utf8EncodeChar ++ b) = some (qs, r) ∧
      spell qs = (spell ps).map (String.utf8EncodeChar c ++ ·) := by
  -- an escape of two characters stands for one byte
  have short : ∀ e x : UInt8, e ≠ ascii 'u' → escaped e = some x →
      pieces (92 :: e :: b) = some (.byte x :: ps, r) := by
    intro e x hu he
    have h₁ : ¬ (92 : UInt8) = ascii '"' := by decide
    have h₂ : (92 : UInt8) = ascii '\\' := rfl
    rw [pieces.eq_def]
    simp [h₁, ← h₂, hu, he, hb]
  unfold escape
  split
  · exact ⟨_, short 34 34 (by decide) rfl, rfl⟩
  · exact ⟨_, short 92 92 (by decide) rfl, rfl⟩
  · exact ⟨_, short 110 10 (by decide) rfl, rfl⟩
  · exact ⟨_, short 114 13 (by decide) rfl, rfl⟩
  · exact ⟨_, short 116 9 (by decide) rfl, rfl⟩
  · rename_i hq hs _ _ _
    split
    · rename_i h8
      have hc : c = Char.ofNat 8 := by rw [← h8, Char.ofNat_toNat]
      subst hc
      exact ⟨_, short 98 8 (by decide) rfl, rfl⟩
    · split
      · rename_i h12
        have hc : c = Char.ofNat 12 := by rw [← h12, Char.ofNat_toNat]
        subst hc
        exact ⟨_, short 102 12 (by decide) rfl, rfl⟩
      · split
        · rename_i h
          have h₁ : ¬ (92 : UInt8) = ascii '"' := by decide
          have h₂ : (92 : UInt8) = ascii '\\' := rfl
          have h₃ : (117 : UInt8) = ascii 'u' := rfl
          have hl : (['\\', 'u', '0', '0', hexDigit (c.toNat / 16), hexDigit (c.toNat % 16)].flatMap
              String.utf8EncodeChar) = [92, 117, 48, 48, UInt8.ofNat (hexDigit (c.toNat / 16)).toNat,
                UInt8.ofNat (hexDigit (c.toNat % 16)).toNat] := by
            simp only [List.flatMap_cons, List.flatMap_nil,
              encodeChar_of_ascii (hexDigit_ascii (c.toNat / 16) (by omega)),
              encodeChar_of_ascii (hexDigit_ascii (c.toNat % 16) (by omega))]
            rfl
          refine ⟨.unit c.toNat :: ps, ?_, ?_⟩
          · rw [hl]
            rw [pieces.eq_def]
            simp [h₁, ← h₂, ← h₃, hex4_control c.toNat h, hb]
          · have : c.toNat < 0xd800 := by omega
            rw [spell.eq_def]
            simp [this, Char.ofNat_toNat]
        · rename_i h
          have hp := plain_of_mem hq hs (by omega)
          rw [List.flatMap_cons, List.flatMap_nil, List.append_nil]
          exact ⟨_, pieces_plain hp hb, spell_plain _ _⟩

theorem pieces_escapes (l : List Char) (rest : Bytes) :
    ∃ ps, pieces ((l.flatMap escape).flatMap String.utf8EncodeChar ++ 34 :: rest) = some (ps, rest) ∧
      spell ps = some (l.flatMap String.utf8EncodeChar) := by
  induction l with
  | nil => exact ⟨[], by rw [pieces.eq_def]; rfl, rfl⟩
  | cons c l ih =>
    obtain ⟨ps, hp, hs⟩ := ih
    obtain ⟨qs, hq, ht⟩ := pieces_escape c hp
    refine ⟨qs, ?_, ?_⟩
    · rw [List.flatMap_cons, List.flatMap_append, List.append_assoc]
      exact hq
    · rw [ht, hs, List.flatMap_cons]
      rfl

theorem encode_quote (s : String) :
    encode (quote s) = 34 :: ((s.toList.flatMap escape).flatMap String.utf8EncodeChar ++ [34]) := by
  unfold quote
  rw [encode_ofList, List.cons_append, List.flatMap_cons, List.flatMap_append]
  rfl

theorem text_quote (s : String) (rest : Bytes) :
    text ((s.toList.flatMap escape).flatMap String.utf8EncodeChar ++ 34 :: rest) = some (some s, rest) := by
  obtain ⟨ps, hp, hs⟩ := pieces_escapes s.toList rest
  have hd : decode? (s.toList.flatMap String.utf8EncodeChar) = some s := by
    rw [← encode_eq, decode?_encode]
  simp [text, hp, hs, hd]

end Reader

/-! ## Values -/

mutual

/-- Nothing in the value is a decimal or unreadable. -/
def Plain : Json → Prop
  | null | bool _ | int _ | str _ => True
  | decimal _ | unreadable => False
  | arr vs => PlainItems vs
  | obj fs => PlainFields fs

def PlainItems : List Json → Prop
  | [] => True
  | v :: vs => v.Plain ∧ PlainItems vs

def PlainFields : List (String × Json) → Prop
  | [] => True
  | (_, v) :: fs => v.Plain ∧ PlainFields fs

end

namespace Reader

theorem value_quote {n : Nat} (hn : 0 < n) (s : String) (rest : Bytes) :
    value n (encode (quote s) ++ rest) = some (.str s, rest) := by
  obtain ⟨n, rfl⟩ : ∃ m, n = m + 1 := ⟨n - 1, by omega⟩
  have hb : isBlank 34 = false := rfl
  have hq : (34 : UInt8) = ascii '"' := rfl
  rw [encode_quote, List.cons_append, List.append_assoc]
  unfold value
  simp only [skipBlank_cons hb, if_pos hq]
  rw [show ([34] ++ rest : Bytes) = 34 :: rest from rfl, text_quote]
  rfl

theorem value_int {n : Nat} (hn : 0 < n) (i : Int) {rest : Bytes} (h : Stops rest) :
    value n (encode (toString i) ++ rest) = some (.int i, rest) := by
  obtain ⟨n, rfl⟩ : ∃ m, n = m + 1 := ⟨n - 1, by omega⟩
  have hnum := number_int i h
  cases hc : encode (toString i) with
  | nil =>
    exfalso
    by_cases hi : 0 ≤ i
    · exact encode_repr_ne_nil _ (encode_int_of_nonneg hi ▸ hc)
    · rw [encode_int_of_neg (by omega)] at hc
      cases hc
  | cons c l =>
    -- the first byte is a minus or a digit, so no other kind of value begins here
    have hm := mem_encode_int (n := i) (hc ▸ List.mem_cons_self)
    have hne : ∀ b : UInt8, b ≠ 45 → ¬ (48 ≤ b.toNat ∧ b.toNat ≤ 57) → ¬ c = b := by
      rintro b h₁ h₂ rfl
      rcases hm with hm | hm
      · exact h₁ hm
      · exact h₂ hm
    have hb : isBlank c = false := by
      simp only [isBlank, Bool.or_eq_false_iff, decide_eq_false_iff_not]
      refine ⟨⟨⟨hne _ ?_ ?_, hne _ ?_ ?_⟩, hne _ ?_ ?_⟩, hne _ ?_ ?_⟩ <;> decide
    have h₁ : ¬ c = ascii '"' := hne _ (by decide) (by decide)
    have h₂ : ¬ c = ascii '[' := hne _ (by decide) (by decide)
    have h₃ : ¬ c = ascii '\x7b' := hne _ (by decide) (by decide)
    have h₄ : ¬ c = ascii 't' := hne _ (by decide) (by decide)
    have h₅ : ¬ c = ascii 'f' := hne _ (by decide) (by decide)
    have h₆ : ¬ c = ascii 'n' := hne _ (by decide) (by decide)
    rw [hc, List.cons_append] at hnum
    rw [List.cons_append]
    unfold value
    simp only [skipBlank_cons hb, if_neg h₁, if_neg h₂, if_neg h₃, if_neg h₄, if_neg h₅, if_neg h₆]
    exact hnum

theorem stops_renderItems (vs : List Json) (rest : Bytes) : Stops (encode (renderItems vs) ++ rest) := by
  cases vs with
  | nil => exact stops_cons (by decide)
  | cons v vs =>
    rw [renderItems, encode_append, encode_append]
    exact stops_cons (by decide)

theorem stops_renderFields (fs : List (String × Json)) (rest : Bytes) :
    Stops (encode (renderFields fs) ++ rest) := by
  cases fs with
  | nil => exact stops_cons (by decide)
  | cons f fs =>
    obtain ⟨k, v⟩ := f
    rw [renderFields, encode_append, encode_append, encode_append, encode_append]
    exact stops_cons (by decide)

theorem length_renderItems (vs : List Json) : 0 < (encode (renderItems vs)).length := by
  cases vs with
  | nil => decide
  | cons v vs =>
    have hc : (encode ",").length = 1 := rfl
    rw [renderItems, encode_append, encode_append, List.length_append, List.length_append]
    omega

theorem render_head {j : Json} (h : j.Plain) :
    ∃ b l, encode j.render = b :: l ∧ isBlank b = false ∧ b ≠ 93 := by
  cases j with
  | null => exact ⟨_, _, rfl, rfl, by decide⟩
  | bool b => cases b <;> exact ⟨_, _, rfl, rfl, by decide⟩
  | str s => exact ⟨34, _, encode_quote s, rfl, by decide⟩
  | decimal _ => cases h
  | unreadable => cases h
  | arr vs =>
    cases vs with
    | nil => exact ⟨_, _, rfl, rfl, by decide⟩
    | cons v vs => exact ⟨91, _, by rw [render, encode_append, encode_append]; rfl, rfl, by decide⟩
  | obj fs =>
    cases fs with
    | nil => exact ⟨_, _, rfl, rfl, by decide⟩
    | cons f fs =>
      obtain ⟨k, v⟩ := f
      have he : encode (obj ((k, v) :: fs)).render = encode "\x7b" ++ (encode (quote k) ++
          (encode ":" ++ (encode v.render ++ encode (renderFields fs)))) := by
        rw [render, encode_append, encode_append, encode_append, encode_append]
        simp only [List.append_assoc]
      exact ⟨123, _, he, rfl, by decide⟩
  | int i =>
    rw [render]
    by_cases hi : 0 ≤ i
    · cases hc : encode i.toNat.repr with
      | nil => exact absurd hc (encode_repr_ne_nil _)
      | cons b l =>
        have hd := digit_of_mem_repr (n := i.toNat) (hc ▸ List.mem_cons_self)
        have hne : ∀ c : UInt8, ¬ (48 ≤ c.toNat ∧ c.toNat ≤ 57) → b ≠ c := fun c hc h => hc (h ▸ hd)
        refine ⟨b, l, (encode_int_of_nonneg hi).trans hc, ?_, hne _ (by decide)⟩
        simp only [isBlank, Bool.or_eq_false_iff, decide_eq_false_iff_not]
        refine ⟨⟨⟨hne _ ?_, hne _ ?_⟩, hne _ ?_⟩, hne _ ?_⟩ <;> decide
    · exact ⟨45, _, encode_int_of_neg (by omega), rfl, by decide⟩

mutual

theorem value_render : ∀ (j : Json), j.Plain → ∀ (n : Nat) (rest : Bytes),
    (encode j.render).length ≤ n → Stops rest → value n (encode j.render ++ rest) = some (j, rest)
  | .decimal _, h, _, _, _, _ => h.elim
  | .unreadable, h, _, _, _, _ => h.elim
  | .str s, _, n, rest, hn, _ => by
    rw [render] at hn ⊢
    rw [encode_quote, List.length_cons] at hn
    exact value_quote (by omega) s rest
  | .int i, _, n, rest, hn, hr => by
    rw [render] at hn ⊢
    refine value_int ?_ i hr
    obtain ⟨b, l, hb, _⟩ := render_head (j := .int i) trivial
    rw [render] at hb
    rw [hb, List.length_cons] at hn
    omega
  | .null, _, n, rest, hn, _ => by
    obtain ⟨n, rfl⟩ : ∃ m, n = m + 1 := ⟨n - 1, by
      have : (encode Json.null.render).length = 4 := rfl
      omega⟩
    unfold value
    rfl
  | .bool b, _, n, rest, hn, _ => by
    obtain ⟨n, rfl⟩ : ∃ m, n = m + 1 := ⟨n - 1, by
      have : 0 < (encode (Json.bool b).render).length := by cases b <;> decide
      omega⟩
    unfold value
    cases b <;> rfl
  | .arr [], _, n, rest, hn, _ => by
    obtain ⟨n, rfl⟩ : ∃ m, n = m + 1 := ⟨n - 1, by
      have : 0 < (encode (Json.arr []).render).length := by decide
      omega⟩
    unfold value
    rfl
  | .obj [], _, n, rest, hn, _ => by
    obtain ⟨n, rfl⟩ : ∃ m, n = m + 1 := ⟨n - 1, by
      have : 0 < (encode (Json.obj []).render).length := by decide
      omega⟩
    unfold value
    rfl
  | .arr (v :: vs), h, n, rest, hn, hr => by
    rw [render, encode_append, encode_append] at hn ⊢
    have h91 : encode "[" = [91] := rfl
    rw [h91] at hn ⊢
    simp only [List.length_append, List.length_singleton] at hn
    obtain ⟨n, rfl⟩ : ∃ m, n = m + 1 := ⟨n - 1, by omega⟩
    obtain ⟨b, l, hb, hblank, hclose⟩ := render_head h.1
    have hi := items_render (v :: vs) v vs rfl h n rest (by rw [List.length_append]; omega)
    have h1 : ¬ (91 : UInt8) = ascii '"' := by decide
    have h2 : (91 : UInt8) = ascii '[' := rfl
    have h3 : ¬ b = ascii ']' := hclose
    have hblank' : isBlank 91 = false := rfl
    rw [hb] at hi ⊢
    simp only [List.cons_append, List.nil_append, List.append_assoc] at hi ⊢
    unfold value
    simp only [skipBlank_cons hblank', skipBlank_cons hblank, if_neg h1, if_pos h2, if_neg h3, hi]
    rfl
  | .obj ((k, v) :: fs), h, n, rest, hn, hr => by
    rw [render, encode_append, encode_append, encode_append, encode_append] at hn ⊢
    have h123 : encode "\x7b" = [123] := rfl
    rw [h123] at hn ⊢
    simp only [List.length_append, List.length_singleton] at hn
    obtain ⟨n, rfl⟩ : ∃ m, n = m + 1 := ⟨n - 1, by omega⟩
    have hi := fields_render ((k, v) :: fs) k v fs rfl h n rest (by simp only [List.length_append]; omega)
    have h1 : ¬ (123 : UInt8) = ascii '"' := by decide
    have h2 : ¬ (123 : UInt8) = ascii '[' := by decide
    have h3 : (123 : UInt8) = ascii '\x7b' := rfl
    have h4 : ¬ (34 : UInt8) = ascii '\x7d' := by decide
    have hblank : isBlank 123 = false := rfl
    have hblank' : isBlank 34 = false := rfl
    rw [encode_quote] at hi ⊢
    simp only [List.cons_append, List.nil_append, List.append_assoc] at hi ⊢
    unfold value
    simp only [skipBlank_cons hblank, skipBlank_cons hblank', if_neg h1, if_neg h2, if_pos h3, if_neg h4, hi]
    rfl

theorem items_render : ∀ (l : List Json) (v : Json) (vs : List Json), l = v :: vs → PlainItems l →
    ∀ (n : Nat) (rest : Bytes), (encode v.render ++ encode (renderItems vs)).length ≤ n →
      items n (encode v.render ++ (encode (renderItems vs) ++ rest)) = some (v :: vs, rest)
  | [], _, _, hl, _, _, _, _ => by cases hl
  | v :: vs, _, _, rfl, h, n, rest, hn => by
    have hlen := length_renderItems vs
    rw [List.length_append] at hn
    obtain ⟨n, rfl⟩ : ∃ m, n = m + 1 := ⟨n - 1, by omega⟩
    have hv := value_render v h.1 n (encode (renderItems vs) ++ rest) (by omega) (stops_renderItems vs rest)
    unfold items
    rw [hv]
    match vs, h with
    | [], _ => rfl
    | w :: vs, h =>
      rw [renderItems, encode_append, encode_append] at hn ⊢
      simp only [List.length_append] at hn
      have hc : (encode ",").length = 1 := rfl
      have hi := items_render (w :: vs) w vs rfl h.2 n rest (by rw [List.length_append]; omega)
      have h44 : encode "," = [44] := rfl
      have h1 : ¬ (44 : UInt8) = ascii ']' := by decide
      have h2 : (44 : UInt8) = ascii ',' := rfl
      have hblank : isBlank 44 = false := rfl
      rw [h44]
      simp only [List.cons_append, List.nil_append, List.append_assoc, skipBlank_cons hblank, if_neg h1,
        if_pos h2, hi]
      rfl

theorem fields_render : ∀ (l : List (String × Json)) (k : String) (v : Json) (fs : List (String × Json)),
    l = (k, v) :: fs → PlainFields l → ∀ (n : Nat) (rest : Bytes),
      (encode (quote k) ++ (encode ":" ++ (encode v.render ++ encode (renderFields fs)))).length ≤ n →
      fields n (encode (quote k) ++ (encode ":" ++ (encode v.render ++ (encode (renderFields fs) ++ rest)))) =
        some (some ((k, v) :: fs), rest)
  | [], _, _, _, hl, _, _, _, _ => by cases hl
  | (k, v) :: fs, _, _, _, rfl, h, n, rest, hn => by
    have hc : (encode ":").length = 1 := rfl
    simp only [List.length_append] at hn
    obtain ⟨n, rfl⟩ : ∃ m, n = m + 1 := ⟨n - 1, by omega⟩
    have hv := value_render v h.1 n (encode (renderFields fs) ++ rest) (by omega) (stops_renderFields fs rest)
    have ht := text_quote k (58 :: (encode v.render ++ (encode (renderFields fs) ++ rest)))
    have h58 : encode ":" = [58] := rfl
    have h1 : (34 : UInt8) = ascii '"' := rfl
    have h2 : (58 : UInt8) = ascii ':' := rfl
    have hb1 : isBlank 34 = false := rfl
    have hb2 : isBlank 58 = false := rfl
    rw [encode_quote, h58]
    simp only [List.cons_append, List.nil_append, List.append_assoc]
    unfold fields
    simp only [skipBlank_cons hb1, if_pos h1, ht, skipBlank_cons hb2, if_pos h2, hv]
    match fs, h with
    | [], _ => rfl
    | (k', w) :: fs, h =>
      rw [renderFields, encode_append, encode_append, encode_append, encode_append] at hn ⊢
      have hcomma : (encode ",").length = 1 := rfl
      simp only [List.length_append] at hn
      have hi := fields_render ((k', w) :: fs) k' w fs rfl h.2 n rest
        (by simp only [List.length_append]; omega)
      have h44 : encode "," = [44] := rfl
      have h3 : ¬ (44 : UInt8) = ascii '\x7d' := by decide
      have h4 : (44 : UInt8) = ascii ',' := rfl
      have hb3 : isBlank 44 = false := rfl
      rw [h44]
      simp only [List.cons_append, List.nil_append, List.append_assoc, skipBlank_cons hb3, if_neg h3,
        if_pos h4, hi]
      rfl

end

end Reader

/-- Bytes that were written are read back. -/
theorem ofBytes?_render {j : Json} (h : j.Plain) : ofBytes? (encode j.render) = some j := by
  have hv := Reader.value_render j h (2 * (encode j.render).length + 2) [] (by omega) Reader.stops_nil
  rw [List.append_nil] at hv
  simp only [ofBytes?, hv, Option.bind_eq_bind, Option.bind_some]
  rfl

end Keyspace.Json
