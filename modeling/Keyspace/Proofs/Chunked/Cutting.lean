import Keyspace.Config
import Keyspace.Proofs.Chunked.Layout
import Mathlib.Data.Rat.Floor

/-!
# Cutting in 64-bit numbers

A size is cut into chunks by sums, products and differences of 64-bit numbers, which may have no result
there. Here all of them have one, and the count and the lengths are those computed in all natural numbers
(`Chunked.cutting_exact`).
-/

namespace Keyspace

/-! ## 64-bit numbers

A sum, a difference or a product of two of them that is none has no result. -/

namespace Word

def add? (a b : UInt64) : Option UInt64 := if a.toBitVec.uaddOverflow b.toBitVec then none else some (a + b)

def sub? (a b : UInt64) : Option UInt64 := if a.toBitVec.usubOverflow b.toBitVec then none else some (a - b)

def mul? (a b : UInt64) : Option UInt64 := if a.toBitVec.umulOverflow b.toBitVec then none else some (a * b)

variable {a b c : UInt64} {n : Nat}

/-- What wraps around is a result only if it did not have to. -/
theorem unwrapped_eq_some_iff {wraps : Bool} (hwraps : wraps = true ↔ 2 ^ 64 ≤ n) (ha : a.toNat = n % 2 ^ 64) :
    (if wraps then none else some a) = some c ↔ c.toNat = n := by
  have hc := c.toNat_lt
  split
  · rename_i h
    have hn := hwraps.1 h
    simp only [reduceCtorEq, false_iff]
    omega
  · rename_i h
    rw [Option.some_inj, ← UInt64.toNat_inj, ha, Nat.mod_eq_of_lt (Nat.not_le.1 (mt hwraps.2 h))]
    exact eq_comm

theorem add?_eq_some_iff : add? a b = some c ↔ c.toNat = a.toNat + b.toNat :=
  unwrapped_eq_some_iff decide_eq_true_iff (UInt64.toNat_add a b)

theorem mul?_eq_some_iff : mul? a b = some c ↔ c.toNat = a.toNat * b.toNat :=
  unwrapped_eq_some_iff decide_eq_true_iff (UInt64.toNat_mul a b)

theorem sub?_eq_some_iff : sub? a b = some c ↔ a.toNat = b.toNat + c.toNat := by
  unfold sub? BitVec.usubOverflow
  simp only [UInt64.toNat_toBitVec, decide_eq_true_eq]
  split
  · rename_i h
    simp only [reduceCtorEq, false_iff]
    omega
  · rename_i h
    rw [Option.some_inj, ← UInt64.toNat_inj, UInt64.toNat_sub_of_le _ _ (UInt64.le_iff_toNat_le.2 (Nat.not_lt.1 h))]
    omega

theorem exists_toNat_eq (h : n < 2 ^ 64) : ∃ a : UInt64, a.toNat = n :=
  ⟨UInt64.ofNat n, UInt64.toNat_ofNat_of_lt' h⟩

end Word

namespace Config

/-- Chunks may have any size but 0. -/
theorem exists_chunkSize_iff (n : Nat) : (∃ c : Config, c.fault? = none ∧ c.chunkSize = n) ↔ 1 ≤ n := by
  constructor
  · rintro ⟨c, hc, rfl⟩
    have h : c.chunkSize ≠ 0 := by grind [fault?]
    omega
  · intro h
    have hstandard : standard.fault? = none := rfl
    refine ⟨{ standard with chunkSize := n }, ?_, rfl⟩
    grind [fault?]

end Config

namespace Chunked

/-! ## Counts and lengths -/

section
variable {size chunkSize index : Nat}

theorem chunkCount_eq_ceil (hc : 0 < chunkSize) : chunkCount size chunkSize = ⌈(size : ℚ) / chunkSize⌉₊ := by
  -- both count the chunks that begin before the end
  refine eq_of_forall_lt_iff fun i => ?_
  rw [lt_chunkCount_iff hc, Nat.lt_ceil, lt_div_iff₀ (Nat.cast_pos.2 hc)]
  exact_mod_cast Iff.rfl

theorem chunkCount_le (hc : 0 < chunkSize) : chunkCount size chunkSize ≤ size :=
  Nat.le_of_not_lt fun h => Nat.not_lt_of_le (Nat.le_mul_of_pos_right _ hc) ((lt_chunkCount_iff hc).1 h)

theorem chunkLength_pos (hc : 0 < chunkSize) (h : index < chunkCount size chunkSize) :
    0 < chunkLength size chunkSize index :=
  Nat.lt_min.2 ⟨hc, Nat.sub_pos_of_lt ((lt_chunkCount_iff hc).1 h)⟩

theorem chunkLength_le : chunkLength size chunkSize index ≤ min chunkSize size := by
  unfold chunkLength
  omega

theorem sum_chunkLength (size chunkSize n : Nat) :
    ((List.range n).map (chunkLength size chunkSize)).sum = min (n * chunkSize) size := by
  induction n with
  | zero => simp
  | succ n ih =>
    rw [List.range_succ, List.map_append, List.sum_append, ih, Nat.succ_mul, List.map_singleton,
      List.sum_singleton, chunkLength]
    omega

theorem sum_chunkLength_chunkCount (hc : 0 < chunkSize) :
    ((List.range (chunkCount size chunkSize)).map (chunkLength size chunkSize)).sum = size := by
  rw [sum_chunkLength, Nat.min_eq_right (le_chunkCount_mul hc)]

end

/-! ## The same in 64 bits

Every step of `chunkCount` and of `chunkLength` may have no result. -/

def chunkCount? (size chunkSize : UInt64) : Option UInt64 :=
  if chunkSize = 0 then none else Word.add? (size / chunkSize) (if size % chunkSize = 0 then 0 else 1)

def chunkLength? (size chunkSize index : UInt64) : Option UInt64 := do
  let start ← Word.mul? index chunkSize
  let left ← Word.sub? size start
  return min chunkSize left

variable {size chunkSize index count : UInt64}

theorem chunkCount?_eq_some_iff (hc : 0 < chunkSize.toNat) :
    chunkCount? size chunkSize = some count ↔ count.toNat = chunkCount size.toNat chunkSize.toNat := by
  have h0 : chunkSize ≠ 0 := fun h => Nat.ne_of_gt hc (congrArg UInt64.toNat h)
  have hmod : size % chunkSize = 0 ↔ size.toNat % chunkSize.toNat = 0 := by
    rw [← UInt64.toNat_inj, UInt64.toNat_mod]
    rfl
  rw [chunkCount?, if_neg h0, Word.add?_eq_some_iff, UInt64.toNat_div, chunkCount]
  by_cases hm : size.toNat % chunkSize.toNat = 0
  · rw [if_pos (hmod.2 hm), if_pos hm]
    rfl
  · rw [if_neg (mt hmod.1 hm), if_neg hm]
    rfl

theorem exists_chunkCount? (hc : 0 < chunkSize.toNat) : ∃ count, chunkCount? size chunkSize = some count ∧
    count.toNat = chunkCount size.toNat chunkSize.toNat := by
  obtain ⟨count, h⟩ := Word.exists_toNat_eq ((chunkCount_le hc).trans_lt size.toNat_lt)
  exact ⟨count, (chunkCount?_eq_some_iff hc).2 h, h⟩

theorem exists_chunkLength? (h : index.toNat * chunkSize.toNat ≤ size.toNat) :
    ∃ length, chunkLength? size chunkSize index = some length ∧
      length.toNat = chunkLength size.toNat chunkSize.toNat index.toNat := by
  -- what stands before the chunk and what is left from it on are parts of the size
  obtain ⟨start, hstart⟩ := Word.exists_toNat_eq (h.trans_lt size.toNat_lt)
  obtain ⟨left, hleft⟩ := Word.exists_toNat_eq
    ((Nat.sub_le size.toNat (index.toNat * chunkSize.toNat)).trans_lt size.toNat_lt)
  have hmul : Word.mul? index chunkSize = some start := Word.mul?_eq_some_iff.2 hstart
  have hsub : Word.sub? size start = some left := Word.sub?_eq_some_iff.2 (by omega)
  refine ⟨min chunkSize left, ?_, ?_⟩
  · rw [chunkLength?, hmul, Option.bind_eq_bind, Option.bind_some, hsub]
    rfl
  · rw [UInt64.toNat_min, hleft, chunkLength]

/-- Cutting a size into chunks of a size that is not 0, as in every valid configuration, has a result in 64-bit numbers
at every step. The count is the quotient rounded up. Every chunk has a byte at least, is not larger than the chunk size
and than the whole, and is full but for the last one, and together they are the whole. -/
theorem cutting_exact (size chunkSize : UInt64) (hc : 1 ≤ chunkSize) :
    (∀ n, (∃ c : Config, c.fault? = none ∧ c.chunkSize = n) ↔ 1 ≤ n) ∧
      ∃ count, chunkCount? size chunkSize = some count ∧
        count.toNat = chunkCount size.toNat chunkSize.toNat ∧
        count.toNat = ⌈(size.toNat : ℚ) / chunkSize.toNat⌉₊ ∧ (size = 0 → count = 0) ∧
        (∀ index < count, ∃ length, chunkLength? size chunkSize index = some length ∧
          length.toNat = chunkLength size.toNat chunkSize.toNat index.toNat ∧
          1 ≤ length ∧ length ≤ chunkSize ∧ length ≤ min chunkSize size ∧
          (index.toNat + 1 < count.toNat → length = chunkSize)) ∧
        ((List.range count.toNat).map (chunkLength size.toNat chunkSize.toNat)).sum = size.toNat := by
  have hpos : 0 < chunkSize.toNat := UInt64.le_iff_toNat_le.1 hc
  obtain ⟨count, hcount, heq⟩ := exists_chunkCount? hpos
  refine ⟨Config.exists_chunkSize_iff, count, hcount, heq, heq.trans (chunkCount_eq_ceil hpos), ?_, ?_,
    by rw [heq, sum_chunkLength_chunkCount hpos]⟩
  · rintro rfl
    exact UInt64.toNat_inj.1 (Nat.le_zero.1 (heq ▸ chunkCount_le hpos))
  · intro index hindex
    have hlt : index.toNat < chunkCount size.toNat chunkSize.toNat := heq ▸ UInt64.lt_iff_toNat_lt.1 hindex
    obtain ⟨length, hlength, hl⟩ := exists_chunkLength? ((lt_chunkCount_iff hpos).1 hlt).le
    have hle := Nat.le_min.1 (hl ▸ chunkLength_le : length.toNat ≤ min chunkSize.toNat size.toNat)
    refine ⟨length, hlength, hl, ?_, UInt64.le_iff_toNat_le.2 hle.1, ?_, fun h => ?_⟩
    · exact UInt64.le_iff_toNat_le.2 (hl ▸ chunkLength_pos hpos hlt)
    · rw [UInt64.le_iff_toNat_le, UInt64.toNat_min]
      exact Nat.le_min.2 hle
    · exact UInt64.toNat_inj.1 (hl.trans (chunkLength_of_lt (heq ▸ h)))

/-- The largest size, in chunks of one byte less. Neither the two sizes together nor the chunk size times the count would
fit into 64 bits. -/
theorem cutting_exact_largest :
    let size : UInt64 := 18446744073709551615
    let chunkSize : UInt64 := 18446744073709551614
    1 ≤ chunkSize ∧ chunkCount? size chunkSize = some 2 ∧ ⌈(size.toNat : ℚ) / chunkSize.toNat⌉₊ = 2 ∧
      chunkLength? size chunkSize 0 = some chunkSize ∧ chunkLength? size chunkSize 1 = some 1 ∧
      ((List.range 2).map (chunkLength size.toNat chunkSize.toNat)).sum = size.toNat := by
  intro size chunkSize
  have hc : 1 ≤ chunkSize := by decide
  have htwo : chunkCount? size chunkSize = some 2 := by decide
  obtain ⟨-, count, hcount, -, hceil, -, hlengths, hsum⟩ := cutting_exact size chunkSize hc
  obtain rfl : count = 2 := Option.some.inj (hcount.symm.trans htwo)
  obtain ⟨length, hlength, -, -, -, -, hfull⟩ := hlengths 0 (by decide)
  rw [hfull (by decide)] at hlength
  have hlast : chunkLength? size chunkSize 1 = some 1 := by decide
  exact ⟨hc, htwo, hceil.symm, hlength, hlast, hsum⟩

end Chunked

end Keyspace
