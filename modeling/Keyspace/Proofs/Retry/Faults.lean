import Keyspace.Backend
import Mathlib.Logic.Function.Iterate

/-!
# Faults that are used up

A call is failed by the oldest rule that is for it and has uses left, and takes one of these uses. So calls of one name
use a rule no more often than it says, and what is left of it is what it had less the calls that it failed
(`getElem?_iterate_spent`).
-/

namespace Keyspace.Backend

/-- The place of the rule that fails a call of that name. -/
def failing? (n : CallName) (rules : List FaultRule) : Option Nat := rules.findIdx? (·.applies n)

/-- The rules once a call of that name was made. -/
def spent (n : CallName) (rules : List FaultRule) : List FaultRule := (meetFault n rules).elim rules (·.2)

/-- What a call of that name fails by, after so many others. -/
def fault? (n : CallName) (rules : List FaultRule) (k : Nat) : Option FaultKind :=
  (meetFault n ((spent n)^[k] rules)).map (·.1)

/-- How many of so many calls of that name are failed by the rule at a place. -/
def uses (n : CallName) (rules : List FaultRule) (k i : Nat) : Nat :=
  (List.range k).countP fun j => failing? n ((spent n)^[j] rules) = some i

variable {n : CallName} {rules : List FaultRule} {i : Nat} {r : FaultRule}

theorem meetFault_eq (n : CallName) (rules : List FaultRule) : meetFault n rules =
    (failing? n rules).bind fun i => rules[i]?.map fun r => (r.kind, rules.modify i FaultRule.used) := by
  induction rules with
  | nil => rfl
  | cons r rules ih =>
    rw [meetFault, failing?, List.findIdx?_cons]
    by_cases h : r.applies n
    · simp [h]
    · rw [failing?] at ih
      rw [if_neg h, if_neg h, ih]
      cases rules.findIdx? (·.applies n) with
      | none => rfl
      | some i =>
        cases hr : rules[i]? with
        | none => simp [hr]
        | some s => simp [hr]

theorem exists_of_failing? (h : failing? n rules = some i) : ∃ r, rules[i]? = some r ∧ r.applies n = true := by
  obtain ⟨hi, happlies, -⟩ := List.findIdx?_eq_some_iff_getElem.1 h
  exact ⟨rules[i], List.getElem?_eq_getElem hi, happlies⟩

theorem spent_eq (n : CallName) (rules : List FaultRule) :
    spent n rules = (failing? n rules).elim rules fun i => rules.modify i FaultRule.used := by
  rw [spent, meetFault_eq]
  cases h : failing? n rules with
  | none => rfl
  | some i =>
    obtain ⟨r, hr, -⟩ := exists_of_failing? h
    simp [hr]

theorem getElem?_spent (h : rules[i]? = some r) :
    (spent n rules)[i]? = some (if failing? n rules = some i then r.used else r) := by
  rw [spent_eq]
  cases hf : failing? n rules with
  | none => simp [h]
  | some j => by_cases hj : j = i <;> simp [h, hj]

theorem uses_succ (n : CallName) (rules : List FaultRule) (k i : Nat) : uses n rules (k + 1) i =
    uses n rules k i + if failing? n ((spent n)^[k] rules) = some i then 1 else 0 := by
  simp [uses, List.range_succ, List.countP_append, List.countP_cons]

theorem getElem?_iterate_spent (h : rules[i]? = some r) (k : Nat) :
    (∀ count, r.remaining = some count → uses n rules k i ≤ count) ∧
      ((spent n)^[k] rules)[i]? = some { r with remaining := r.remaining.map (· - uses n rules k i) } := by
  induction k with
  | zero => exact ⟨fun _ _ => Nat.zero_le _, by simp [h, uses]⟩
  | succ k ih =>
    obtain ⟨hle, hk⟩ := ih
    rw [Function.iterate_succ_apply', getElem?_spent hk, uses_succ]
    by_cases hf : failing? n ((spent n)^[k] rules) = some i
    · -- The rule still applies, so it is not used up.
      obtain ⟨r', hr', happlies⟩ := exists_of_failing? hf
      cases hk.symm.trans hr'
      rw [if_pos hf, if_pos hf]
      cases hremaining : r.remaining with
      | none => exact ⟨nofun, by simp [FaultRule.used]⟩
      | some count =>
        have hpos : count - uses n rules k i ≠ 0 := by
          simp only [FaultRule.applies, hremaining, Option.map_some, ne_eq, Option.some.injEq, Bool.and_eq_true,
            decide_eq_true_eq] at happlies
          exact happlies.2
        refine ⟨fun c hc => ?_, by simp [FaultRule.used, Nat.sub_sub]⟩
        cases hc
        omega
    · rw [if_neg hf, if_neg hf]
      exact ⟨hle, rfl⟩

end Keyspace.Backend
