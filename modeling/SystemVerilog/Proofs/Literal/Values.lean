import Mathlib.Data.Nat.Digits.Defs
import Mathlib.Data.List.Basic
import SystemVerilog.Literal.Basic

/-!
# Positional values

The value of a digit string is the sum of its digits, each times a power of the radix. Reading the digits from
the left gives this value, as long as it stays below the bound on values. What has been read so far is a prefix
whose digits are all valid: reading stops at the first digit that is not valid, or at the first prefix whose
value reaches the bound, whichever comes first.
-/

namespace SystemVerilog

namespace Radix

variable {radix : Radix} {c : Char} {cs ds : List Char} {d n : Nat}

/-- Whether a character is a digit of the radix. -/
def isDigit (radix : Radix) (c : Char) : Bool := (radix.digit? c).isSome

/-- The value of a digit string by positions; what is no digit of the radix is passed over. -/
def value (radix : Radix) (cs : List Char) : Nat :=
  Nat.ofDigits radix.base (cs.filterMap radix.digit?).reverse

theorem base_pos (radix : Radix) : 0 < radix.base := by
  cases radix <;> decide

theorem value_concat (h : radix.digit? c = some d) :
    radix.value (cs ++ [c]) = radix.value cs * radix.base + d := by
  have hone : [c].filterMap radix.digit? = [d] := by rw [List.filterMap_cons_some h, List.filterMap_nil]
  rw [value, List.filterMap_append, hone, List.reverse_append, List.reverse_singleton, List.singleton_append,
    Nat.ofDigits_cons, value, Nat.mul_comm, Nat.add_comm]

/-- More digits do not make a value smaller. -/
theorem value_le_append (radix : Radix) (cs ds : List Char) : radix.value cs ≤ radix.value (cs ++ ds) := by
  rw [value, value, List.filterMap_append, List.reverse_append, Nat.ofDigits_append]
  have hpos : 0 < radix.base ^ ((ds.filterMap radix.digit?).reverse).length := Nat.pow_pos radix.base_pos
  exact Nat.le_add_left_of_le (Nat.le_mul_of_pos_left _ hpos)

/-- Separators do not change a value. -/
theorem value_filter (radix : Radix) (cs : List Char) : radix.value (cs.filter (· != '_')) = radix.value cs := by
  have hseparator : radix.digit? '_' = none := rfl
  rw [value, value, List.filterMap_filter]
  congr 3
  funext c
  by_cases hc : c = '_'
  · rw [if_neg (by simp [hc]), hc, hseparator]
  · rw [if_pos (by simp [hc])]

end Radix

/-! ### Reading digits -/

section Reading

variable {radix : Radix} {cs ds : List Char} {c : Char} {d n : Nat}

theorem readDigitsFrom_cons (h : radix.digit? c = some d) :
    readDigitsFrom radix (radix.value ds) (c :: cs) =
      if radix.value (ds ++ [c]) < valueBound then readDigitsFrom radix (radix.value (ds ++ [c])) cs
      else .error .overflow := by
  rw [readDigitsFrom, h, Radix.value_concat h]

theorem readDigitsFrom_cons_invalid (h : radix.digit? c = none) :
    readDigitsFrom radix n (c :: cs) = .error .invalidDigit := by
  rw [readDigitsFrom, h]

/-- Behind digits that have been read, the value is that of all digits. -/
theorem readDigitsFrom_eq_ok (hds : radix.value ds < valueBound) :
    readDigitsFrom radix (radix.value ds) cs = .ok n ↔
      (∀ c ∈ cs, radix.isDigit c = true) ∧ radix.value (ds ++ cs) = n ∧ n < valueBound := by
  induction cs generalizing ds with
  | nil =>
    rw [List.append_nil]
    constructor
    · rintro ⟨⟩
      exact ⟨List.forall_mem_nil _, rfl, hds⟩
    · rintro ⟨-, rfl, -⟩
      rfl
  | cons c cs ih =>
    rw [List.forall_mem_cons, Radix.isDigit]
    cases hc : radix.digit? c with
    | none =>
      rw [readDigitsFrom_cons_invalid hc]
      exact ⟨nofun, fun h => nomatch h.1.1⟩
    | some d =>
      rw [readDigitsFrom_cons hc]
      by_cases hnext : radix.value (ds ++ [c]) < valueBound
      · rw [if_pos hnext, ih hnext, List.append_cons ds c cs]
        exact ⟨fun ⟨hcs, hn⟩ => ⟨⟨rfl, hcs⟩, hn⟩, fun ⟨⟨_, hcs⟩, hn⟩ => ⟨hcs, hn⟩⟩
      · rw [if_neg hnext]
        refine ⟨nofun, ?_⟩
        rintro ⟨-, rfl, hlt⟩
        rw [List.append_cons ds c cs] at hlt
        exact absurd (Nat.lt_of_le_of_lt (radix.value_le_append _ cs) hlt) hnext

/-- Behind digits that have been read, some digits more reach the bound before an invalid one. -/
theorem readDigitsFrom_eq_overflow (hds : radix.value ds < valueBound) :
    readDigitsFrom radix (radix.value ds) cs = .error .overflow ↔
      ∃ p, p <+: cs ∧ (∀ c ∈ p, radix.isDigit c = true) ∧ valueBound ≤ radix.value (ds ++ p) := by
  induction cs generalizing ds with
  | nil =>
    refine ⟨nofun, ?_⟩
    rintro ⟨p, hp, -, hvalue⟩
    rw [List.prefix_nil.1 hp, List.append_nil] at hvalue
    exact absurd hds (Nat.not_lt.2 hvalue)
  | cons c cs ih =>
    -- a prefix that reaches the bound is not empty
    have hsplit : (∃ p, p <+: c :: cs ∧ (∀ x ∈ p, radix.isDigit x = true) ∧ valueBound ≤ radix.value (ds ++ p)) ↔
        radix.isDigit c = true ∧ ∃ p, p <+: cs ∧ (∀ x ∈ p, radix.isDigit x = true) ∧
          valueBound ≤ radix.value (ds ++ [c] ++ p) := by
      constructor
      · rintro ⟨p, hp, hvalid, hvalue⟩
        cases p with
        | nil =>
          rw [List.append_nil] at hvalue
          exact absurd hds (Nat.not_lt.2 hvalue)
        | cons x p =>
          obtain ⟨rfl, hrest⟩ := List.cons_prefix_cons.1 hp
          obtain ⟨hx, hvalid⟩ := List.forall_mem_cons.1 hvalid
          rw [List.append_cons] at hvalue
          exact ⟨hx, p, hrest, hvalid, hvalue⟩
      · rintro ⟨hc, p, hp, hvalid, hvalue⟩
        rw [← List.append_cons] at hvalue
        exact ⟨c :: p, List.cons_prefix_cons.2 ⟨rfl, hp⟩, List.forall_mem_cons.2 ⟨hc, hvalid⟩, hvalue⟩
    rw [hsplit, Radix.isDigit]
    cases hc : radix.digit? c with
    | none =>
      rw [readDigitsFrom_cons_invalid hc]
      exact ⟨nofun, fun h => nomatch h.1⟩
    | some d =>
      rw [readDigitsFrom_cons hc]
      by_cases hnext : radix.value (ds ++ [c]) < valueBound
      · rw [if_pos hnext, ih hnext]
        exact (and_iff_right rfl).symm
      · rw [if_neg hnext]
        refine ⟨fun _ => ⟨rfl, [], List.nil_prefix, List.forall_mem_nil _, ?_⟩, fun _ => rfl⟩
        rw [List.append_nil]
        exact Nat.le_of_not_lt hnext

/-- No plus sign leads the digits. -/
def Unsigned (cs : List Char) : Prop := ∀ rest, cs ≠ '+' :: rest

theorem readDigits_of_unsigned (hcs : Unsigned cs) (hne : cs ≠ []) :
    readDigits radix cs = readDigitsFrom radix 0 cs := by
  unfold readDigits
  split
  · exact absurd rfl hne
  · exact absurd rfl (hcs _)
  · rfl

theorem value_nil_lt_valueBound : radix.value [] < valueBound := by
  have hzero : radix.value [] = 0 := rfl
  rw [hzero]
  decide

/-- Unsigned digits have a value if there are some, all are valid and the value is below the bound. -/
theorem readDigits_eq_ok (hcs : Unsigned cs) : readDigits radix cs = .ok n ↔
    cs ≠ [] ∧ (∀ c ∈ cs, radix.isDigit c = true) ∧ radix.value cs = n ∧ n < valueBound := by
  by_cases hne : cs = []
  · subst hne
    exact ⟨nofun, fun h => absurd rfl h.1⟩
  · rw [readDigits_of_unsigned hcs hne, and_iff_right hne]
    exact readDigitsFrom_eq_ok value_nil_lt_valueBound

/-- Unsigned digits overflow if some of them, from the first one on, are valid and reach the bound. -/
theorem readDigits_eq_overflow (hcs : Unsigned cs) : readDigits radix cs = .error .overflow ↔
    ∃ p, p <+: cs ∧ (∀ c ∈ p, radix.isDigit c = true) ∧ valueBound ≤ radix.value p := by
  by_cases hne : cs = []
  · subst hne
    refine ⟨nofun, ?_⟩
    rintro ⟨p, hp, -, hvalue⟩
    rw [List.prefix_nil.1 hp] at hvalue
    exact absurd value_nil_lt_valueBound (Nat.not_lt.2 hvalue)
  · rw [readDigits_of_unsigned hcs hne]
    exact readDigitsFrom_eq_overflow value_nil_lt_valueBound

end Reading

end SystemVerilog
