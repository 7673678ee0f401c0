import Mathlib.Algebra.Group.Nat.Defs
import Mathlib.Data.List.Lex
import Mathlib.Data.Nat.Basic
import Mathlib.Order.Lattice

/-!
# Numbers of a fixed width

Numbers that are written with the same count of digits, the highest first, are ordered as their texts are.
-/

namespace ConfigRegistry.Text

variable {α : Type} {base : Nat} {digit : Nat → α}

/-- The last digits of a number. -/
def digits (base : Nat) (digit : Nat → α) : Nat → Nat → List α
  | 0, _ => []
  | width + 1, n => digits base digit width (n / base) ++ [digit (n % base)]

@[simp] theorem length_digits (width n : Nat) : (digits base digit width n).length = width := by
  induction width generalizing n with
  | zero => rfl
  | succ width ih => rw [digits, List.length_append, ih, List.length_singleton]

variable [LinearOrder α]

/-- Texts of one length are ordered by what comes first. -/
theorem append_lt_append_iff {a b : List α} (hlength : a.length = b.length) (r r' : List α) :
    a ++ r < b ++ r' ↔ a < b ∨ a = b ∧ r < r' := by
  induction a generalizing b with
  | nil =>
    obtain rfl := List.length_eq_zero_iff.1 hlength.symm
    simp
  | cons x a ih =>
    cases b with
    | nil => cases hlength
    | cons y b =>
      rw [List.cons_append, List.cons_append, List.cons_lt_cons_iff, List.cons_lt_cons_iff,
        ih (Nat.succ.inj hlength), List.cons.injEq]
      tauto

theorem digits_lt (hdigit : ∀ i j, i < j → j < base → digit i < digit j) {width n m : Nat} (h : n < m)
    (hm : m < base ^ width) : digits base digit width n < digits base digit width m := by
  induction width generalizing n m with
  | zero =>
    rw [Nat.pow_zero] at hm
    omega
  | succ width ih =>
    have hbase : 0 < base := by
      rcases Nat.eq_zero_or_pos base with rfl | hpos
      · rw [Nat.zero_pow (Nat.succ_pos width)] at hm
        omega
      · exact hpos
    have hm' : m / base < base ^ width := by
      rw [Nat.pow_succ] at hm
      exact Nat.div_lt_of_lt_mul (by rwa [Nat.mul_comm])
    rw [digits, digits, append_lt_append_iff (by simp)]
    rcases Nat.lt_or_ge (n / base) (m / base) with hlt | hge
    · exact .inl (ih hlt hm')
    · have hsame : n / base = m / base := Nat.le_antisymm (Nat.div_le_div_right (Nat.le_of_lt h)) hge
      have hn := Nat.div_add_mod n base
      have hm'' := Nat.div_add_mod m base
      rw [hsame] at hn
      have hlast : digit (n % base) < digit (m % base) := hdigit _ _ (by omega) (Nat.mod_lt m hbase)
      exact .inr ⟨by rw [hsame], List.cons_lt_cons_iff.2 (.inl hlast)⟩

/-- The order of the numbers and the order of the texts are one order. -/
theorem digits_lt_iff (hdigit : ∀ i j, i < j → j < base → digit i < digit j) {width n m : Nat}
    (hn : n < base ^ width) (hm : m < base ^ width) :
    digits base digit width n < digits base digit width m ↔ n < m := by
  refine ⟨fun h => ?_, fun h => digits_lt hdigit h hm⟩
  rcases Nat.lt_trichotomy n m with hlt | rfl | hgt
  · exact hlt
  · exact absurd h (lt_irrefl _)
  · exact absurd (digits_lt hdigit hgt hn) (lt_asymm h)

theorem digits_inj (hdigit : ∀ i j, i < j → j < base → digit i < digit j) {width n m : Nat}
    (hn : n < base ^ width) (hm : m < base ^ width) :
    digits base digit width n = digits base digit width m ↔ n = m := by
  refine ⟨fun h => ?_, fun h => by rw [h]⟩
  rcases Nat.lt_trichotomy n m with hlt | heq | hgt
  · exact absurd (digits_lt hdigit hlt hm) (h ▸ lt_irrefl _)
  · exact heq
  · exact absurd (digits_lt hdigit hgt hn) (h ▸ lt_irrefl _)

end ConfigRegistry.Text
