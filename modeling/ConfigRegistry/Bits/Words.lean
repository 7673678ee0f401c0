import Mathlib.Data.Nat.Bitwise

/-!
# Bits of numbers

The low bits of a number as a list, and what shifting and cutting do to them.
-/

namespace ConfigRegistry.Bits

/-- The low `w` bits of a number, the highest first. -/
def low : Nat → Nat → List Bool
  | 0, _ => []
  | w + 1, n => n.testBit w :: low w n

variable {w k m n : Nat}

@[simp] theorem length_low (w n : Nat) : (low w n).length = w := by
  induction w with
  | zero => rfl
  | succ w ih =>
    show (low w n).length + 1 = w + 1
    rw [ih]

theorem low_eq_iff : low w m = low w n ↔ ∀ i < w, m.testBit i = n.testBit i := by
  induction w with
  | zero => simp [low]
  | succ w ih =>
    unfold low
    rw [List.cons_eq_cons, ih]
    constructor
    · rintro ⟨hhead, htail⟩ i hi
      by_cases hw : i = w
      · rw [hw]
        exact hhead
      · exact htail i (by omega)
    · intro h
      exact ⟨h w (by omega), fun i hi => h i (by omega)⟩

theorem low_add (w k n : Nat) : low (w + k) n = low w (n >>> k) ++ low k n := by
  induction w with
  | zero =>
    rw [Nat.zero_add]
    rfl
  | succ w ih =>
    have hwidth : w + 1 + k = w + k + 1 := by omega
    rw [hwidth]
    show n.testBit (w + k) :: low (w + k) n = (n >>> k).testBit w :: low w (n >>> k) ++ low k n
    rw [ih, Nat.testBit_shiftRight, Nat.add_comm k w]
    rfl

/-- Digits are pushed in at the low end. -/
theorem low_push (w k n : Nat) {d : Nat} (hd : d < 2 ^ k) : low (w + k) (n <<< k ||| d) = low w n ++ low k d := by
  rw [low_add]
  congr 1
  · apply low_eq_iff.2
    intro i _
    have hhigh : d.testBit (k + i) = false := by
      apply Nat.testBit_lt_two_pow
      exact Nat.lt_of_lt_of_le hd (Nat.pow_le_pow_right (by omega) (by omega))
    rw [Nat.testBit_shiftRight, Nat.testBit_or, Nat.testBit_shiftLeft, hhigh]
    simp
  · apply low_eq_iff.2
    intro i hi
    rw [Nat.testBit_or, Nat.testBit_shiftLeft]
    simp [Nat.not_le.2 hi]

/-- Cutting a number leaves the bits below. -/
theorem low_mod (h : w ≤ k) (n : Nat) : low w (n % 2 ^ k) = low w n := by
  apply low_eq_iff.2
  intro i hi
  rw [Nat.testBit_mod_two_pow]
  simp [Nat.lt_of_lt_of_le hi h]

theorem low_zero (w : Nat) : low w 0 = List.replicate w false := by
  induction w with
  | zero => rfl
  | succ w ih =>
    show Nat.testBit 0 w :: low w 0 = false :: List.replicate w false
    rw [ih, Nat.zero_testBit]

theorem eq_of_low (hm : m < 2 ^ w) (hn : n < 2 ^ w) (h : low w m = low w n) : m = n := by
  apply Nat.eq_of_testBit_eq
  intro i
  by_cases hi : i < w
  · exact low_eq_iff.1 h i hi
  · have hle : 2 ^ w ≤ 2 ^ i := Nat.pow_le_pow_right (by omega) (by omega)
    rw [Nat.testBit_lt_two_pow (Nat.lt_of_lt_of_le hm hle), Nat.testBit_lt_two_pow (Nat.lt_of_lt_of_le hn hle)]

theorem length_flatMap_low {α : Type} (w : Nat) (f : α → Nat) (xs : List α) :
    (xs.flatMap fun x => low w (f x)).length = w * xs.length := by
  induction xs with
  | nil => rfl
  | cons x xs ih =>
    rw [List.flatMap_cons, List.length_append, length_low, ih, List.length_cons, Nat.mul_succ]
    omega

/-- Digits of one width are told apart by their bits. -/
theorem eq_of_flatMap_low {α : Type} {f : α → Nat} (hf : Function.Injective f) (hlt : ∀ x, f x < 2 ^ w)
    {xs ys : List α} {rest rest' : List Bool} (hlength : xs.length = ys.length)
    (h : (xs.flatMap fun x => low w (f x)) ++ rest = (ys.flatMap fun y => low w (f y)) ++ rest') : xs = ys := by
  induction xs generalizing ys with
  | nil => exact (List.length_eq_zero_iff.1 hlength.symm).symm
  | cons x xs ih =>
    cases ys with
    | nil => cases hlength
    | cons y ys =>
      rw [List.flatMap_cons, List.flatMap_cons, List.append_assoc, List.append_assoc] at h
      obtain ⟨hhead, htail⟩ := List.append_inj h (by simp)
      rw [hf (eq_of_low (hlt x) (hlt y) hhead), ih (Nat.succ.inj hlength) htail]

end ConfigRegistry.Bits
