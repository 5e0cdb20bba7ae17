import Mathlib.Algebra.Ring.Nat
import Mathlib.Tactic.Ring
import Mathlib.Data.Nat.Bitwise

/-! # The binary digits of a number

Nothing here is about one program. `bits w n` are the `w` low binary digits of `n`, the most significant
one first, and `value` is the number that a list of digits stands for (`value_bits`, `bits_value`).
Digits can be cut (`bits_add`) and joined (`value_append`) at any place. -/
namespace Bits
set_option autoImplicit false

def bits : ℕ → ℕ → List Bool
  | 0, _ => []
  | w + 1, n => n.testBit w :: bits w n

def value : List Bool → ℕ
  | [] => 0
  | b :: l => b.toNat * 2 ^ l.length + value l

@[simp] theorem bits_length (w n : ℕ) : (bits w n).length = w := by
  induction w with
  | zero => rfl
  | succ w ih => rw [bits, List.length_cons, ih]

/-- The digits above the `k` low ones are those of the quotient. -/
theorem bits_add (m k n : ℕ) : bits (m + k) n = bits m (n / 2 ^ k) ++ bits k n := by
  induction m with
  | zero => rw [Nat.zero_add, bits, List.nil_append]
  | succ m ih =>
    rw [Nat.add_right_comm, bits, bits, ih, Nat.testBit_div_two_pow, List.cons_append]

/-- Joined, the digits of two numbers are those of one. -/
theorem bits_mul_add (m k a b : ℕ) (hb : b < 2 ^ k) :
    bits m a ++ bits k b = bits (m + k) (2 ^ k * a + b) := by
  have hquot : (2 ^ k * a + b) / 2 ^ k = a := by
    rw [Nat.mul_add_div (Nat.two_pow_pos k), Nat.div_eq_of_lt hb, Nat.add_zero]
  have hlow : ∀ w ≤ k, bits w (2 ^ k * a + b) = bits w b := by
    intro w
    induction w with
    | zero => intro _; rfl
    | succ w ih =>
      intro hw
      rw [bits, bits, ih (by omega), Nat.testBit_two_pow_mul_add a hb, if_pos (by omega)]
  rw [bits_add, hquot, hlow k (Nat.le_refl k)]

theorem value_append (l m : List Bool) : value (l ++ m) = value l * 2 ^ m.length + value m := by
  induction l with
  | nil => rw [List.nil_append, value, Nat.zero_mul, Nat.zero_add]
  | cons b l ih =>
    rw [List.cons_append, value, value, ih, List.length_append, pow_add]
    ring

theorem value_bits (w n : ℕ) : value (bits w n) = n % 2 ^ w := by
  induction w with
  | zero => rw [pow_zero, Nat.mod_one, bits, value]
  | succ w ih =>
    rw [bits, value, bits_length, ih, Nat.toNat_testBit, Nat.mod_pow_succ]
    ring

theorem value_lt (l : List Bool) : value l < 2 ^ l.length := by
  induction l with
  | nil => exact Nat.one_pos
  | cons b l ih =>
    have hb := Bool.toNat_lt b
    have hle : b.toNat * 2 ^ l.length ≤ 1 * 2 ^ l.length := Nat.mul_le_mul_right _ (by omega)
    rw [value, List.length_cons, pow_succ]
    omega

theorem bits_value (l : List Bool) : bits l.length (value l) = l := by
  induction l with
  | nil => rfl
  | cons b l ih =>
    have hfirst : bits 1 b.toNat = [b] := by cases b <;> rfl
    rw [value, List.length_cons, Nat.add_comm, Nat.mul_comm, ← bits_mul_add 1 _ _ _ (value_lt l), ih,
      hfirst, List.singleton_append]

end Bits
