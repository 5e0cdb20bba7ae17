import Mathlib.Algebra.Group.Nat.Defs
import Diginext.Foundations.Outcome

/-! # Bytes, sizes and strings of a 64-bit C++ target

`char` is a signed byte, `int` has 32 bits, `size_t` has 64. Sizes and positions are natural numbers
with the reduction modulo `2^64` written out where an operation can wrap. A `std::string` is a byte
list no longer than `maxSize`; a request for a longer one throws. `stringOf` is
`std::string(count, ch)`, `concat` is `operator+` on strings, `toInt` is `static_cast<int>` of a
`char`.
-/
namespace Cpp
open Outcomes
set_option autoImplicit false

abbrev Bytes := List UInt8

def ascii (s : String) : Bytes := s.toList.map Char.toUInt8

inductive Exception where
  | length_error
  | runtime_error (what : String)
  deriving DecidableEq, Repr

abbrev Result := Outcome Exception

/-- The longest object of a 64-bit target (`PTRDIFF_MAX`). -/
def maxSize : ℕ := 2 ^ 63 - 1

def sizeT (n : ℕ) : ℕ := n % 2 ^ 64

/-- `a - b` on `size_t` operands. -/
def sizeSub (a b : ℕ) : ℕ := if b ≤ a then a - b else 2 ^ 64 - (b - a)

theorem sizeT_of_lt {n : ℕ} (h : n < 2 ^ 64) : sizeT n = n := Nat.mod_eq_of_lt h

theorem sizeSub_of_le {a b : ℕ} (h : b ≤ a) : sizeSub a b = a - b := if_pos h

structure StdString where
  bytes : Bytes
  size_le : bytes.length ≤ maxSize
  deriving DecidableEq

theorem StdString.ext_bytes {s t : StdString} (h : s.bytes = t.bytes) : s = t := by
  cases s
  cases t
  simpa using h

def stringOf (count : ℕ) (ch : UInt8) : Result Bytes :=
  if count ≤ maxSize then .ok (List.replicate count ch) else .throws .length_error

def concat (a b : Bytes) : Result Bytes :=
  if a.length + b.length ≤ maxSize then .ok (a ++ b) else .throws .length_error

def toInt (c : UInt8) : Int32 := c.toInt8.toInt32

theorem forall_byte {P : UInt8 → Prop} (h : ∀ n : ℕ, n < 256 → P (UInt8.ofNat n)) :
    ∀ c : UInt8, P c := by
  intro c
  have hc := h c.toNat c.toNat_lt
  rwa [UInt8.ofNat_toNat] at hc

/-! ## Writing through an advancing pointer -/

structure Cursor where
  ret : Bytes
  p : ℕ
  deriving DecidableEq

/-- `*p++ = c`; a write outside the buffer has no defined behaviour. -/
def Cursor.put (k : Cursor) (c : UInt8) : Result Cursor :=
  if k.p < k.ret.length then .ok ⟨k.ret.set k.p c, k.p + 1⟩ else .undefined

/-- The buffer of `size` bytes whose first `out.length` bytes have been written. -/
def written (size : ℕ) (out : Bytes) : Cursor :=
  ⟨out ++ List.replicate (size - out.length) 0, out.length⟩

theorem put_written {size : ℕ} {out : Bytes} (c : UInt8) (h : out.length < size) :
    (written size out).put c = .ok (written size (out ++ [c])) := by
  have hlen : (written size out).p < (written size out).ret.length := by
    simp only [written, List.length_append, List.length_replicate]
    omega
  have hrep : List.replicate (size - out.length) (0 : UInt8) =
      0 :: List.replicate (size - (out.length + 1)) 0 := by
    rw [show size - out.length = (size - (out.length + 1)) + 1 by omega, List.replicate_succ]
  have hset : (out ++ List.replicate (size - out.length) 0).set out.length c =
      out ++ [c] ++ List.replicate (size - (out ++ [c]).length) 0 := by
    rw [hrep, List.set_append_right _ _ (Nat.le_refl _), Nat.sub_self, List.set_cons_zero,
      List.append_assoc, List.length_append, List.length_singleton]
    rfl
  rw [Cursor.put, if_pos hlen]
  simp only [written] at hset ⊢
  rw [hset]
  simp

theorem written_full {size : ℕ} {out : Bytes} (h : out.length = size) :
    (written size out).ret = out := by
  simp [written, h]

end Cpp
