import Diginext.Foundations.Bits
import Diginext.Base64.EncodeBounds
import Diginext.Base64.RoundTrip

/-! # The standard encoding

`rfc4648` is the encoding of RFC 4648, section 4, over the stream of bits: the octets one after
another, zero bits up to a multiple of six, each group of six bits mapped through the standard
alphabet, and `'='` up to a multiple of four characters. `rfc4648_eq` says that it is the encoding by
quanta.
-/
namespace Diginext.Base64
open Outcomes Cpp Bits
set_option autoImplicit false

def standardAlphabet : Bytes := ascii "ABCDEFGHIJKLMNOPQRSTUVWXYZabcdefghijklmnopqrstuvwxyz0123456789+/"

def octetBits (s : Bytes) : List Bool := s.flatMap fun c => bits 8 c.toNat

def zeroPadded (l : List Bool) : List Bool := l ++ List.replicate ((6 - l.length % 6) % 6) false

/-- The groups of six; fewer than six bits at the end are dropped. -/
def sixes : List Bool → List (List Bool)
  | a :: b :: c :: d :: e :: f :: rest => [a, b, c, d, e, f] :: sixes rest
  | _ => []

def character (group : List Bool) : UInt8 := standardAlphabet.getD (value group) 0

def padded (l : Bytes) : Bytes := l ++ List.replicate ((4 - l.length % 4) % 4) (Char.toUInt8 '=')

def rfc4648 (s : Bytes) : Bytes :=
  padded ((sixes (zeroPadded (octetBits s))).map character)

/-! ## Groups -/

theorem sixes_append (g rest : List Bool) (h : g.length = 6) : sixes (g ++ rest) = g :: sixes rest := by
  match g, h with
  | [a, b, c, d, e, f], _ => rfl

theorem zeroPadded_append (l m : List Bool) (h : 6 ∣ l.length) :
    zeroPadded (l ++ m) = l ++ zeroPadded m := by
  have hmod : (l ++ m).length % 6 = m.length % 6 := by
    rw [List.length_append]
    omega
  rw [zeroPadded, hmod, zeroPadded, List.append_assoc]

theorem padded_append (l m : Bytes) (h : 4 ∣ l.length) : padded (l ++ m) = l ++ padded m := by
  have hmod : (l ++ m).length % 4 = m.length % 4 := by
    rw [List.length_append]
    omega
  rw [padded, hmod, padded, List.append_assoc]

/-! ## One group of the bits of neighbouring bytes -/

theorem standardAlphabet_eq : standardAlphabet = sEncodingTable := by decide

theorem character_eq (group : List Bool) : character group = digit (value group) := by
  rw [character, standardAlphabet_eq, digit]

/-- The bits of a byte, cut at the three places where a group can end. -/
theorem bits_byte (c : UInt8) : bits 8 c.toNat = bits 6 (c.toNat / 4) ++ bits 2 c.toNat ∧
    bits 8 c.toNat = bits 4 (c.toNat / 16) ++ bits 4 c.toNat ∧
    bits 8 c.toNat = bits 2 (c.toNat / 64) ++ bits 6 c.toNat :=
  ⟨bits_add 6 2 _, bits_add 4 4 _, bits_add 2 6 _⟩

theorem character0 (a : UInt8) : character (bits 6 (a.toNat / 4)) = digit (a.toNat / 4) := by
  have ha := a.toNat_lt
  rw [character_eq, value_bits, Nat.mod_eq_of_lt (by omega)]

theorem character1 (a b : UInt8) : character (bits 2 a.toNat ++ bits 4 (b.toNat / 16)) =
    digit (16 * (a.toNat % 4) + b.toNat / 16) := by
  have hb := b.toNat_lt
  rw [character_eq, value_append, value_bits, value_bits, bits_length,
    Nat.mod_eq_of_lt (by omega : b.toNat / 16 < 2 ^ 4), Nat.mul_comm]
  rfl

theorem character2 (b c : UInt8) : character (bits 4 b.toNat ++ bits 2 (c.toNat / 64)) =
    digit (4 * (b.toNat % 16) + c.toNat / 64) := by
  have hc := c.toNat_lt
  rw [character_eq, value_append, value_bits, value_bits, bits_length,
    Nat.mod_eq_of_lt (by omega : c.toNat / 64 < 2 ^ 2), Nat.mul_comm]
  rfl

theorem character3 (c : UInt8) : character (bits 6 c.toNat) = digit (c.toNat % 64) := by
  rw [character_eq, value_bits]
  rfl

/-! ## Quantum by quantum -/

/-- Three bytes are four groups, and what follows them is encoded on its own. -/
theorem rfc4648_cons (a b c : UInt8) (rest : Bytes) :
    rfc4648 (a :: b :: c :: rest) = quanta [a, b, c] ++ rfc4648 rest := by
  obtain ⟨ha, -, -⟩ := bits_byte a
  obtain ⟨-, hb, -⟩ := bits_byte b
  obtain ⟨-, -, hc⟩ := bits_byte c
  have hstream : octetBits (a :: b :: c :: rest) =
      bits 6 (a.toNat / 4) ++ ((bits 2 a.toNat ++ bits 4 (b.toNat / 16)) ++
        ((bits 4 b.toNat ++ bits 2 (c.toNat / 64)) ++ (bits 6 c.toNat ++ octetBits rest))) := by
    simp only [octetBits, List.flatMap_cons, ha, hb, hc, List.append_assoc]
  rw [rfc4648, hstream, zeroPadded_append _ _ (by simp), zeroPadded_append _ _ (by simp),
    zeroPadded_append _ _ (by simp), zeroPadded_append _ _ (by simp), sixes_append _ _ (by simp),
    sixes_append _ _ (by simp), sixes_append _ _ (by simp), sixes_append _ _ (by simp)]
  simp only [List.map_cons, character0, character1, character2, character3]
  exact padded_append [_, _, _, _] _ (by simp)

theorem rfc4648_one (a : UInt8) : rfc4648 [a] = quanta [a] := by
  obtain ⟨ha, -, -⟩ := bits_byte a
  have hstream : zeroPadded (octetBits [a]) =
      bits 6 (a.toNat / 4) ++ ((bits 2 a.toNat ++ bits 4 ((0 : UInt8).toNat / 16)) ++ []) := by
    rw [octetBits, List.flatMap_singleton, ha, zeroPadded_append _ _ (by simp), List.append_nil]
    rfl
  rw [rfc4648, hstream, sixes_append _ _ (by simp), sixes_append _ _ (by simp)]
  simp only [sixes, List.map_cons, List.map_nil, character0, character1]
  rfl

theorem rfc4648_two (a b : UInt8) : rfc4648 [a, b] = quanta [a, b] := by
  obtain ⟨ha, -, -⟩ := bits_byte a
  obtain ⟨-, hb, -⟩ := bits_byte b
  have hstream : zeroPadded (octetBits [a, b]) =
      bits 6 (a.toNat / 4) ++ ((bits 2 a.toNat ++ bits 4 (b.toNat / 16)) ++
        ((bits 4 b.toNat ++ bits 2 ((0 : UInt8).toNat / 64)) ++ [])) := by
    rw [octetBits, List.flatMap_cons, List.flatMap_singleton, ha, hb, List.append_assoc,
      ← List.append_assoc (bits 2 _), zeroPadded_append _ _ (by simp),
      zeroPadded_append _ _ (by simp), List.append_nil]
    rfl
  rw [rfc4648, hstream, sixes_append _ _ (by simp), sixes_append _ _ (by simp),
    sixes_append _ _ (by simp)]
  simp only [sixes, List.map_cons, List.map_nil, character0, character1, character2]
  rfl

/-- **The two references agree**: by bits and by quanta. -/
theorem rfc4648_eq (s : Bytes) : rfc4648 s = quanta s := by
  induction s using quanta.induct with
  | case1 => rfl
  | case2 a => exact rfc4648_one a
  | case3 a b => exact rfc4648_two a b
  | case4 a b c rest ih =>
    rw [rfc4648_cons, ih]
    rfl

/-! ## The encoder -/

/-- Both overloads compute the standard encoding wherever they complete. -/
theorem encode_standard :
    (∀ (s : StdString) (t : Bytes), encode s = .ok t → t = rfc4648 s.bytes) ∧
      ∀ (data : Bytes) (dataLength : ℕ) (ret : Bytes), dataLength < 2 ^ 64 →
        dataLength ≤ data.length → encodeBuffer data dataLength = .ok ret →
          ret = rfc4648 (data.take dataLength) := by
  constructor
  · intro s t h
    obtain ⟨rfl, -, -⟩ := encode_ok h
    exact (rfc4648_eq s.bytes).symm
  · intro data dataLength ret hsize hdata h
    obtain ⟨hlen, hfits⟩ := encodeBuffer_returns hsize h
    have htake : (data.take dataLength).length = dataLength := List.length_take_of_le hdata
    have hs : (data.take dataLength).length ≤ maxSize := by
      unfold maxSize at hfits ⊢
      omega
    have heq := encodeBuffer_eq (data.take dataLength) (data.drop dataLength) hs
      (htake.symm ▸ hlen)
    rw [List.take_append_drop, htake, h, quanta_length, htake, if_pos hfits] at heq
    cases heq
    exact (rfc4648_eq _).symm

theorem encode_standard_hello : ascii "SEVMTE8=" = rfc4648 (ascii "HELLO") :=
  encode_standard.1 hello (ascii "SEVMTE8=") (by decide +kernel)

end Diginext.Base64
