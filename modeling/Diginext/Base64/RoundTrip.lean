import Diginext.Base64.EncodeMeaning
import Diginext.Base64.DecodeMeaning

/-! # Decoding what `Base64::Encode` wrote

The decoder's table inverts the encoder's (`sextet_digit`), a quartet of the encoder sums to the three
bytes it came from (`quartet_quantum`), and the padding announces the length of the last quantum
(`outLength_quanta`).
-/
namespace Diginext.Base64
open Outcomes Cpp
set_option autoImplicit false

/-! ## The two tables -/

/-- The decoder's table inverts the encoder's, whose characters are ASCII and not the padding. -/
theorem alphabet : ∀ n < 64,
    sextet (digit n) = n ∧ digit n ≠ pad ∧ (digit n).toNat < 128 := by
  decide +kernel

theorem sextet_digit (n : ℕ) (hn : n < 64) : sextet (digit n) = n := (alphabet n hn).1

theorem digit_ne_pad (n : ℕ) (hn : n < 64) : digit n ≠ pad := (alphabet n hn).2.1

theorem digit_low (n : ℕ) (hn : n < 64) : (digit n).toNat < 128 := (alphabet n hn).2.2

theorem digit_ne_newline (n : ℕ) (hn : n < 64) : digit n ≠ 10 := by
  intro h
  have hten : sextet 10 = 64 := rfl
  rw [← h, sextet_digit n hn] at hten
  omega

/-! ## Quantum by quantum -/

theorem quartet_quantum (a b c : UInt8) :
    quartet (digit (a.toNat / 4)) (digit (16 * (a.toNat % 4) + b.toNat / 16))
        (digit (4 * (b.toNat % 16) + c.toNat / 64)) (digit (c.toNat % 64)) =
      65536 * a.toNat + 256 * b.toNat + c.toNat := by
  have ha := a.toNat_lt
  have hb := b.toNat_lt
  have hc := c.toNat_lt
  unfold quartet
  rw [sextet_digit _ (by omega), sextet_digit _ (by omega), sextet_digit _ (by omega),
    sextet_digit _ (by omega)]
  unfold word
  omega

theorem octets_word (a b c : UInt8) :
    octets (65536 * a.toNat + 256 * b.toNat + c.toNat) = [a, b, c] := by
  have ha := a.toNat_lt
  have hb := b.toNat_lt
  have hc := c.toNat_lt
  have h2 : UInt8.ofNat ((65536 * a.toNat + 256 * b.toNat + c.toNat) / 65536) = a := by
    apply UInt8.toNat.inj
    rw [UInt8.toNat_ofNat']
    omega
  have h1 : UInt8.ofNat ((65536 * a.toNat + 256 * b.toNat + c.toNat) / 256) = b := by
    apply UInt8.toNat.inj
    rw [UInt8.toNat_ofNat']
    omega
  have h0 : UInt8.ofNat (65536 * a.toNat + 256 * b.toNat + c.toNat) = c := by
    apply UInt8.toNat.inj
    rw [UInt8.toNat_ofNat']
    omega
  rw [octets, h2, h1, h0]

/-- A padded quantum is a whole one whose missing bytes are zero, but for its last characters. -/
theorem quartet_pad_one (a b : UInt8) :
    quartet (digit (a.toNat / 4)) (digit (16 * (a.toNat % 4) + b.toNat / 16))
        (digit (4 * (b.toNat % 16))) pad =
      65536 * a.toNat + 256 * b.toNat + (0 : UInt8).toNat := by
  rw [← quartet_quantum a b 0]
  rfl

theorem quartet_pad_two (a : UInt8) :
    quartet (digit (a.toNat / 4)) (digit (16 * (a.toNat % 4))) pad pad =
      65536 * a.toNat + 256 * (0 : UInt8).toNat + (0 : UInt8).toNat := by
  rw [← quartet_quantum a 0 0]
  rfl

/-- The bytes of the quartets begin with the encoded string. -/
theorem triples_quanta (s : Bytes) : ∃ zeros, triples (quanta s) = s ++ zeros := by
  induction s using quanta.induct with
  | case1 => exact ⟨[], rfl⟩
  | case2 a =>
    refine ⟨[0, 0], ?_⟩
    rw [quanta, triples, quartet_pad_two, octets_word]
    rfl
  | case3 a b =>
    refine ⟨[0], ?_⟩
    rw [quanta, triples, quartet_pad_one, octets_word]
    rfl
  | case4 a b c rest ih =>
    obtain ⟨zeros, hz⟩ := ih
    refine ⟨zeros, ?_⟩
    rw [quanta, triples, quartet_quantum, octets_word, hz]
    rfl

/-! ## The announced length -/

theorem outLength_cons (a b c d : UInt8) (t : Bytes) (h : 4 ≤ t.length) :
    outLength (a :: b :: c :: d :: t) = outLength t + 3 := by
  have h1 : (a :: b :: c :: d :: t).getD ((a :: b :: c :: d :: t).length - 1) 0 =
      t.getD (t.length - 1) 0 := by
    rw [show (a :: b :: c :: d :: t).length - 1 = t.length - 1 + 4 by simp; omega]
    rfl
  have h2 : (a :: b :: c :: d :: t).getD ((a :: b :: c :: d :: t).length - 2) 0 =
      t.getD (t.length - 2) 0 := by
    rw [show (a :: b :: c :: d :: t).length - 2 = t.length - 2 + 4 by simp; omega]
    rfl
  have hlen : (a :: b :: c :: d :: t).length / 4 * 3 = t.length / 4 * 3 + 3 := by
    simp only [List.length_cons]
    omega
  have hthree : 3 ≤ t.length / 4 * 3 := by omega
  unfold outLength
  rw [h1, h2, hlen]
  split_ifs <;> omega

theorem outLength_quanta (s : Bytes) : outLength (quanta s) = s.length := by
  induction s using quanta.induct with
  | case1 => rfl
  | case2 a => simp [outLength, quanta]
  | case3 a b =>
    have hb := b.toNat_lt
    have hd := digit_ne_pad (4 * (b.toNat % 16)) (by omega)
    simp [outLength, quanta, hd]
  | case4 a b c rest ih =>
    by_cases hrest : rest = []
    · subst hrest
      have hc := c.toNat_lt
      have hd2 := digit_ne_pad (4 * (b.toNat % 16) + c.toNat / 64) (by omega)
      have hd3 := digit_ne_pad (c.toNat % 64) (by omega)
      simp [outLength, quanta, hd2, hd3]
    · have hpos : 0 < rest.length := List.length_pos_iff.mpr hrest
      have hlen : 4 ≤ (quanta rest).length := by
        rw [quanta_length]
        omega
      rw [quanta, outLength_cons _ _ _ _ _ hlen, ih]
      simp

/-! ## The alphabet of an encoding -/

theorem mem_quanta {s : Bytes} {x : UInt8} (h : x ∈ quanta s) : x = pad ∨ ∃ n < 64, x = digit n := by
  induction s using quanta.induct with
  | case1 => simp [quanta] at h
  | case2 a =>
    have ha := a.toNat_lt
    simp only [quanta, List.mem_cons, List.not_mem_nil, or_false] at h
    rcases h with rfl | rfl | rfl | rfl
    · exact Or.inr ⟨_, by omega, rfl⟩
    · exact Or.inr ⟨_, by omega, rfl⟩
    · exact Or.inl rfl
    · exact Or.inl rfl
  | case3 a b =>
    have ha := a.toNat_lt
    have hb := b.toNat_lt
    simp only [quanta, List.mem_cons, List.not_mem_nil, or_false] at h
    rcases h with rfl | rfl | rfl | rfl
    · exact Or.inr ⟨_, by omega, rfl⟩
    · exact Or.inr ⟨_, by omega, rfl⟩
    · exact Or.inr ⟨_, by omega, rfl⟩
    · exact Or.inl rfl
  | case4 a b c rest ih =>
    have ha := a.toNat_lt
    have hb := b.toNat_lt
    have hc := c.toNat_lt
    simp only [quanta, List.mem_cons] at h
    rcases h with rfl | rfl | rfl | rfl | h
    · exact Or.inr ⟨_, by omega, rfl⟩
    · exact Or.inr ⟨_, by omega, rfl⟩
    · exact Or.inr ⟨_, by omega, rfl⟩
    · exact Or.inr ⟨_, by omega, rfl⟩
    · exact ih h

theorem quanta_low {s : Bytes} {x : UInt8} (h : x ∈ quanta s) : x.toNat < 128 := by
  rcases mem_quanta h with rfl | ⟨n, hn, rfl⟩
  · decide
  · exact digit_low n hn

theorem newline_not_mem_quanta (s : Bytes) : 10 ∉ quanta s := by
  intro h
  rcases mem_quanta h with h | ⟨n, hn, h⟩
  · exact absurd h (by decide)
  · exact digit_ne_newline n hn h.symm

theorem quanta_eq_nil {s : Bytes} : quanta s = [] ↔ s = [] := by
  constructor
  · intro h
    have hlen := quanta_length s
    rw [h] at hlen
    simp at hlen
    exact List.eq_nil_of_length_eq_zero (by omega)
  · rintro rfl
    rfl

/-! ## The round trip -/

theorem decode_quanta (s : Bytes) : decode (quanta s) = .ok s := by
  obtain ⟨zeros, hz⟩ := triples_quanta s
  have hdvd : 4 ∣ (quanta s).length := by
    rw [quanta_length]
    exact Nat.dvd_mul_right 4 _
  rw [decode_eq hdvd (fun x hx => quanta_low hx), outLength_quanta, hz, List.take_left]

/-- **Round trip.** Where `Encode` completes, `Decode` gives the string back. -/
theorem decode_encode (s : StdString) (t : Bytes) (h : encode s = .ok t) :
    decode t = .ok s.bytes := by
  obtain ⟨rfl, -, -⟩ := encode_ok h
  exact decode_quanta s.bytes

def hello : StdString := ⟨ascii "HELLO", by decide⟩

theorem decode_encode_hello : decode (ascii "SEVMTE8=") = .ok (ascii "HELLO") :=
  decode_encode hello (ascii "SEVMTE8=") (by decide +kernel)

end Diginext.Base64
