import Diginext.Base64.StandardDecode

/-! # Which texts `Base64::Encode` writes

The decoder accepts more well-formed texts than the encoder writes: it drops the bits after the last
whole byte, which the encoder sets to zero. A text in which they are zero is `Canonical`. On such texts
encoder and decoder are inverse to each other, and on no others (`encodes_iff`); so a line that is not
canonical does not come from `send`, though `handle_read` delivers its bytes. -/
namespace Diginext.Base64
open Outcomes Cpp Bits
set_option autoImplicit false

/-- The bits that belong to no whole byte. -/
def unusedBits (t : Bytes) : List Bool := (alphabetBits t).drop (8 * ((alphabetBits t).length / 8))

def Canonical (t : Bytes) : Prop := ∀ bit ∈ unusedBits t, bit = false

instance (t : Bytes) : Decidable (Canonical t) := inferInstanceAs (Decidable (∀ bit ∈ _, _))

theorem canonical_iff {t : Bytes} :
    Canonical t ↔ unusedBits t = List.replicate (unusedBits t).length false := by
  rw [List.eq_replicate_iff]
  exact ⟨fun h => ⟨rfl, h⟩, fun h => h.2⟩

/-! ## From bits to bytes and back -/

theorem bits_octet {g : List Bool} (h : g.length = 8) : bits 8 (octet g).toNat = g := by
  have hlt : value g < 2 ^ 8 := h ▸ value_lt g
  have hvalue : (octet g).toNat = value g := by
    rw [octet, UInt8.toNat_ofNat']
    exact Nat.mod_eq_of_lt hlt
  have hbits := bits_value g
  rw [hvalue]
  rwa [h] at hbits

theorem groups_take (l : List Bool) (n : ℕ) :
    ((List.range n).flatMap fun k => (l.drop (8 * k)).take 8) = l.take (8 * n) := by
  induction n with
  | zero => rfl
  | succ n ih =>
    rw [List.range_succ, List.flatMap_append, ih, List.flatMap_singleton, Nat.mul_succ, List.take_add]

/-- The bytes of a stream have its bits, up to the last whole group. -/
theorem octetBits_eights (l : List Bool) :
    octetBits ((eights l).map octet) = l.take (8 * (l.length / 8)) := by
  rw [← groups_take, octetBits, eights, List.map_map, List.flatMap_map]
  refine List.flatMap_congr fun k hk => ?_
  have hin : k < l.length / 8 := List.mem_range.mp hk
  apply bits_octet
  rw [List.length_take, List.length_drop]
  omega

theorem octetBits_length (s : Bytes) : (octetBits s).length = 8 * s.length := by
  induction s with
  | nil => rfl
  | cons c s ih =>
    rw [octetBits, List.flatMap_cons, List.length_append, bits_length, List.length_cons]
    rw [octetBits] at ih
    omega

/-! ## From bits to characters and back -/

theorem character_mem {g : List Bool} (h : g.length = 6) :
    character g ∈ sEncodingTable ∧ bits 6 (sextet (character g)) = g := by
  have hlt : value g < 2 ^ 6 := h ▸ value_lt g
  have hbits := bits_value g
  rw [h] at hbits
  rw [character_eq, sextet_digit _ hlt, hbits]
  refine ⟨?_, rfl⟩
  have hlength : sEncodingTable.length = 64 := by decide
  rw [digit, List.getD_eq_getElem _ _ (by omega)]
  exact List.getElem_mem _

/-- The characters of a stream of whole groups have its bits. -/
theorem sextetBits_sixes (l : List Bool) (h : 6 ∣ l.length) :
    sextetBits ((sixes l).map character) = l ∧ ∀ c ∈ (sixes l).map character, c ∈ sEncodingTable := by
  induction l using sixes.induct with
  | case1 a b c d e f rest ih =>
    obtain ⟨hbits, hmem⟩ := ih (by simp only [List.length_cons] at h; omega)
    obtain ⟨hfirst, hsextet⟩ := character_mem (g := [a, b, c, d, e, f]) rfl
    constructor
    · rw [sixes, List.map_cons, sextetBits, List.flatMap_cons, hsextet]
      rw [sextetBits] at hbits
      rw [hbits]
      rfl
    · rw [sixes, List.map_cons]
      exact List.forall_mem_cons.mpr ⟨hfirst, hmem⟩
  | case2 l hshort =>
    have hnil : l = [] := by
      rcases l with _ | ⟨a, _ | ⟨b, _ | ⟨c, _ | ⟨d, _ | ⟨e, _ | ⟨f, rest⟩⟩⟩⟩⟩⟩
      · rfl
      all_goals first | exact absurd rfl (hshort a b c d e f rest) | (simp at h)
    subst hnil
    exact ⟨rfl, by simp [sixes]⟩

theorem character_sextet {c : UInt8} (h : c ∈ sEncodingTable) : character (bits 6 (sextet c)) = c := by
  obtain ⟨n, hn, rfl⟩ := exists_digit h
  have hmod : n % 2 ^ 6 = n := Nat.mod_eq_of_lt hn
  rw [character_eq, value_bits, sextet_digit n hn, hmod]

theorem sixes_sextetBits {body : Bytes} (h : ∀ c ∈ body, c ∈ sEncodingTable) :
    (sixes (sextetBits body)).map character = body := by
  induction body with
  | nil => rfl
  | cons c body ih =>
    obtain ⟨hc, hbody⟩ := List.forall_mem_cons.mp h
    have hcons : sextetBits (c :: body) = bits 6 (sextet c) ++ sextetBits body := List.flatMap_cons
    rw [hcons, sixes_append _ _ (bits_length 6 _), List.map_cons, ih hbody, character_sextet hc]

/-! ## What is encoded -/

theorem zeroPadded_length (l : List Bool) :
    (zeroPadded l).length = l.length + (6 - l.length % 6) % 6 := by
  rw [zeroPadded, List.length_append, List.length_replicate]

/-- The reference encoding is the characters of the padded stream and the padding. -/
theorem rfc4648_text (s : Bytes) : ∃ (body : Bytes) (n : ℕ), n < 3 ∧
    rfc4648 s = body ++ List.replicate n pad ∧ 4 ∣ body.length + n ∧
    (∀ c ∈ body, c ∈ sEncodingTable) ∧ sextetBits body = zeroPadded (octetBits s) := by
  have hpadded := zeroPadded_length (octetBits s)
  rw [octetBits_length] at hpadded
  obtain ⟨hbits, hmem⟩ := sextetBits_sixes (zeroPadded (octetBits s)) (by omega)
  have hlength := sextetBits_length ((sixes (zeroPadded (octetBits s))).map character)
  rw [hbits, hpadded] at hlength
  refine ⟨_, _, ?_, rfl, ?_, hmem, hbits⟩
  · omega
  · omega

theorem encoded_canonical (s : Bytes) : WellFormed (rfc4648 s) ∧ Canonical (rfc4648 s) := by
  obtain ⟨body, n, hn, htext, hdvd, hmem, hbits⟩ := rfc4648_text s
  have halphabet : alphabetBits (rfc4648 s) = zeroPadded (octetBits s) := by
    rw [htext, alphabetBits_append n hmem, hbits]
  constructor
  · have htake : body.length + n - n = body.length := Nat.add_sub_cancel ..
    refine ⟨by simpa [htext] using hdvd, n, hn, ?_, ?_⟩
    · simpa [htext, htake] using hmem
    · simp [htext, htake]
  · intro bit hbit
    rw [unusedBits, halphabet] at hbit
    have hlength := octetBits_length s
    have hwhole : 8 * ((zeroPadded (octetBits s)).length / 8) = (octetBits s).length := by
      rw [zeroPadded_length]
      omega
    rw [hwhole, zeroPadded, List.drop_left] at hbit
    exact List.eq_of_mem_replicate hbit

/-- A canonical text is the encoding of its bytes. -/
theorem rfc4648_decoded {t : Bytes} (h : WellFormed t) (hcanonical : Canonical t) :
    rfc4648 (standardDecoding t) = t := by
  obtain ⟨body, n, hn, -, rfl, hbody⟩ := h.split
  have hdvd : 4 ∣ body.length + n := by simpa using h.1
  have halphabet := alphabetBits_append n hbody
  have hlength := sextetBits_length body
  rw [canonical_iff, unusedBits, halphabet] at hcanonical
  have hpadded : zeroPadded ((sextetBits body).take (8 * ((sextetBits body).length / 8))) =
      sextetBits body := by
    have hrest : (6 - ((sextetBits body).take (8 * ((sextetBits body).length / 8))).length % 6) % 6 =
        ((sextetBits body).drop (8 * ((sextetBits body).length / 8))).length := by
      obtain ⟨q, hq⟩ := hdvd
      have hcases : n = 0 ∨ n = 1 ∨ n = 2 := by omega
      rw [List.length_take, List.length_drop, hlength, Nat.min_eq_left (by omega)]
      rcases hcases with rfl | rfl | rfl <;> omega
    rw [zeroPadded, hrest, ← hcanonical, List.take_append_drop]
  have hpads : (4 - body.length % 4) % 4 = n := by omega
  rw [rfc4648, standardDecoding, octetBits_eights, halphabet, hpadded, sixes_sextetBits hbody, padded,
    hpads]
  rfl

/-- **The encoder writes the canonical texts, and the decoder inverts it on them only.** Whatever string
and whatever text are given, the text is what `Base64::Encode` makes of the string if and only if
`Base64::Decode` makes the string of the text and the text is well formed, with unused bits that are
zero, of a length that a string can have, and not that of a single byte. -/
theorem encodes_iff (s : StdString) (t : Bytes) : encode s = .ok t ↔
    decode t = .ok s.bytes ∧ WellFormed t ∧ Canonical t ∧ s.bytes.length ≠ 1 ∧ t.length ≤ maxSize := by
  constructor
  · intro h
    obtain ⟨rfl, hone, hfits⟩ := encode_ok h
    have hcanonical := encoded_canonical s.bytes
    rw [rfc4648_eq] at hcanonical
    exact ⟨decode_quanta s.bytes, hcanonical.1, hcanonical.2, hone, hfits⟩
  · rintro ⟨hdecode, hwell, hcanonical, hone, hfits⟩
    have htext := rfc4648_decoded hwell hcanonical
    rw [rfc4648_eq] at htext
    have hbytes : standardDecoding t = s.bytes := by
      have hquanta := decode_quanta (standardDecoding t)
      rw [htext, hdecode] at hquanta
      exact (Outcome.ok.inj hquanta).symm
    rw [hbytes] at htext
    rw [encode_eq, if_neg hone, htext, if_pos hfits]

end Diginext.Base64
