import Diginext.Base64.Grammar
import Diginext.Base64.Rfc4648
import Mathlib.Data.List.Nodup

/-! # The standard decoding

`standardDecoding` is the decoding of RFC 4648, section 4, over the stream of bits: the values of the
characters of the alphabet, six bits each, one after another, and the groups of eight bits of it.
The `'='` take no part, and the bits after the last whole group are dropped. `decode_standard` says
that the decoder computes it on the whole grammar, the texts among them that no encoder writes.
-/
namespace Diginext.Base64
open Outcomes Cpp Bits
set_option autoImplicit false

/-- The bits of the characters before the padding. -/
def alphabetBits (t : Bytes) : List Bool :=
  (t.filter (· ≠ pad)).flatMap fun c => bits 6 (standardAlphabet.idxOf c)

/-- The groups of eight; fewer than eight bits at the end are dropped. -/
def eights (l : List Bool) : List (List Bool) :=
  (List.range (l.length / 8)).map fun k => (l.drop (8 * k)).take 8

def octet (group : List Bool) : UInt8 := UInt8.ofNat (value group)

def standardDecoding (t : Bytes) : Bytes := (eights (alphabetBits t)).map octet

/-! ## Groups -/

theorem eights_append (g rest : List Bool) (h : g.length = 8) :
    eights (g ++ rest) = g :: eights rest := by
  have hcount : (g ++ rest).length / 8 = rest.length / 8 + 1 := by
    rw [List.length_append]
    omega
  have hfirst : ((g ++ rest).drop (8 * 0)).take 8 = g := by
    rw [Nat.mul_zero, List.drop_zero, ← h, List.take_left]
  have hothers : ∀ k, ((g ++ rest).drop (8 * (k + 1))).take 8 = (rest.drop (8 * k)).take 8 := by
    intro k
    rw [show 8 * (k + 1) = g.length + 8 * k by omega, ← List.drop_drop, List.drop_left]
  rw [eights, hcount, List.range_succ_eq_map, List.map_cons, hfirst, List.map_map, eights]
  exact congrArg (g :: ·) (List.map_congr_left fun k _ => hothers k)

/-- The groups of a stream are the first ones of any longer stream. -/
theorem eights_prefix (l m : List Bool) : eights l = (eights (l ++ m)).take (l.length / 8) := by
  have hle : l.length / 8 ≤ (l ++ m).length / 8 := by
    rw [List.length_append]
    omega
  rw [eights, eights, ← List.map_take, List.take_range, Nat.min_eq_left hle]
  refine List.map_congr_left fun k hk => ?_
  have hin : k < l.length / 8 := List.mem_range.mp hk
  rw [List.drop_append_of_le_length (by omega), List.take_append_of_le_length (by simp; omega)]

theorem octet_bits (n : ℕ) : octet (bits 8 n) = UInt8.ofNat n := by
  rw [octet, value_bits]
  apply UInt8.toNat.inj
  simp

/-- The 24 bits of a word are the three bytes that the decoder makes of it. -/
theorem eights_word (w : ℕ) (rest : List Bool) :
    (eights (bits 24 w ++ rest)).map octet = octets w ++ (eights rest).map octet := by
  have hcut : bits 24 w = bits 8 (w / 65536) ++ (bits 8 (w / 256) ++ bits 8 w) := by
    rw [show 24 = 8 + (8 + 8) by rfl, bits_add, bits_add]
    rfl
  rw [hcut, List.append_assoc, List.append_assoc, eights_append _ _ (by simp),
    eights_append _ _ (by simp), eights_append _ _ (by simp)]
  simp only [List.map_cons, octet_bits]
  rfl

/-! ## The stream that the decoder reads -/

/-- Six bits of every character, zero bits where it is a `'='`. -/
def sextetBits (t : Bytes) : List Bool := t.flatMap fun c => bits 6 (sextet c)

/-- No character stands twice in the alphabet, since `sextet` tells them apart. -/
theorem idxOf_digit (n : ℕ) (hn : n < 64) : standardAlphabet.idxOf (digit n) = n := by
  have hvalues : sEncodingTable.map sextet = List.range 64 := by decide +kernel
  have hnodup : sEncodingTable.Nodup := by
    apply List.Nodup.of_map sextet
    rw [hvalues]
    exact List.nodup_range
  have hget : digit n = sEncodingTable[n] := by
    rw [digit, List.getD_eq_getElem _ _ hn]
  rw [standardAlphabet_eq, hget]
  exact hnodup.idxOf_getElem n hn

theorem sextet_alphabet (c : UInt8) (h : c ∈ sEncodingTable) :
    c ≠ pad ∧ sextet c < 64 ∧ sextet c = standardAlphabet.idxOf c := by
  obtain ⟨n, hn, rfl⟩ := exists_digit h
  rw [idxOf_digit n hn, sextet_digit n hn]
  exact ⟨digit_ne_pad n hn, hn, rfl⟩

theorem bits_quartet (a : UInt8) {b c d : UInt8} (hb : sextet b < 64) (hc : sextet c < 64)
    (hd : sextet d < 64) :
    bits 6 (sextet a) ++ (bits 6 (sextet b) ++ (bits 6 (sextet c) ++ bits 6 (sextet d))) =
      bits 24 (quartet a b c d) := by
  rw [bits_mul_add 6 6 _ _ hd, bits_mul_add 6 (6 + 6) _ _ (by omega),
    bits_mul_add 6 (6 + (6 + 6)) _ _ (by omega)]
  congr 1
  unfold quartet word
  omega

/-- The decoder's bytes are the groups of eight of that stream. -/
theorem triples_stream : ∀ t : Bytes, 4 ∣ t.length → (∀ c ∈ t, sextet c < 64) →
    triples t = (eights (sextetBits t)).map octet
  | [], _, _ => rfl
  | [_], hdvd, _ => by simp at hdvd
  | [_, _], hdvd, _ => by simp at hdvd
  | [_, _, _], hdvd, _ => by simp at hdvd
  | a :: b :: c :: d :: rest, hdvd, hsmall => by
    have hrest := triples_stream rest (by simp at hdvd; omega) fun x hx => hsmall x (by simp [hx])
    have hstream : sextetBits (a :: b :: c :: d :: rest) =
        bits 24 (quartet a b c d) ++ sextetBits rest := by
      rw [← bits_quartet a (hsmall b (by simp)) (hsmall c (by simp)) (hsmall d (by simp))]
      simp only [sextetBits, List.flatMap_cons, List.append_assoc]
    rw [hstream, eights_word, ← hrest]
    rfl

theorem sextetBits_length (t : Bytes) : (sextetBits t).length = 6 * t.length := by
  induction t with
  | nil => rfl
  | cons c t ih =>
    rw [sextetBits, List.flatMap_cons, List.length_append, bits_length, List.length_cons]
    rw [sextetBits] at ih
    omega

/-! ## Texts of the grammar -/

/-- A well-formed text is characters of the alphabet and at most two `'='`. -/
theorem WellFormed.split {t : Bytes} (h : WellFormed t) : ∃ (body : Bytes) (n : ℕ), n < 3 ∧
    n ≤ t.length ∧ t = body ++ List.replicate n pad ∧ ∀ c ∈ body, c ∈ sEncodingTable := by
  obtain ⟨-, n, hn, hbody, hpad⟩ := h
  refine ⟨t.take (t.length - n), n, hn, ?_, ?_, hbody⟩
  · have hlen := congrArg List.length hpad
    simp at hlen
    omega
  · rw [← hpad, List.take_append_drop]

theorem alphabetBits_append {body : Bytes} (n : ℕ) (hbody : ∀ c ∈ body, c ∈ sEncodingTable) :
    alphabetBits (body ++ List.replicate n pad) = sextetBits body := by
  have hkeep : body.filter (· ≠ pad) = body :=
    List.filter_eq_self.mpr fun c hc => decide_eq_true (sextet_alphabet c (hbody c hc)).1
  have hdrop : (List.replicate n pad).filter (· ≠ pad) = [] := by simp
  rw [alphabetBits, List.filter_append, hkeep, hdrop, List.append_nil, sextetBits]
  refine List.flatMap_congr fun c hc => ?_
  rw [(sextet_alphabet c (hbody c hc)).2.2]

theorem count_pad {body : Bytes} (n : ℕ) (hbody : ∀ c ∈ body, c ∈ sEncodingTable) :
    (body ++ List.replicate n pad).count pad = n := by
  have hnone : pad ∉ body := fun hmem => (sextet_alphabet pad (hbody pad hmem)).1 rfl
  rw [List.count_append, List.count_eq_zero.mpr hnone, List.count_replicate_self, Nat.zero_add]

theorem getD_body {body : Bytes} (hbody : ∀ c ∈ body, c ∈ sEncodingTable) (rest : Bytes) {i : ℕ}
    (hi : i < body.length) : (body ++ rest).getD i 0 ≠ pad := by
  rw [List.getD_append _ _ _ _ hi, List.getD_eq_getElem _ _ hi]
  exact (sextet_alphabet _ (hbody _ (List.getElem_mem hi))).1

theorem getD_padding (body : Bytes) {n i : ℕ} (hi : body.length ≤ i) (hn : i < body.length + n) :
    (body ++ List.replicate n pad).getD i 0 = pad := by
  rw [List.getD_append_right _ _ _ _ hi, List.getD_replicate _ (by omega)]

/-- Looking at the last two characters is enough to count the padding. -/
theorem outLength_padded {body : Bytes} {n : ℕ} (hn : n < 3)
    (hbody : ∀ c ∈ body, c ∈ sEncodingTable) (hdvd : 4 ∣ body.length + n) :
    outLength (body ++ List.replicate n pad) = 3 * (body.length + n) / 4 - n := by
  have hlen : (body ++ List.replicate n pad).length = body.length + n := by simp
  rw [outLength, hlen]
  have hcases : n = 0 ∨ n = 1 ∨ n = 2 := by omega
  rcases hcases with rfl | rfl | rfl
  · by_cases hnil : body = []
    · subst hnil
      rfl
    · have hpos := List.length_pos_iff.mpr hnil
      rw [if_neg (getD_body hbody _ (by omega)), if_neg (getD_body hbody _ (by omega))]
      omega
  · rw [if_pos (getD_padding body (by omega) (by omega)), if_neg (getD_body hbody _ (by omega))]
    omega
  · rw [if_pos (getD_padding body (by omega) (by omega)),
      if_pos (getD_padding body (by omega) (by omega))]
    omega

/-! ## The decoder on the grammar -/

/-- **`Base64::Decode(const std::string &)` is the standard decoding** of every well-formed text. -/
theorem decode_standard (t : Bytes) (h : WellFormed t) : ∃ s, decode t = .ok s ∧
    s.length = 3 * t.length / 4 - t.count pad ∧ s = standardDecoding t := by
  obtain ⟨body, n, hn, -, rfl, hbody⟩ := h.split
  have hdvd : 4 ∣ body.length + n := by simpa using h.1
  have hlen : (body ++ List.replicate n pad).length = body.length + n := by simp
  have hout := outLength_padded hn hbody hdvd
  have hsmall : ∀ c ∈ body ++ List.replicate n pad, sextet c < 64 := by
    intro c hc
    rcases List.mem_append.mp hc with hc | hc
    · exact (sextet_alphabet c (hbody c hc)).2.1
    · rw [List.eq_of_mem_replicate hc]
      decide
  -- The bits of the padding only lengthen the stream; the output is cut before them.
  have hstandard : standardDecoding (body ++ List.replicate n pad) =
      (triples (body ++ List.replicate n pad)).take (3 * (body.length + n) / 4 - n) := by
    have hstream : sextetBits (body ++ List.replicate n pad) =
        sextetBits body ++ sextetBits (List.replicate n pad) := List.flatMap_append
    rw [standardDecoding, alphabetBits_append n hbody, triples_stream _ h.1 hsmall, hstream,
      eights_prefix (sextetBits body) (sextetBits (List.replicate n pad)), sextetBits_length,
      List.map_take]
    congr 1
    omega
  refine ⟨_, decode_eq h.1 h.low, ?_, ?_⟩
  · rw [List.length_take, triples_length, hout, hlen, count_pad n hbody]
    omega
  · rw [hout, hstandard]

theorem decode_standard_unusedBits : WellFormed (ascii "QR==") ∧
    ∃ s, decode (ascii "QR==") = .ok s ∧
      s.length = 3 * (ascii "QR==").length / 4 - (ascii "QR==").count pad ∧
      s = standardDecoding (ascii "QR==") :=
  ⟨by decide +kernel, decode_standard (ascii "QR==") (by decide +kernel)⟩

end Diginext.Base64
