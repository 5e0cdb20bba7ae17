import Diginext.Base64.Decode

/-! # What `Base64::Decode` computes

`triples` is the decoding of a text by quartets, three bytes (`octets`) to each sum of four `sextet`s,
whatever the characters are: `'='` counts as zero and a character outside the alphabet as the table's
64. `decode_eq` says that `decode` returns it, cut to the length that the last two characters announce,
on every text of a whole number of quartets whose bytes are below `0x80`. The decoding loop keeps the
output in the shape `filled`: what has been decoded so far, cut to the length of the array.
-/
namespace Diginext.Base64
open Outcomes Cpp
set_option autoImplicit false

def sextet (c : UInt8) : ℕ := if c = pad then 0 else (kDecodingTable.getD c.toNat 0).toNat

def word (a b c d : ℕ) : ℕ := 262144 * a + 4096 * b + 64 * c + d

def quartet (a b c d : UInt8) : ℕ := word (sextet a) (sextet b) (sextet c) (sextet d)

def octets (w : ℕ) : Bytes := [UInt8.ofNat (w / 65536), UInt8.ofNat (w / 256), UInt8.ofNat w]

def triples : Bytes → Bytes
  | a :: b :: c :: d :: rest => octets (quartet a b c d) ++ triples rest
  | _ => []

/-- The number of output bytes the source computes for a text. -/
def outLength (t : Bytes) : ℕ :=
  t.length / 4 * 3 - (if t.getD (t.length - 1) 0 = pad then 1 else 0) -
    (if t.getD (t.length - 2) 0 = pad then 1 else 0)

/-! ## The value of a character -/

theorem kDecodingTable_getElem {n : ℕ} (hn : n < 256) :
    kDecodingTable[n]? = some (kDecodingTable.getD n 0) := by
  have hlength : kDecodingTable.length = 256 := by decide +kernel
  have hlt : n < kDecodingTable.length := by omega
  rw [List.getD_eq_getElem?_getD, List.getElem?_eq_getElem hlt, Option.getD_some]

theorem sextet_le (c : UInt8) : sextet c ≤ 64 := by
  have htable : ∀ v ∈ kDecodingTable, v.toNat ≤ 64 := by decide +kernel
  unfold sextet
  split
  · omega
  · exact htable _ (List.mem_of_getElem? (kDecodingTable_getElem c.toNat_lt))

theorem toInt_low : ∀ c : UInt8, c.toNat < 128 → (toInt c).toInt = c.toNat :=
  forall_byte (by decide +kernel)

/-- A byte with the sign bit set is a negative index. -/
theorem toInt_high : ∀ c : UInt8, 128 ≤ c.toNat → (toInt c).toInt < 0 :=
  forall_byte (by decide +kernel)

theorem decodingAt_eq (c : UInt8) (h : c.toNat < 128) (hp : c ≠ pad) :
    decodingAt (toInt c) = .ok (UInt8.ofNat (sextet c)) := by
  rw [decodingAt, toInt_low c h, if_pos (by omega), Int.toNat_natCast,
    kDecodingTable_getElem c.toNat_lt, Outcome.ofOption_some, sextet, if_neg hp, UInt8.ofNat_toNat]

theorem sextetAt_eq {t : Bytes} {i : ℕ} {c : UInt8} (hc : charAt t i = .ok c)
    (hlow : c.toNat < 128) : sextetAt t i = .ok (UInt32.ofNat (sextet c), i + 1) := by
  simp only [sextetAt, hc, Outcome.ok_bind, Outcome.pure_eq]
  by_cases hp : c = pad
  · rw [if_pos hp, sextet, if_pos hp]
    rfl
  · have hle := sextet_le c
    have hval : (UInt8.ofNat (sextet c)).toUInt32 = UInt32.ofNat (sextet c) := by
      apply UInt32.toNat.inj
      simp
      omega
    rw [if_neg hp, decodingAt_eq c hlow hp, Outcome.ok_bind, hval]

theorem charAt_append (pre rest : Bytes) (c : UInt8) :
    charAt (pre ++ c :: rest) pre.length = .ok c := by
  simp [charAt]

theorem charAt_append_add (pre rest : Bytes) (j : ℕ) :
    charAt (pre ++ rest) (pre.length + j) = charAt rest j := by
  rw [charAt, charAt, List.append_assoc, List.getElem?_append_right (Nat.le_add_right _ _),
    Nat.add_sub_cancel_left]

/-! ## The sum of a quartet and its bytes -/

theorem triple_toNat {a b c d : ℕ} (ha : a ≤ 64) (hb : b ≤ 64) (hc : c ≤ 64) (hd : d ≤ 64) :
    ((UInt32.ofNat a <<< (3 * 6)) + (UInt32.ofNat b <<< (2 * 6)) + (UInt32.ofNat c <<< (1 * 6)) +
      (UInt32.ofNat d <<< (0 * 6))).toNat = word a b c d := by
  simp only [UInt32.toNat_add, UInt32.toNat_shiftLeft, UInt32.toNat_ofNat', UInt32.toNat_mul]
  simp [Nat.shiftLeft_eq, word]
  omega

theorem low_byte (w : UInt32) : (w &&& 0xFF).toUInt8 = UInt8.ofNat w.toNat := by
  apply UInt8.toNat.inj
  simp
  rw [show 255 = 2 ^ 8 - 1 by rfl, Nat.and_two_pow_sub_one_eq_mod]
  omega

theorem byte2 (w : UInt32) : ((w >>> (2 * 8)) &&& 0xFF).toUInt8 = UInt8.ofNat (w.toNat / 65536) := by
  rw [low_byte]
  simp [UInt32.toNat_shiftRight, Nat.shiftRight_eq_div_pow]

theorem byte1 (w : UInt32) : ((w >>> (1 * 8)) &&& 0xFF).toUInt8 = UInt8.ofNat (w.toNat / 256) := by
  rw [low_byte]
  simp [UInt32.toNat_shiftRight, Nat.shiftRight_eq_div_pow]

theorem byte0 (w : UInt32) : ((w >>> (0 * 8)) &&& 0xFF).toUInt8 = UInt8.ofNat w.toNat := by
  rw [low_byte]
  simp

/-! ## The output array -/

/-- The array of `out_len` bytes after `done` has been decoded. -/
def filled (out_len : ℕ) (done : Bytes) : List (Option UInt8) :=
  (done.take out_len).map some ++ List.replicate (out_len - done.length) none

theorem store_filled (out_len : ℕ) (v : UInt32) (done : Bytes) {n : ℕ} (hn : done.length = n) :
    store out_len v (min n out_len) (filled out_len done) =
      .ok (min (n + 1) out_len, filled out_len (done ++ [(v &&& 0xFF).toUInt8])) := by
  subst hn
  by_cases h : done.length < out_len
  · have hmin : min done.length out_len = done.length := Nat.min_eq_left (by omega)
    have hmin' : min (done.length + 1) out_len = done.length + 1 := Nat.min_eq_left (by omega)
    have htake : done.take out_len = done := List.take_of_length_le (by omega)
    have htake' : ∀ x, (done ++ [x]).take out_len = done ++ [x] := fun x =>
      List.take_of_length_le (by simp; omega)
    have hrep : List.replicate (out_len - done.length) (none : Option UInt8) =
        none :: List.replicate (out_len - (done.length + 1)) none := by
      rw [show out_len - done.length = (out_len - (done.length + 1)) + 1 by omega,
        List.replicate_succ]
    have hset : (done.map some ++ none :: List.replicate (out_len - (done.length + 1)) none).set
        done.length (some (v &&& 0xFF).toUInt8) = done.map some ++ some (v &&& 0xFF).toUInt8 ::
          List.replicate (out_len - (done.length + 1)) none := by
      rw [List.set_append_right _ _ (by simp), List.length_map, Nat.sub_self, List.set_cons_zero]
    have hlen : done.length < (filled out_len done).length := by
      simp [filled]
      omega
    rw [store, hmin, if_pos h, if_pos hlen, hmin', filled, filled, htake, htake', hrep, hset]
    simp
  · have hmin : min done.length out_len = out_len := Nat.min_eq_right (by omega)
    have hmin' : min (done.length + 1) out_len = out_len := Nat.min_eq_right (by omega)
    have hnone : out_len - done.length = 0 := by omega
    have hnone' : ∀ x : UInt8, out_len - (done ++ [x]).length = 0 := fun x => by simp; omega
    have htake : ∀ x, (done ++ [x]).take out_len = done.take out_len := fun x =>
      List.take_append_of_le_length (by omega)
    rw [store, hmin, if_neg (Nat.lt_irrefl _), hmin', filled, filled, hnone, hnone', htake]

/-! ## The decoding loop -/

theorem decodeStep_eq (pre rest : Bytes) (a b c d : UInt8) (out_len : ℕ) (done : Bytes)
    (hlow : ∀ x ∈ [a, b, c, d], x.toNat < 128) :
    decodeStep (pre ++ a :: b :: c :: d :: rest) out_len pre.length (min done.length out_len)
        (filled out_len done) =
      .ok (pre.length + 4, min (done.length + 3) out_len,
        filled out_len (done ++ octets (quartet a b c d))) := by
  have h0 : charAt (pre ++ a :: b :: c :: d :: rest) pre.length = .ok a := charAt_append pre _ a
  have h1 : charAt (pre ++ a :: b :: c :: d :: rest) (pre.length + 1) = .ok b := by
    rw [charAt_append_add]; rfl
  have h2 : charAt (pre ++ a :: b :: c :: d :: rest) (pre.length + 1 + 1) = .ok c := by
    rw [Nat.add_assoc, charAt_append_add]; rfl
  have h3 : charAt (pre ++ a :: b :: c :: d :: rest) (pre.length + 1 + 1 + 1) = .ok d := by
    rw [Nat.add_assoc, Nat.add_assoc, charAt_append_add]; rfl
  have hw := triple_toNat (sextet_le a) (sextet_le b) (sextet_le c) (sextet_le d)
  simp only [decodeStep, sextetAt_eq h0 (hlow a (by simp)), sextetAt_eq h1 (hlow b (by simp)),
    sextetAt_eq h2 (hlow c (by simp)), sextetAt_eq h3 (hlow d (by simp)), Outcome.ok_bind,
    Outcome.pure_eq]
  rw [store_filled out_len _ done rfl, Outcome.ok_bind, store_filled out_len _ _ (by simp),
    Outcome.ok_bind, store_filled out_len _ _ (by simp), Outcome.ok_bind, byte2, byte1, byte0, hw]
  simp [octets, quartet]

/-- The loop decodes every quartet. The induction is on the text still to be read. -/
theorem decodeLoop_eq (t : Bytes) (out_len : ℕ) (hlow : ∀ x ∈ t, x.toNat < 128) (fuel : ℕ) :
    ∀ pre rest done : Bytes, t = pre ++ rest → 4 ∣ rest.length → rest.length < fuel →
      decodeLoop t t.length out_len fuel pre.length (min done.length out_len)
        (filled out_len done) = .ok (filled out_len (done ++ triples rest)) := by
  induction fuel with
  | zero => intro pre rest done _ _ hf; omega
  | succ fuel ih =>
    intro pre rest done hsplit hdvd hfuel
    have hlen : t.length = pre.length + rest.length := by rw [hsplit, List.length_append]
    unfold decodeLoop
    match rest with
    | [] =>
      have hend : ¬ pre.length < t.length := by simp at hlen; omega
      rw [if_neg hend]
      simp [triples]
    | [_] => simp at hdvd
    | [_, _] => simp at hdvd
    | [_, _, _] => simp at hdvd
    | a :: b :: c :: d :: rest =>
      have hlt : pre.length < t.length := by simp at hlen; omega
      have hq : ∀ x ∈ [a, b, c, d], x.toNat < 128 := by
        intro x hx
        apply hlow
        rw [hsplit]
        simp at hx ⊢
        tauto
      have hnext := ih (pre ++ [a, b, c, d]) rest (done ++ octets (quartet a b c d))
        (by simp [hsplit]) (by simp at hdvd; omega) (by simp at hfuel; omega)
      have hlen3 : (done ++ octets (quartet a b c d)).length = done.length + 3 := by simp [octets]
      have hpre : (pre ++ [a, b, c, d]).length = pre.length + 4 := by simp
      rw [hlen3, hpre] at hnext
      rw [if_pos hlt]
      nth_rewrite 1 [hsplit]
      rw [decodeStep_eq pre rest a b c d out_len done hq, Outcome.ok_bind]
      simp only [hnext, triples, List.append_assoc]

/-! ## The whole decoding -/

theorem triples_length : ∀ t : Bytes, (triples t).length = t.length / 4 * 3
  | [] => by simp [triples]
  | [_] => by simp [triples]
  | [_, _] => by simp [triples]
  | [_, _, _] => by simp [triples]
  | a :: b :: c :: d :: rest => by
    simp only [triples, octets, List.length_append, List.length_cons, List.length_nil,
      triples_length rest]
    omega

theorem filled_full {out_len : ℕ} {done : Bytes} (h : out_len ≤ done.length) :
    filled out_len done = (done.take out_len).map some := by
  rw [filled, show out_len - done.length = 0 by omega, List.replicate_zero, List.append_nil]

theorem mapM_some (l : Bytes) : (l.map some).mapM id = some l := by
  induction l with
  | nil => rfl
  | cons c l ih => simp [List.mapM_cons, ih]

theorem charAt_getD {t : Bytes} {i : ℕ} (h : i < t.length) : charAt t i = .ok (t.getD i 0) := by
  rw [charAt, List.getElem?_append_left h, List.getElem?_eq_getElem h, Outcome.ofOption_some,
    List.getD_eq_getElem?_getD, List.getElem?_eq_getElem h, Option.getD_some]

/-- The two subtractions of the source do not wrap. -/
theorem announced_length (t : Bytes) (hlen : 2 ≤ t.length / 4 * 3) :
    (if t.getD (t.length - 2) 0 = pad then
      sizeSub (if t.getD (t.length - 1) 0 = pad then sizeSub (t.length / 4 * 3) 1
        else t.length / 4 * 3) 1
      else if t.getD (t.length - 1) 0 = pad then sizeSub (t.length / 4 * 3) 1
        else t.length / 4 * 3) = outLength t := by
  unfold outLength sizeSub
  split_ifs <;> omega

/-- **`Base64::Decode(const std::string &)`** on a text of whole quartets without a byte from `0x80`
on. -/
theorem decode_eq {t : Bytes} (hdvd : 4 ∣ t.length) (hlow : ∀ x ∈ t, x.toNat < 128) :
    decode t = .ok ((triples t).take (outLength t)) := by
  by_cases hnil : t = []
  · subst hnil
    rfl
  have hpos : 0 < t.length := List.length_pos_iff.mpr hnil
  have hmod : ¬ t.length % 4 ≠ 0 := by omega
  have hlast : charAt t (sizeSub t.length 1) = .ok (t.getD (t.length - 1) 0) := by
    rw [sizeSub_of_le (by omega), charAt_getD (by omega)]
  have hbefore : charAt t (sizeSub t.length 2) = .ok (t.getD (t.length - 2) 0) := by
    rw [sizeSub_of_le (by omega), charAt_getD (by omega)]
  have hout := announced_length t (by omega : 2 ≤ t.length / 4 * 3)
  have hle : outLength t ≤ (triples t).length := by
    rw [triples_length]
    unfold outLength
    omega
  have hloop := decodeLoop_eq t (outLength t) hlow (t.length + 1) [] t [] rfl hdvd (by omega)
  have hempty : filled (outLength t) [] = List.replicate (outLength t) none := by simp [filled]
  simp only [List.length_nil, Nat.zero_min, List.nil_append, hempty, filled_full hle] at hloop
  rw [decode, if_neg hnil, decodeBuffer]
  simp only [if_neg hmod, hlast, hbefore, Outcome.ok_bind, hout, hloop, Outcome.catchAll_ok]
  rw [mapM_some, Outcome.ofOption_some]

theorem decode_length {t : Bytes} (h : ¬ 4 ∣ t.length) :
    decode t = .throws (.runtime_error "Input data size is not a multiple of 4") := by
  have hnil : t ≠ [] := by
    rintro rfl
    simp at h
  have hmod : t.length % 4 ≠ 0 := by omega
  rw [decode, if_neg hnil, decodeBuffer]
  simp only [if_pos hmod, Outcome.throws_bind]

end Diginext.Base64
