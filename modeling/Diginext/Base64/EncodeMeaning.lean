import Diginext.Base64.Encode

/-! # What `Base64::Encode` computes

`quanta` is the encoding of a byte string by 24-bit quanta, each sextet an arithmetic expression in
the three bytes. `encode_eq` says that `encode` computes it for every string but those of one byte,
on which it leaves its buffers. The bit operations on sign-extended bytes are related to the sextets
once for all six subexpressions of the source (`subexpressions`).
-/
namespace Diginext.Base64
open Outcomes Cpp
set_option autoImplicit false

def digit (n : ℕ) : UInt8 := sEncodingTable.getD n 0

/-- The encoding of a byte string, three bytes to four characters. -/
def quanta : Bytes → Bytes
  | [] => []
  | [a] => [digit (a.toNat / 4), digit (16 * (a.toNat % 4)), pad, pad]
  | [a, b] => [digit (a.toNat / 4), digit (16 * (a.toNat % 4) + b.toNat / 16),
      digit (4 * (b.toNat % 16)), pad]
  | a :: b :: c :: rest =>
    digit (a.toNat / 4) :: digit (16 * (a.toNat % 4) + b.toNat / 16) ::
      digit (4 * (b.toNat % 16) + c.toNat / 64) :: digit (c.toNat % 64) :: quanta rest

/-! ## The table look-ups of the source -/

theorem tableAt_ofNat : ∀ n < 64, tableAt (Int32.ofNat n) = .ok (digit n) := by decide +kernel

/-- The six subexpressions of the source. Sign extension reaches no bit that they keep. -/
theorem subexpressions : ∀ a : UInt8,
    index0 a = Int32.ofNat (a.toNat / 4) ∧
      high1 a = Int32.ofNat (16 * (a.toNat % 4)) ∧ low1 a = Int32.ofNat (a.toNat / 16) ∧
      high2 a = Int32.ofNat (4 * (a.toNat % 16)) ∧ low2 a = Int32.ofNat (a.toNat / 64) ∧
      index3 a = Int32.ofNat (a.toNat % 64) :=
  forall_byte (by decide +kernel)

/-- The parts that are or-ed together occupy disjoint bits. -/
theorem or_disjoint (i : ℕ) {p q : ℕ} (hq : q < 2 ^ i) :
    Int32.ofNat (2 ^ i * p) ||| Int32.ofNat q = Int32.ofNat (2 ^ i * p + q) := by
  rw [Nat.two_pow_add_eq_or_of_lt hq, ← Int32.ofBitVec_ofNat, ← Int32.ofBitVec_ofNat,
    ← Int32.ofBitVec_or, ← BitVec.ofNat_or, Int32.ofBitVec_ofNat]

theorem tableAt_index0 (a : UInt8) : tableAt (index0 a) = .ok (digit (a.toNat / 4)) := by
  obtain ⟨h, -⟩ := subexpressions a
  have ha := a.toNat_lt
  rw [h, tableAt_ofNat _ (by omega)]

theorem tableAt_index1 (a b : UInt8) :
    tableAt (high1 a ||| low1 b) = .ok (digit (16 * (a.toNat % 4) + b.toNat / 16)) := by
  obtain ⟨-, hhigh, -⟩ := subexpressions a
  obtain ⟨-, -, hlow, -⟩ := subexpressions b
  have hb := b.toNat_lt
  have hor := or_disjoint 4 (p := a.toNat % 4) (q := b.toNat / 16) (by omega)
  rw [hhigh, hlow]
  exact (congrArg tableAt hor).trans (tableAt_ofNat _ (by omega))

theorem tableAt_index2 (b c : UInt8) :
    tableAt (high2 b ||| low2 c) = .ok (digit (4 * (b.toNat % 16) + c.toNat / 64)) := by
  obtain ⟨-, -, -, hhigh, -⟩ := subexpressions b
  obtain ⟨-, -, -, -, hlow, -⟩ := subexpressions c
  have hc := c.toNat_lt
  have hor := or_disjoint 2 (p := b.toNat % 16) (q := c.toNat / 64) (by omega)
  rw [hhigh, hlow]
  exact (congrArg tableAt hor).trans (tableAt_ofNat _ (by omega))

theorem tableAt_index3 (c : UInt8) : tableAt (index3 c) = .ok (digit (c.toNat % 64)) := by
  obtain ⟨-, -, -, -, -, h⟩ := subexpressions c
  rw [h, tableAt_ofNat _ (by omega)]

theorem tableAt_high1 (a : UInt8) : tableAt (high1 a) = .ok (digit (16 * (a.toNat % 4))) := by
  obtain ⟨-, h, -⟩ := subexpressions a
  rw [h, tableAt_ofNat _ (by omega)]

theorem tableAt_high2 (b : UInt8) : tableAt (high2 b) = .ok (digit (4 * (b.toNat % 16))) := by
  obtain ⟨-, -, -, h, -⟩ := subexpressions b
  rw [h, tableAt_ofNat _ (by omega)]

/-! ## Lengths and concatenation of quanta -/

theorem quanta_length (s : Bytes) : (quanta s).length = 4 * ((s.length + 2) / 3) := by
  induction s using quanta.induct with
  | case1 => rfl
  | case2 a => simp [quanta]
  | case3 a b => simp [quanta]
  | case4 a b c rest ih =>
    simp only [quanta, List.length_cons, ih]
    omega

theorem quanta_append (s t : Bytes) (h : 3 ∣ s.length) : quanta (s ++ t) = quanta s ++ quanta t := by
  induction s using quanta.induct with
  | case1 => rfl
  | case2 a => simp at h
  | case3 a b => simp at h
  | case4 a b c rest ih =>
    have hrest : 3 ∣ rest.length := by
      simp only [List.length_cons] at h
      omega
    simp only [List.cons_append, quanta, ih hrest]

/-! ## The main loop -/

theorem dataAt_append (pre rest : Bytes) (c : UInt8) :
    dataAt (pre ++ c :: rest) pre.length = .ok c := by
  simp [dataAt]

theorem dataAt_append_add (pre rest : Bytes) (j : ℕ) :
    dataAt (pre ++ rest) (pre.length + j) = dataAt rest j := by
  rw [dataAt, dataAt, List.getElem?_append_right (Nat.le_add_right _ _), Nat.add_sub_cancel_left]

theorem encodeStep_eq (pre rest : Bytes) (a b c : UInt8) (size : ℕ) (out : Bytes)
    (hsize : out.length + 4 ≤ size) :
    encodeStep (pre ++ a :: b :: c :: rest) pre.length (written size out) =
      .ok (written size (out ++ quanta [a, b, c])) := by
  have h0 : dataAt (pre ++ a :: b :: c :: rest) pre.length = .ok a := dataAt_append pre _ a
  have h1 : dataAt (pre ++ a :: b :: c :: rest) (pre.length + 1) = .ok b := by
    rw [dataAt_append_add]; rfl
  have h2 : dataAt (pre ++ a :: b :: c :: rest) (pre.length + 2) = .ok c := by
    rw [dataAt_append_add]; rfl
  simp only [encodeStep, h0, h1, h2, tableAt_index0, tableAt_index1, tableAt_index2, tableAt_index3,
    Outcome.ok_bind]
  rw [put_written _ (by omega), Outcome.ok_bind, put_written _ (by simp; omega), Outcome.ok_bind,
    put_written _ (by simp; omega), Outcome.ok_bind, put_written _ (by simp; omega)]
  simp [quanta]

/-- The main loop consumes all whole quanta but stops before a remainder of at most two bytes. The
induction is on the fuel, which the bytes not yet read bound from below. -/
theorem encodeLoop_eq (s behind : Bytes) (hs : s.length ≤ maxSize) (hs2 : 2 ≤ s.length) (fuel : ℕ) :
    ∀ pre rest : Bytes, s = pre ++ rest → 3 ∣ pre.length → rest.length < fuel →
      ∃ mid tail : Bytes, rest = mid ++ tail ∧ tail.length < 3 ∧ 3 ∣ (pre ++ mid).length ∧
        encodeLoop (s ++ behind) s.length fuel pre.length (written (quanta s).length (quanta pre)) =
          .ok ((pre ++ mid).length, written (quanta s).length (quanta (pre ++ mid))) := by
  have hsub : sizeSub s.length 2 = s.length - 2 := sizeSub_of_le hs2
  induction fuel with
  | zero => intro pre rest _ _ hf; omega
  | succ fuel ih =>
    intro pre rest hsplit hdvd hfuel
    have hlen : s.length = pre.length + rest.length := by rw [hsplit, List.length_append]
    unfold encodeLoop
    rw [hsub]
    by_cases hlt : pre.length < s.length - 2
    · obtain ⟨a, b, c, rest', hrest⟩ : ∃ a b c rest', rest = a :: b :: c :: rest' := by
        match rest, hlen with
        | [], h => simp at h; omega
        | [_], h => simp at h; omega
        | [_, _], h => simp at h; omega
        | a :: b :: c :: rest', _ => exact ⟨a, b, c, rest', rfl⟩
      subst hrest
      have hq : quanta (pre ++ [a, b, c]) = quanta pre ++ quanta [a, b, c] := quanta_append _ _ hdvd
      have hroom : (quanta pre).length + 4 ≤ (quanta s).length := by
        rw [quanta_length, quanta_length, hlen]
        simp only [List.length_cons]
        omega
      have hdata : s ++ behind = pre ++ a :: b :: c :: (rest' ++ behind) := by simp [hsplit]
      have hnext : sizeT (pre.length + 3) = (pre ++ [a, b, c]).length := by
        rw [sizeT_of_lt (by unfold maxSize at hs; omega)]
        simp
      obtain ⟨mid, tail, hmid, htail, hdvd', hrun⟩ := ih (pre ++ [a, b, c]) rest'
        (by simp [hsplit]) (by simp; omega) (by simp at hfuel; omega)
      refine ⟨a :: b :: c :: mid, tail, by simp [hmid], htail, ?_, ?_⟩
      · simpa using hdvd'
      · rw [if_pos hlt, hdata, encodeStep_eq _ _ _ _ _ _ _ hroom, Outcome.ok_bind, hnext, ← hq, ← hdata]
        simpa using hrun
    · refine ⟨[], rest, rfl, by omega, by simpa using hdvd, ?_⟩
      rw [if_neg hlt]
      simp

/-! ## The remainder -/

theorem encodeTail_eq (s behind pre tail : Bytes) (hsplit : s = pre ++ tail)
    (hdvd : 3 ∣ pre.length) (htail : tail.length < 3) :
    encodeTail (s ++ behind) s.length pre.length (written (quanta s).length (quanta pre)) =
      .ok (written (quanta s).length (quanta s)) := by
  have hq : quanta s = quanta pre ++ quanta tail := by rw [hsplit, quanta_append _ _ hdvd]
  have hroom : (quanta s).length = (quanta pre).length + (quanta tail).length := by
    rw [hq, List.length_append]
  have hlen : s.length = pre.length + tail.length := by rw [hsplit, List.length_append]
  have hdata : s ++ behind = pre ++ (tail ++ behind) := by simp [hsplit]
  unfold encodeTail
  match tail with
  | [] =>
    have hpre : ¬ pre.length < s.length := by simp at hlen; omega
    rw [if_neg hpre, hq]
    simp [quanta]
  | [a] =>
    have hi : pre.length < s.length := by simp at hlen; omega
    have hlast : pre.length = sizeSub s.length 1 := by
      rw [sizeSub_of_le (by omega)]
      simp at hlen
      omega
    have hr : (quanta s).length = (quanta pre).length + 4 := by rw [hroom]; rfl
    have h0 : dataAt (s ++ behind) pre.length = .ok a := by
      rw [hdata]
      exact dataAt_append pre behind a
    simp only [if_pos hi, if_pos hlast, h0, tableAt_index0, tableAt_high1, Outcome.ok_bind]
    rw [put_written _ (by omega), Outcome.ok_bind, put_written _ (by simp; omega), Outcome.ok_bind,
      put_written _ (by simp; omega), Outcome.ok_bind, put_written _ (by simp; omega), hq]
    simp [quanta]
  | [a, b] =>
    have hi : pre.length < s.length := by simp at hlen; omega
    have hlast : ¬ pre.length = sizeSub s.length 1 := by
      rw [sizeSub_of_le (by omega)]
      simp at hlen
      omega
    have hr : (quanta s).length = (quanta pre).length + 4 := by rw [hroom]; rfl
    have h0 : dataAt (s ++ behind) pre.length = .ok a := by
      rw [hdata]
      exact dataAt_append pre (b :: behind) a
    have h1 : dataAt (s ++ behind) (pre.length + 1) = .ok b := by
      rw [hdata, dataAt_append_add]
      rfl
    simp only [if_pos hi, if_neg hlast, h0, h1, tableAt_index0, tableAt_index1, tableAt_high2,
      Outcome.ok_bind]
    rw [put_written _ (by omega), Outcome.ok_bind, put_written _ (by simp; omega), Outcome.ok_bind,
      put_written _ (by simp; omega), Outcome.ok_bind, put_written _ (by simp; omega), hq]
    simp [quanta]
  | _ :: _ :: _ :: _ => simp at htail; omega

/-! ## The whole encoding -/

theorem out_len_eq (s : Bytes) (hs : s.length ≤ maxSize) :
    sizeT (4 * (sizeT (s.length + 2) / 3)) = (quanta s).length := by
  unfold maxSize at hs
  have hin : sizeT (s.length + 2) = s.length + 2 := sizeT_of_lt (by omega)
  rw [hin, sizeT_of_lt (by omega), quanta_length]

/-- The cursor that the loop and the remainder end with. -/
theorem encodeCursor_eq (s behind : Bytes) (hs : s.length ≤ maxSize) (hs2 : 2 ≤ s.length) :
    ∃ i k, encodeLoop (s ++ behind) s.length ((s ++ behind).length + 1) 0
        ⟨List.replicate (quanta s).length 0, 0⟩ = .ok (i, k) ∧
      encodeTail (s ++ behind) s.length i k = .ok (written (quanta s).length (quanta s)) := by
  have hfuel : s.length < (s ++ behind).length + 1 := by
    rw [List.length_append]
    omega
  obtain ⟨mid, tail, hmid, htail, hdvd, hloop⟩ :=
    encodeLoop_eq s behind hs hs2 _ [] s rfl (by simp) hfuel
  have hstart : (⟨List.replicate (quanta s).length 0, 0⟩ : Cursor) =
      written (quanta s).length (quanta []) := by simp [written, quanta]
  simp only [List.nil_append, List.length_nil] at hloop hdvd
  rw [hstart]
  exact ⟨_, _, hloop, encodeTail_eq s behind mid tail hmid hdvd htail⟩

theorem encodeBuffer_eq (s behind : Bytes) (hs : s.length ≤ maxSize) (hs2 : 2 ≤ s.length) :
    encodeBuffer (s ++ behind) s.length =
      if (quanta s).length ≤ maxSize then .ok (quanta s) else .throws .length_error := by
  unfold encodeBuffer
  simp only [out_len_eq s hs, stringOf]
  split
  · obtain ⟨i, k, hloop, htail⟩ := encodeCursor_eq s behind hs hs2
    simp only [hloop, htail, Outcome.ok_bind, Outcome.pure_eq]
    rw [written_full rfl]
  · rw [Outcome.throws_bind]

/-- One byte: the loop bound wraps to `2^64 - 1`, and the first iteration reads behind the NUL. -/
theorem encodeBuffer_one (a : UInt8) : encodeBuffer [a, 0] 1 = .undefined := by
  have hbound : 0 < sizeSub 1 2 := by decide
  have hret : stringOf (sizeT (4 * (sizeT (1 + 2) / 3))) 0 = .ok [0, 0, 0, 0] := by decide
  have hcursor : (⟨[0, 0, 0, 0], 0⟩ : Cursor) = written 4 [] := by decide
  have hstep : encodeStep [a, 0] 0 (written 4 []) = .undefined := by
    have h0 : dataAt [a, 0] 0 = .ok a := rfl
    have h1 : dataAt [a, 0] (0 + 1) = .ok 0 := rfl
    have h2 : dataAt [a, 0] (0 + 2) = .undefined := rfl
    simp only [encodeStep, h0, h1, h2, tableAt_index0, tableAt_index1, Outcome.ok_bind]
    rw [put_written _ (by simp), Outcome.ok_bind, put_written _ (by simp), Outcome.ok_bind,
      Outcome.undefined_bind]
  unfold encodeBuffer encodeLoop
  simp only [hret, Outcome.ok_bind, if_pos hbound, hcursor, hstep, Outcome.undefined_bind]

/-- **`Base64::Encode(const std::string &)`**: the quanta of the string, unless the result would be
too long for a string, and no defined behaviour on a string of one byte. -/
theorem encode_eq (s : StdString) :
    encode s = if s.bytes.length = 1 then .undefined
      else if (quanta s.bytes).length ≤ maxSize then .ok (quanta s.bytes)
      else .throws .length_error := by
  obtain ⟨bytes, hsize⟩ := s
  simp only [encode]
  match bytes, hsize with
  | [], _ => rfl
  | [a], _ => exact encodeBuffer_one a
  | a :: b :: rest, hsize =>
    rw [if_neg (by simp), if_neg (by simp)]
    exact encodeBuffer_eq (a :: b :: rest) [0] hsize (by simp)

theorem encode_ok {s : StdString} {t : Bytes} (h : encode s = .ok t) :
    t = quanta s.bytes ∧ s.bytes.length ≠ 1 ∧ (quanta s.bytes).length ≤ maxSize := by
  rw [encode_eq] at h
  split at h
  · cases h
  · split at h
    · rename_i hne hle
      cases h
      exact ⟨rfl, hne, hle⟩
    · cases h

end Diginext.Base64
