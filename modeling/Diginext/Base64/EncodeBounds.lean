import Diginext.Foundations.Logged
import Diginext.Base64.EncodeMeaning

/-! # The accesses of `Base64::Encode`

The encoder again, with a log of every read of `data` and every write through `p`, in the order of the
source. Forgetting the log gives `encodeBuffer` (`encodeBufferTraced_outcome`). `Advances` is what one
piece of the encoder does to the buffers: its reads stay below a bound, and it writes each position
from the cursor it starts with to the cursor it ends with, once and in order.
-/
namespace Diginext.Base64
open Outcomes Cpp
set_option autoImplicit false

inductive Access where
  | read (i : ℕ)
  | write (p : ℕ)
  deriving DecidableEq, Repr

abbrev Traced := Logged Access Exception

def readAt (data : Bytes) (i : ℕ) : Traced UInt8 := .event (.read i) (dataAt data i)

/-- `*p++ = sEncodingTable[index]` -/
def putAt (k : Cursor) (index : Int32) : Traced Cursor := do
  let c ← .lift (tableAt index)
  .event (.write k.p) (k.put c)

def padAt (k : Cursor) : Traced Cursor := .event (.write k.p) (k.put pad)

def encodeStepTraced (data : Bytes) (i : ℕ) (k : Cursor) : Traced Cursor := do
  let k ← putAt k (index0 (← readAt data i))
  let k ← putAt k (high1 (← readAt data i) ||| low1 (← readAt data (i + 1)))
  let k ← putAt k (high2 (← readAt data (i + 1)) ||| low2 (← readAt data (i + 2)))
  putAt k (index3 (← readAt data (i + 2)))

def encodeLoopTraced (data : Bytes) (in_len : ℕ) : ℕ → ℕ → Cursor → Traced (ℕ × Cursor)
  | 0, _, _ => .lift .undefined
  | fuel + 1, i, k =>
    if i < sizeSub in_len 2 then do
      let k ← encodeStepTraced data i k
      encodeLoopTraced data in_len fuel (sizeT (i + 3)) k
    else pure (i, k)

def encodeTailTraced (data : Bytes) (in_len i : ℕ) (k : Cursor) : Traced Cursor :=
  if i < in_len then do
    let k ← putAt k (index0 (← readAt data i))
    let k ← if i = sizeSub in_len 1 then do
        let k ← putAt k (high1 (← readAt data i))
        padAt k
      else do
        let k ← putAt k (high1 (← readAt data i) ||| low1 (← readAt data (i + 1)))
        putAt k (high2 (← readAt data (i + 1)))
    padAt k
  else pure k

def encodeBufferTraced (data : Bytes) (dataLength : ℕ) : Traced Bytes := do
  let in_len := dataLength
  let out_len := sizeT (4 * (sizeT (in_len + 2) / 3))
  let ret ← .lift (stringOf out_len 0)
  let (i, k) ← encodeLoopTraced data in_len (data.length + 1) 0 ⟨ret, 0⟩
  let k ← encodeTailTraced data in_len i k
  return k.ret

/-! ## Forgetting the log

`encodeStep` and `encodeTail` read each byte of `data` once where the source reads it for each
expression; the second read has the value of the first.
-/

@[simp] theorem readAt_outcome (data : Bytes) (i : ℕ) : (readAt data i).outcome = dataAt data i := rfl

@[simp] theorem putAt_outcome (k : Cursor) (index : Int32) :
    (putAt k index).outcome = tableAt index >>= k.put := by
  rw [putAt, Logged.outcome_bind]
  rfl

@[simp] theorem padAt_outcome (k : Cursor) : (padAt k).outcome = k.put pad := rfl

theorem dataAt_defined (data : Bytes) (i : ℕ) :
    dataAt data i = .undefined ∨ ∃ c, dataAt data i = .ok c := by
  unfold dataAt
  cases data[i]? with
  | none => exact Or.inl rfl
  | some c => exact Or.inr ⟨c, rfl⟩

theorem encodeStepTraced_outcome (data : Bytes) (i : ℕ) (k : Cursor) :
    (encodeStepTraced data i k).outcome = encodeStep data i k := by
  simp only [encodeStepTraced, encodeStep, Logged.outcome_bind, readAt_outcome, putAt_outcome]
  rcases dataAt_defined data i with h0 | ⟨a, h0⟩
  · simp only [h0, Outcome.undefined_bind]
  rcases dataAt_defined data (i + 1) with h1 | ⟨b, h1⟩
  · simp only [h0, h1, tableAt_index0, Outcome.ok_bind, Outcome.undefined_bind]
  rcases dataAt_defined data (i + 2) with h2 | ⟨c, h2⟩
  · simp only [h0, h1, h2, tableAt_index0, tableAt_index1, Outcome.ok_bind, Outcome.undefined_bind]
  · simp only [h0, h1, h2, tableAt_index0, tableAt_index1, tableAt_index2, tableAt_index3,
      Outcome.ok_bind]

theorem encodeLoopTraced_outcome (data : Bytes) (in_len fuel : ℕ) :
    ∀ (i : ℕ) (k : Cursor),
      (encodeLoopTraced data in_len fuel i k).outcome = encodeLoop data in_len fuel i k := by
  induction fuel with
  | zero => intro i k; rfl
  | succ fuel ih =>
    intro i k
    unfold encodeLoopTraced encodeLoop
    split
    · simp only [Logged.outcome_bind, encodeStepTraced_outcome, ih]
    · rfl

theorem encodeTailTraced_outcome (data : Bytes) (in_len i : ℕ) (k : Cursor) :
    (encodeTailTraced data in_len i k).outcome = encodeTail data in_len i k := by
  unfold encodeTailTraced encodeTail
  by_cases hi : i < in_len
  · rcases dataAt_defined data i with h0 | ⟨a, h0⟩
    · simp only [if_pos hi, Logged.outcome_bind, readAt_outcome, h0, Outcome.undefined_bind]
    by_cases hlast : i = sizeSub in_len 1
    · simp only [if_pos hi, if_pos hlast, Logged.outcome_bind, readAt_outcome, putAt_outcome,
        padAt_outcome, h0, tableAt_index0, tableAt_high1, Outcome.ok_bind]
    · rcases dataAt_defined data (i + 1) with h1 | ⟨b, h1⟩
      · simp only [if_pos hi, if_neg hlast, Logged.outcome_bind, readAt_outcome, putAt_outcome,
          padAt_outcome, h0, h1, tableAt_index0, Outcome.ok_bind, Outcome.undefined_bind]
      · simp only [if_pos hi, if_neg hlast, Logged.outcome_bind, readAt_outcome, putAt_outcome,
          padAt_outcome, h0, h1, tableAt_index0, tableAt_index1, tableAt_high2, Outcome.ok_bind]
  · simp only [if_neg hi]
    rfl

theorem encodeBufferTraced_outcome (data : Bytes) (dataLength : ℕ) :
    (encodeBufferTraced data dataLength).outcome = encodeBuffer data dataLength := by
  simp only [encodeBufferTraced, encodeBuffer, Logged.outcome_bind, Logged.lift_outcome,
    encodeLoopTraced_outcome, encodeTailTraced_outcome, Logged.pure_outcome, Outcome.pure_eq]

/-! ## What a piece of the encoder does to the buffers -/

def positions (log : List Access) : List ℕ :=
  log.filterMap fun access => match access with
    | .read _ => none
    | .write p => some p

@[simp] theorem positions_append (l m : List Access) :
    positions (l ++ m) = positions l ++ positions m := List.filterMap_append

/-- A computation that starts with the cursor `k`, and whose value `a` has the cursor `cursor a`. -/
structure Advances {α : Type} (bound : ℕ) (k : Cursor) (cursor : α → Cursor) (x : Traced α) :
    Prop where
  reads : ∀ i, .read i ∈ x.log → i < bound
  forward : ∀ a, x.outcome = .ok a → k.p ≤ (cursor a).p
  writes : ∀ a, x.outcome = .ok a → positions x.log = List.range' k.p ((cursor a).p - k.p)

section Rules
variable {α β : Type} {bound : ℕ} {k : Cursor}

theorem Advances.bind {cursor : α → Cursor} {cursor' : β → Cursor} {x : Traced α}
    {f : α → Traced β} (hx : Advances bound k cursor x)
    (hf : ∀ a, x.outcome = .ok a → Advances bound (cursor a) cursor' (f a)) :
    Advances bound k cursor' (x >>= f) where
  reads := by
    intro i hi
    rcases Logged.mem_log_bind hi with hi | ⟨a, ha, hi⟩
    · exact hx.reads i hi
    · exact (hf a ha).reads i hi
  forward := by
    intro b hb
    rw [Logged.outcome_bind] at hb
    obtain ⟨a, ha, hb⟩ := Outcome.bind_eq_ok.mp hb
    exact Nat.le_trans (hx.forward a ha) ((hf a ha).forward b hb)
  writes := by
    intro b hb
    rw [Logged.outcome_bind] at hb
    obtain ⟨a, ha, hb⟩ := Outcome.bind_eq_ok.mp hb
    have hfirst := hx.forward a ha
    have hsecond := (hf a ha).forward b hb
    rw [Logged.log_bind_of_ok ha, positions_append, hx.writes a ha, (hf a ha).writes b hb]
    have happ := List.range'_append_1 (s := k.p) (m := (cursor a).p - k.p)
      (n := (cursor' b).p - (cursor a).p)
    rw [show k.p + ((cursor a).p - k.p) = (cursor a).p by omega,
      show (cursor a).p - k.p + ((cursor' b).p - (cursor a).p) = (cursor' b).p - k.p by omega] at happ
    exact happ

/-- A piece without an access of the result leaves the cursor where it is. -/
theorem Advances.lift (r : Result α) : Advances bound k (fun _ => k) (.lift r) where
  reads := by
    intro i hi
    cases hi
  forward _ _ := Nat.le_refl _
  writes := by
    intro a _
    rw [Nat.sub_self]
    rfl

theorem Advances.pure (a : α) (cursor : α → Cursor) :
    Advances bound (cursor a) cursor (Pure.pure a) where
  reads := by
    intro i hi
    cases hi
  forward := by
    rintro b ⟨⟩
    exact Nat.le_refl _
  writes := by
    rintro b ⟨⟩
    rw [Nat.sub_self]
    rfl

theorem advances_readAt (data : Bytes) {i : ℕ} (h : i < bound) :
    Advances bound k (fun _ => k) (readAt data i) where
  reads := by
    intro j hj
    rw [readAt, Logged.event_log, List.mem_singleton] at hj
    cases hj
    exact h
  forward _ _ := Nat.le_refl _
  writes := by
    intro a _
    rw [Nat.sub_self]
    rfl

theorem put_ok {c : UInt8} {k' : Cursor} (h : k.put c = .ok k') :
    k'.p = k.p + 1 ∧ k'.ret.length = k.ret.length ∧ k.p < k.ret.length := by
  unfold Cursor.put at h
  split at h
  · rename_i hlt
    cases h
    exact ⟨rfl, List.length_set, hlt⟩
  · cases h

theorem advances_write (k : Cursor) (c : UInt8) :
    Advances bound k id (.event (.write k.p) (k.put c)) where
  reads := by
    intro i hi
    rw [Logged.event_log, List.mem_singleton] at hi
    cases hi
  forward := by
    intro k' h
    obtain ⟨hp, -⟩ := put_ok h
    exact hp ▸ Nat.le_succ _
  writes := by
    intro k' h
    obtain ⟨hp, -⟩ := put_ok h
    rw [id, hp, Nat.add_sub_cancel_left]
    rfl

theorem advances_putAt (k : Cursor) (index : Int32) : Advances bound k id (putAt k index) :=
  (Advances.lift _).bind fun _ _ => advances_write k _

theorem advances_padAt (k : Cursor) : Advances bound k id (padAt k) := advances_write k pad

end Rules

theorem advances_encodeStep (data : Bytes) {bound i : ℕ} (hi : i + 2 < bound) (k : Cursor) :
    Advances bound k id (encodeStepTraced data i k) := by
  have h0 : i < bound := by omega
  have h1 : i + 1 < bound := by omega
  refine (advances_readAt data h0).bind fun a _ => ?_
  refine (advances_putAt k _).bind fun k _ => ?_
  refine (advances_readAt data h0).bind fun a _ => ?_
  refine (advances_readAt data h1).bind fun b _ => ?_
  refine (advances_putAt _ _).bind fun k _ => ?_
  refine (advances_readAt data h1).bind fun b _ => ?_
  refine (advances_readAt data hi).bind fun c _ => ?_
  refine (advances_putAt _ _).bind fun k _ => ?_
  exact (advances_readAt data hi).bind fun c _ => advances_putAt _ _

/-- From a length of two on the bound of the loop does not wrap, and an iteration has three bytes to
read. The induction is on the fuel. -/
theorem advances_encodeLoop (data : Bytes) {in_len : ℕ} (hlen : 2 ≤ in_len) (fuel : ℕ) :
    ∀ (i : ℕ) (k : Cursor),
      Advances in_len k Prod.snd (encodeLoopTraced data in_len fuel i k) := by
  have hsub : sizeSub in_len 2 = in_len - 2 := sizeSub_of_le hlen
  induction fuel with
  | zero =>
    intro i k
    exact ⟨fun _ h => (List.not_mem_nil h).elim, fun _ => nofun, fun _ => nofun⟩
  | succ fuel ih =>
    intro i k
    unfold encodeLoopTraced
    rw [hsub]
    split
    · exact (advances_encodeStep data (by omega) k).bind fun k _ => ih _ _
    · exact Advances.pure (i, k) Prod.snd

theorem advances_encodeTail (data : Bytes) {in_len : ℕ} (hlen : 2 ≤ in_len) (i : ℕ) (k : Cursor) :
    Advances in_len k id (encodeTailTraced data in_len i k) := by
  have hsub : sizeSub in_len 1 = in_len - 1 := sizeSub_of_le (by omega)
  unfold encodeTailTraced
  rw [hsub]
  split
  · rename_i hi
    refine (advances_readAt data hi).bind fun a _ => ?_
    refine (advances_putAt k _).bind fun k _ => ?_
    dsimp only
    split
    · refine (advances_readAt data hi).bind fun a _ => ?_
      refine (advances_putAt _ _).bind fun k _ => ?_
      exact (advances_padAt k).bind fun k _ => advances_padAt k
    · have hi1 : i + 1 < in_len := by omega
      refine (advances_readAt data hi).bind fun a _ => ?_
      refine (advances_readAt data hi1).bind fun b _ => ?_
      refine (advances_putAt _ _).bind fun k _ => ?_
      refine (advances_readAt data hi1).bind fun b _ => ?_
      exact (advances_putAt _ _).bind fun k _ => advances_padAt k
  · exact Advances.pure k id

/-! ## For which lengths the encoder returns -/

theorem encodeStep_ok {data : Bytes} {i : ℕ} {k k' : Cursor} (h : encodeStep data i k = .ok k') :
    k'.p = k.p + 4 ∧ k'.ret.length = k.ret.length ∧ k'.p ≤ k.ret.length := by
  obtain ⟨a, -, h⟩ := Outcome.bind_eq_ok.mp h
  obtain ⟨c0, -, h⟩ := Outcome.bind_eq_ok.mp h
  obtain ⟨k0, h0, h⟩ := Outcome.bind_eq_ok.mp h
  obtain ⟨b, -, h⟩ := Outcome.bind_eq_ok.mp h
  obtain ⟨c1, -, h⟩ := Outcome.bind_eq_ok.mp h
  obtain ⟨k1, h1, h⟩ := Outcome.bind_eq_ok.mp h
  obtain ⟨c, -, h⟩ := Outcome.bind_eq_ok.mp h
  obtain ⟨c2, -, h⟩ := Outcome.bind_eq_ok.mp h
  obtain ⟨k2, h2, h⟩ := Outcome.bind_eq_ok.mp h
  obtain ⟨c3, -, h3⟩ := Outcome.bind_eq_ok.mp h
  obtain ⟨hp0, hl0, -⟩ := put_ok h0
  obtain ⟨hp1, hl1, -⟩ := put_ok h1
  obtain ⟨hp2, hl2, -⟩ := put_ok h2
  obtain ⟨hp3, hl3, hroom⟩ := put_ok h3
  omega

/-- A loop that ends has reached its bound, and has written four characters for three bytes. No
index wraps on the way, since `2 ^ 64 - 1` is a multiple of three. -/
theorem encodeLoop_ok {data : Bytes} {in_len : ℕ} (fuel : ℕ) :
    ∀ {i i' : ℕ} {k k' : Cursor}, in_len < 2 ^ 64 → i < 2 ^ 64 → 3 * k.p = 4 * i →
      k.p ≤ k.ret.length → encodeLoop data in_len fuel i k = .ok (i', k') →
      sizeSub in_len 2 ≤ i' ∧ 3 * k'.p = 4 * i' ∧ k'.p ≤ k.ret.length := by
  induction fuel with
  | zero =>
    intro i i' k k' _ _ _ _ h
    cases h
  | succ fuel ih =>
    intro i i' k k' hlen hi hp hroom h
    unfold encodeLoop at h
    split at h
    · rename_i hlt
      have hbound : sizeSub in_len 2 < 2 ^ 64 := by
        unfold sizeSub
        split <;> omega
      obtain ⟨k1, hstep, h⟩ := Outcome.bind_eq_ok.mp h
      obtain ⟨hp1, hl1, hroom1⟩ := encodeStep_ok hstep
      have hnext : sizeT (i + 3) = i + 3 := sizeT_of_lt (by omega)
      rw [hnext] at h
      obtain ⟨hend, hcount, hle⟩ := ih hlen (by omega) (by omega) (by omega) h
      exact ⟨hend, hcount, hl1 ▸ hle⟩
    · rename_i hge
      cases h
      exact ⟨by omega, hp, hroom⟩

/-- The encoder completes from two bytes on, as long as the result fits into a string. -/
theorem encodeBuffer_returns {data : Bytes} {dataLength : ℕ} (hsize : dataLength < 2 ^ 64) {ret : Bytes}
    (h : encodeBuffer data dataLength = .ok ret) :
    2 ≤ dataLength ∧ 4 * ((dataLength + 2) / 3) ≤ maxSize := by
  obtain ⟨buffer, hbuffer, h⟩ := Outcome.bind_eq_ok.mp h
  obtain ⟨⟨i, k⟩, hloop, -⟩ := Outcome.bind_eq_ok.mp h
  unfold stringOf at hbuffer
  split at hbuffer
  · rename_i hle
    cases hbuffer
    obtain ⟨hend, hcount, hroom⟩ :=
      encodeLoop_ok _ hsize (by omega) rfl (Nat.zero_le _) hloop
    rw [List.length_replicate] at hroom
    unfold sizeT at hroom hle
    unfold sizeSub at hend
    unfold maxSize at hle ⊢
    split at hend <;> omega
  · cases hbuffer

/-! ## The accesses of the whole encoder -/

/-- A call that keeps inside its buffers: it returns a result of `4 * ((dataLength + 2) / 3)`
characters, reads `data` below `dataLength` only, and writes each position of the result once. -/
structure StaysInside (data : Bytes) (dataLength : ℕ) : Prop where
  returns : ∃ ret, (encodeBufferTraced data dataLength).outcome = .ok ret ∧
    ret.length = 4 * ((dataLength + 2) / 3)
  reads : ∀ i, .read i ∈ (encodeBufferTraced data dataLength).log → i < dataLength
  writes : positions (encodeBufferTraced data dataLength).log =
    List.range (4 * ((dataLength + 2) / 3))

theorem staysInside_of_fits {data : Bytes} {dataLength : ℕ} (hdata : dataLength ≤ data.length)
    (hlen : 2 ≤ dataLength) (hfits : 4 * ((dataLength + 2) / 3) ≤ maxSize) :
    StaysInside data dataLength := by
  obtain ⟨s, behind, rfl, rfl⟩ : ∃ s behind, data = s ++ behind ∧ dataLength = s.length :=
    ⟨data.take dataLength, data.drop dataLength, (List.take_append_drop _ _).symm,
      (List.length_take_of_le hdata).symm⟩
  have hs : s.length ≤ maxSize := by
    unfold maxSize at hfits ⊢
    omega
  have hout := out_len_eq s hs
  have hquanta := quanta_length s
  have hret : stringOf (quanta s).length 0 = .ok (List.replicate (quanta s).length 0) :=
    if_pos (hquanta ▸ hfits)
  obtain ⟨i, k, hloop, htail⟩ := encodeCursor_eq s behind hs hlen
  rw [← encodeLoopTraced_outcome] at hloop
  rw [← encodeTailTraced_outcome] at htail
  -- The log of the call is that of the loop and then that of the remainder.
  have hlog : (encodeBufferTraced (s ++ behind) s.length).log =
      (encodeLoopTraced (s ++ behind) s.length ((s ++ behind).length + 1) 0
        ⟨List.replicate (quanta s).length 0, 0⟩).log ++
        (encodeTailTraced (s ++ behind) s.length i k).log := by
    have hstring : (Logged.lift (stringOf (sizeT (4 * (sizeT (s.length + 2) / 3))) 0) :
        Traced Bytes).outcome = .ok (List.replicate (quanta s).length 0) := by
      rw [Logged.lift_outcome, hout, hret]
    rw [encodeBufferTraced, Logged.log_bind_of_ok hstring, Logged.log_bind_of_ok hloop,
      Logged.log_bind_of_ok htail, Logged.lift_log, Logged.pure_log, List.nil_append,
      List.append_nil]
  have hpieces : Advances s.length ⟨List.replicate (quanta s).length 0, 0⟩ id
      (encodeLoopTraced (s ++ behind) s.length ((s ++ behind).length + 1) 0
        ⟨List.replicate (quanta s).length 0, 0⟩ >>= fun p =>
          encodeTailTraced (s ++ behind) s.length p.1 p.2) :=
    (advances_encodeLoop _ hlen _ _ _).bind fun p _ => advances_encodeTail _ hlen p.1 p.2
  rw [← Logged.log_bind_of_ok hloop fun p => encodeTailTraced (s ++ behind) s.length p.1 p.2] at hlog
  constructor
  · refine ⟨quanta s, ?_, hquanta⟩
    rw [encodeBufferTraced_outcome, encodeBuffer_eq s behind hs hlen, if_pos (hquanta ▸ hfits)]
  · rw [hlog]
    exact hpieces.reads
  · have hend := hpieces.writes (written (quanta s).length (quanta s))
      (by rw [Logged.outcome_bind, hloop, Outcome.ok_bind, htail])
    rw [hlog, hend, ← hquanta, List.range_eq_range']
    rfl

/-- **The accesses of `Base64::Encode`.** A call keeps inside its buffers from two bytes on, if the
result fits into a string, and for no other length. -/
theorem staysInside_iff (data : Bytes) (dataLength : ℕ) (hsize : dataLength < 2 ^ 64)
    (hdata : dataLength ≤ data.length) :
    StaysInside data dataLength ↔ 2 ≤ dataLength ∧ 4 * ((dataLength + 2) / 3) ≤ maxSize := by
  constructor
  · intro h
    obtain ⟨ret, hret, -⟩ := h.returns
    rw [encodeBufferTraced_outcome] at hret
    exact encodeBuffer_returns hsize hret
  · rintro ⟨hlen, hfits⟩
    exact staysInside_of_fits hdata hlen hfits

theorem staysInside_hello : 5 < 2 ^ 64 ∧ StaysInside (ascii "HELLO") 5 :=
  ⟨by decide, (staysInside_iff (ascii "HELLO") 5 (by decide) (by decide)).mpr (by decide)⟩

/-- The string `"A"` and its NUL: `in_len - 2` wraps, and the first iteration reads the byte behind
the NUL. -/
theorem reads_behind_one_byte :
    ¬ ∀ (data : Bytes) (dataLength : ℕ), dataLength < 2 ^ 64 → dataLength ≤ data.length →
      StaysInside data dataLength := by
  intro h
  have hread : Access.read 2 ∈ (encodeBufferTraced (ascii "A" ++ [0]) 1).log := by decide +kernel
  have hin := (h (ascii "A" ++ [0]) 1 (by decide) (by decide)).reads 2 hread
  omega

end Diginext.Base64
