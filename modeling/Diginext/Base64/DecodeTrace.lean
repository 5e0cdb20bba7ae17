import Diginext.Foundations.Logged
import Diginext.Base64.DecodeMeaning

/-! # What `Base64::Decode` goes through

The decoder again, with a log of what it does to the text, the table and the output, in the order of
the source. What a look-up in the table yields is a parameter, `lookup`: with the table itself the
decoder is `decode` (`decodeTraced_outcome`). `FillsExactly` says that the loop ends, takes every
character once and writes every position of the output once, and `fillsExactly` that it does so for
every text of whole quartets, wherever its `'='` stand and whatever the look-ups yield.
-/
namespace Diginext.Base64
open Outcomes Cpp
set_option autoImplicit false

inductive DecodeEvent where
  /-- `base64[i]` -/
  | read (base64 : Bytes) (i : ℕ)
  /-- `i++` -/
  | consume (i : ℕ)
  /-- `kDecodingTable[k]` -/
  | index (k : ℤ)
  /-- the sum of the four shifted values -/
  | sum (a b c d : UInt32)
  /-- `(*out)[j++] = ...` -/
  | write (j : ℕ)
  deriving DecidableEq

abbrev Decoding := Logged DecodeEvent Exception

def triple (a b c d : UInt32) : UInt32 :=
  (a <<< (3 * 6)) + (b <<< (2 * 6)) + (c <<< (1 * 6)) + (d <<< (0 * 6))

section Decoder
variable (lookup : ℕ → Int32 → Result UInt8) (base64 : Bytes)

/-- `base64[i] == '=' ? 0 & i++ : kDecodingTable[static_cast<int>(base64[i++])]` -/
def sextetTraced (i : ℕ) : Decoding (UInt32 × ℕ) := do
  let c ← .event (.read base64 i) (charAt base64 i)
  if c = pad then .event (.consume i) (.ok (0, i + 1))
  else do
    let c ← .event (.read base64 i) (charAt base64 i)
    let i' ← .event (.consume i) (.ok (i + 1))
    let value ← .event (.index (toInt c).toInt) (lookup i (toInt c))
    return (value.toUInt32, i')

def storeTraced (out_len : ℕ) (value : UInt32) (j : ℕ) (out : List (Option UInt8)) :
    Decoding (ℕ × List (Option UInt8)) :=
  if j < out_len then .event (.write j) (store out_len value j out) else pure (j, out)

def decodeStepTraced (out_len i j : ℕ) (out : List (Option UInt8)) :
    Decoding (ℕ × ℕ × List (Option UInt8)) := do
  let (a, i) ← sextetTraced lookup base64 i
  let (b, i) ← sextetTraced lookup base64 i
  let (c, i) ← sextetTraced lookup base64 i
  let (d, i) ← sextetTraced lookup base64 i
  let triple ← .event (.sum a b c d) (.ok (triple a b c d))
  let (j, out) ← storeTraced out_len (triple >>> (2 * 8)) j out
  let (j, out) ← storeTraced out_len (triple >>> (1 * 8)) j out
  let (j, out) ← storeTraced out_len (triple >>> (0 * 8)) j out
  return (i, j, out)

def decodeLoopTraced (in_len out_len : ℕ) :
    ℕ → ℕ → ℕ → List (Option UInt8) → Decoding (List (Option UInt8))
  | 0, _, _, _ => .lift .undefined
  | fuel + 1, i, j, out =>
    if i < in_len then do
      let (i, j, out) ← decodeStepTraced lookup base64 out_len i j out
      decodeLoopTraced in_len out_len fuel i j out
    else pure out

def decodeBufferTraced : Decoding (List (Option UInt8)) :=
  let in_len := base64.length
  if in_len % 4 ≠ 0 then
    .lift (.throws (.runtime_error "Input data size is not a multiple of 4"))
  else
    Logged.catchAll (do
      let last ← .event (.read base64 (sizeSub in_len 1)) (charAt base64 (sizeSub in_len 1))
      let out_len := if last = pad then sizeSub (in_len / 4 * 3) 1 else in_len / 4 * 3
      let beforeLast ← .event (.read base64 (sizeSub in_len 2)) (charAt base64 (sizeSub in_len 2))
      let out_len := if beforeLast = pad then sizeSub out_len 1 else out_len
      decodeLoopTraced lookup base64 in_len out_len (in_len + 1) 0 0 (List.replicate out_len none))
    fun _ => .lift (.throws (.runtime_error "decode error"))

def decodeTraced : Decoding Bytes :=
  if base64 = [] then pure []
  else do
    let out ← decodeBufferTraced lookup base64
    .lift (.ofOption (out.mapM id))

end Decoder

/-! ## Forgetting the log -/

/-- The look-ups of the source. -/
def inTable : ℕ → Int32 → Result UInt8 := fun _ index => decodingAt index

theorem charAt_defined (base64 : Bytes) (i : ℕ) :
    charAt base64 i = .undefined ∨ ∃ c, charAt base64 i = .ok c := by
  unfold charAt
  cases (base64 ++ [0])[i]? with
  | none => exact Or.inl rfl
  | some c => exact Or.inr ⟨c, rfl⟩

theorem sextetTraced_outcome (base64 : Bytes) (i : ℕ) :
    (sextetTraced inTable base64 i).outcome = sextetAt base64 i := by
  simp only [sextetTraced, sextetAt, Logged.outcome_bind, Logged.event_outcome]
  rcases charAt_defined base64 i with h | ⟨c, h⟩
  · simp only [h, Outcome.undefined_bind]
  · simp only [h, Outcome.ok_bind]
    split
    · rfl
    · simp only [Logged.outcome_bind, Logged.event_outcome, Outcome.ok_bind, inTable]
      rfl

@[simp] theorem storeTraced_outcome (out_len : ℕ) (value : UInt32) (j : ℕ)
    (out : List (Option UInt8)) :
    (storeTraced out_len value j out).outcome = store out_len value j out := by
  unfold storeTraced
  split
  · rfl
  · rename_i h
    rw [store, if_neg h]
    rfl

theorem decodeStepTraced_outcome (base64 : Bytes) (out_len i j : ℕ) (out : List (Option UInt8)) :
    (decodeStepTraced inTable base64 out_len i j out).outcome =
      decodeStep base64 out_len i j out := by
  simp only [decodeStepTraced, decodeStep, Logged.outcome_bind, sextetTraced_outcome,
    storeTraced_outcome, Logged.event_outcome, Outcome.ok_bind]
  rfl

theorem decodeLoopTraced_outcome (base64 : Bytes) (in_len out_len fuel : ℕ) :
    ∀ (i j : ℕ) (out : List (Option UInt8)),
      (decodeLoopTraced inTable base64 in_len out_len fuel i j out).outcome =
        decodeLoop base64 in_len out_len fuel i j out := by
  induction fuel with
  | zero => intro i j out; rfl
  | succ fuel ih =>
    intro i j out
    unfold decodeLoopTraced decodeLoop
    split
    · simp only [Logged.outcome_bind, decodeStepTraced_outcome, ih]
    · rfl

theorem decodeBufferTraced_outcome (base64 : Bytes) :
    (decodeBufferTraced inTable base64).outcome = decodeBuffer base64 := by
  unfold decodeBufferTraced decodeBuffer
  by_cases hmod : base64.length % 4 ≠ 0
  · simp only [if_pos hmod, Logged.lift_outcome]
  · simp only [if_neg hmod, Logged.outcome_catchAll, Logged.outcome_bind, Logged.event_outcome,
      decodeLoopTraced_outcome, Logged.lift_outcome]

theorem decodeTraced_outcome (base64 : Bytes) :
    (decodeTraced inTable base64).outcome = decode base64 := by
  unfold decodeTraced decode
  split
  · rfl
  · simp only [Logged.outcome_bind, decodeBufferTraced_outcome, Logged.lift_outcome]

/-! ## What a piece of the decoder goes through -/

def consumed (log : List DecodeEvent) : List ℕ :=
  log.filterMap fun event => match event with
    | .consume i => some i
    | _ => none

def writtenAt (log : List DecodeEvent) : List ℕ :=
  log.filterMap fun event => match event with
    | .write j => some j
    | _ => none

def indexed (log : List DecodeEvent) : List ℤ :=
  log.filterMap fun event => match event with
    | .index k => some k
    | _ => none

/-- The indexes for a text: one for each character that is no `'='`. -/
def indexes (text : Bytes) : List ℤ := (text.filter (· ≠ pad)).map fun c => (toInt c).toInt

/-- A piece that returns `a`, and on its way consumes, looks up and writes what the lists say, and reads
no text behind its end. -/
structure Performs {α : Type} (x : Decoding α) (a : α) (taken : List ℕ) (looked : List ℤ)
    (stored : List ℕ) : Prop where
  returns : x.outcome = .ok a
  takes : consumed x.log = taken
  looks : indexed x.log = looked
  stores : writtenAt x.log = stored
  reads : ∀ s i, .read s i ∈ x.log → i < s.length

theorem Performs.pure {α : Type} (a : α) : Performs (Pure.pure a) a [] [] [] :=
  ⟨rfl, rfl, rfl, rfl, by simp⟩

theorem Performs.of_eq {α : Type} {x : Decoding α} {a : α} {taken taken' : List ℕ}
    {looked looked' : List ℤ} {stored stored' : List ℕ} (h : Performs x a taken looked stored)
    (ht : taken = taken') (hl : looked = looked') (hs : stored = stored') :
    Performs x a taken' looked' stored' := by
  subst ht hl hs
  exact h

theorem Performs.bind {α β : Type} {x : Decoding α} {f : α → Decoding β} {a : α} {b : β}
    {taken taken' : List ℕ} {looked looked' : List ℤ} {stored stored' : List ℕ}
    (hx : Performs x a taken looked stored) (hf : Performs (f a) b taken' looked' stored') :
    Performs (x >>= f) b (taken ++ taken') (looked ++ looked') (stored ++ stored') where
  returns := by rw [Logged.outcome_bind, hx.returns, Outcome.ok_bind, hf.returns]
  takes := by
    rw [Logged.log_bind_of_ok hx.returns, consumed, List.filterMap_append]
    exact congrArg₂ _ hx.takes hf.takes
  looks := by
    rw [Logged.log_bind_of_ok hx.returns, indexed, List.filterMap_append]
    exact congrArg₂ _ hx.looks hf.looks
  stores := by
    rw [Logged.log_bind_of_ok hx.returns, writtenAt, List.filterMap_append]
    exact congrArg₂ _ hx.stores hf.stores
  reads := by
    intro s i h
    rw [Logged.log_bind_of_ok hx.returns, List.mem_append] at h
    exact h.elim (hx.reads s i) (hf.reads s i)

theorem Performs.catchAll {α : Type} {x : Decoding α} {a : α} {taken : List ℕ} {looked : List ℤ}
    {stored : List ℕ} (h : Performs x a taken looked stored) (handler : Exception → Decoding α) :
    Performs (x.catchAll handler) a taken looked stored := by
  have hx : x.catchAll handler = x := by simp only [Logged.catchAll, h.returns]
  rw [hx]
  exact h

section Pieces
variable (lookup : ℕ → Int32 → UInt8)

/-- Look-ups that all yield a value. -/
def total : ℕ → Int32 → Result UInt8 := fun i index => .ok (lookup i index)

/-- The value of the character `c` at the position `i`. -/
def valueAt (i : ℕ) (c : UInt8) : UInt32 := if c = pad then 0 else (lookup i (toInt c)).toUInt32

theorem sextetTraced_performs {base64 : Bytes} {i : ℕ} {c : UInt8} (hi : i < base64.length)
    (hc : charAt base64 i = .ok c) :
    Performs (sextetTraced (total lookup) base64 i) (valueAt lookup i c, i + 1) [i] (indexes [c])
      [] := by
  unfold sextetTraced
  have hread : Performs (.event (.read base64 i) (charAt base64 i)) c [] [] [] :=
    ⟨hc, rfl, rfl, rfl, by simpa using hi⟩
  by_cases hp : c = pad
  · have hlist : indexes [c] = [] := by simp [indexes, hp]
    have hvalue : valueAt lookup i c = 0 := if_pos hp
    rw [hlist, hvalue]
    refine hread.bind ?_
    rw [if_pos hp]
    exact ⟨rfl, rfl, rfl, rfl, by simp⟩
  · have hlist : indexes [c] = [(toInt c).toInt] := by simp [indexes, hp]
    have hvalue : valueAt lookup i c = (lookup i (toInt c)).toUInt32 := if_neg hp
    rw [hlist, hvalue]
    refine hread.bind ?_
    rw [if_neg hp]
    refine hread.bind ?_
    have hconsume : Performs (.event (.consume i) (.ok (i + 1))) (i + 1) [i] [] [] :=
      ⟨rfl, rfl, rfl, rfl, by simp⟩
    have hindex : Performs (.event (.index (toInt c).toInt) (total lookup i (toInt c)))
        (lookup i (toInt c)) [] [(toInt c).toInt] [] := ⟨rfl, rfl, rfl, rfl, by simp⟩
    exact hconsume.bind (hindex.bind (Performs.pure _))

theorem storeTraced_performs (out_len : ℕ) (v : UInt32) (done : Bytes) {n : ℕ}
    (hn : done.length = n) :
    Performs (storeTraced out_len v (min n out_len) (filled out_len done))
      (min (n + 1) out_len, filled out_len (done ++ [(v &&& 0xFF).toUInt8])) [] []
      (List.range' (min n out_len) (min (n + 1) out_len - min n out_len)) := by
  have hstore := store_filled out_len v done hn
  rw [← storeTraced_outcome] at hstore
  refine ⟨hstore, ?_, ?_, ?_, ?_⟩
  all_goals unfold storeTraced
  · split
    · rfl
    · rfl
  · split
    · rfl
    · rfl
  · split
    · have hone : min (n + 1) out_len - min n out_len = 1 := by omega
      rw [hone]
      rfl
    · have hnone : min (n + 1) out_len - min n out_len = 0 := by omega
      rw [hnone]
      rfl
  · split
    · simp
    · simp

/-- Positions up to `k` and then up to `m`. -/
theorem range_between {j k m : ℕ} (hjk : j ≤ k) (hkm : k ≤ m) :
    List.range' j (k - j) ++ List.range' k (m - k) = List.range' j (m - j) := by
  have happ := List.range'_append_1 (s := j) (m := k - j) (n := m - k)
  rwa [show j + (k - j) = k by omega, show k - j + (m - k) = m - j by omega] at happ

theorem indexes_append (l m : Bytes) : indexes (l ++ m) = indexes l ++ indexes m := by
  rw [indexes, List.filter_append, List.map_append, indexes, indexes]

theorem decodeStepTraced_performs (pre rest : Bytes) (a b c d : UInt8) (out_len : ℕ) (done : Bytes) :
    ∃ more : Bytes, more.length = 3 ∧
      Performs (decodeStepTraced (total lookup) (pre ++ a :: b :: c :: d :: rest) out_len pre.length
          (min done.length out_len) (filled out_len done))
        (pre.length + 4, min (done.length + 3) out_len, filled out_len (done ++ more))
        (List.range' pre.length 4) (indexes [a, b, c, d])
        (List.range' (min done.length out_len)
          (min (done.length + 3) out_len - min done.length out_len)) := by
  have h0 : charAt (pre ++ a :: b :: c :: d :: rest) pre.length = .ok a := charAt_append pre _ a
  have h1 : charAt (pre ++ a :: b :: c :: d :: rest) (pre.length + 1) = .ok b := by
    rw [charAt_append_add]; rfl
  have h2 : charAt (pre ++ a :: b :: c :: d :: rest) (pre.length + 1 + 1) = .ok c := by
    rw [Nat.add_assoc, charAt_append_add]; rfl
  have h3 : charAt (pre ++ a :: b :: c :: d :: rest) (pre.length + 1 + 1 + 1) = .ok d := by
    rw [Nat.add_assoc, Nat.add_assoc, charAt_append_add]; rfl
  let w := triple (valueAt lookup pre.length a) (valueAt lookup (pre.length + 1) b)
    (valueAt lookup (pre.length + 1 + 1) c) (valueAt lookup (pre.length + 1 + 1 + 1) d)
  let byte2 := ((w >>> (2 * 8)) &&& 0xFF).toUInt8
  let byte1 := ((w >>> (1 * 8)) &&& 0xFF).toUInt8
  let byte0 := ((w >>> (0 * 8)) &&& 0xFF).toUInt8
  have hsum : Performs (.event (.sum (valueAt lookup pre.length a)
      (valueAt lookup (pre.length + 1) b) (valueAt lookup (pre.length + 1 + 1) c)
      (valueAt lookup (pre.length + 1 + 1 + 1) d)) (.ok w)) w [] [] [] :=
    ⟨rfl, rfl, rfl, rfl, by simp⟩
  have hs2 := storeTraced_performs out_len (w >>> (2 * 8)) done rfl
  have hs1 := storeTraced_performs out_len (w >>> (1 * 8)) (done ++ [byte2])
    (n := done.length + 1) (by simp)
  have hs0 := storeTraced_performs out_len (w >>> (0 * 8)) (done ++ [byte2] ++ [byte1])
    (n := done.length + 1 + 1) (by simp)
  have hfilled : done ++ [byte2, byte1, byte0] = done ++ [byte2] ++ [byte1] ++ [byte0] := by simp
  refine ⟨[byte2, byte1, byte0], rfl, ?_⟩
  rw [hfilled]
  unfold decodeStepTraced
  have hsextet := @sextetTraced_performs lookup (pre ++ a :: b :: c :: d :: rest)
  refine Performs.of_eq ((hsextet (by simp) h0).bind ((hsextet (by simp) h1).bind
    ((hsextet (by simp; omega) h2).bind ((hsextet (by simp; omega) h3).bind
      (hsum.bind (hs2.bind (hs1.bind (hs0.bind (Performs.pure _))))))))) rfl ?_ ?_
  · simp only [List.append_nil, ← indexes_append]
    rfl
  · simp only [List.append_nil, List.nil_append]
    rw [range_between (by omega) (by omega), range_between (by omega) (by omega)]

/-- The loop takes what is left of the text. The induction is on the fuel; a quartet more is three
bytes more. -/
theorem decodeLoopTraced_performs (t : Bytes) (out_len fuel : ℕ) :
    ∀ pre rest done : Bytes, t = pre ++ rest → 4 ∣ rest.length → rest.length < fuel →
      ∃ more : Bytes, more.length = rest.length / 4 * 3 ∧
        Performs (decodeLoopTraced (total lookup) t t.length out_len fuel pre.length
            (min done.length out_len) (filled out_len done))
          (filled out_len (done ++ more)) (List.range' pre.length rest.length) (indexes rest)
          (List.range' (min done.length out_len)
            (min (done ++ more).length out_len - min done.length out_len)) := by
  induction fuel with
  | zero => intro pre rest done _ _ hf; omega
  | succ fuel ih =>
    intro pre rest done hsplit hdvd hfuel
    have hlen : t.length = pre.length + rest.length := by rw [hsplit, List.length_append]
    unfold decodeLoopTraced
    match rest with
    | [] =>
      have hend : ¬ pre.length < t.length := by simp at hlen; omega
      refine ⟨[], rfl, ?_⟩
      rw [if_neg hend, List.append_nil, Nat.sub_self]
      exact Performs.pure _
    | [_] => simp at hdvd
    | [_, _] => simp at hdvd
    | [_, _, _] => simp at hdvd
    | a :: b :: c :: d :: rest =>
      have hlt : pre.length < t.length := by simp at hlen; omega
      obtain ⟨three, hthree, hfirst⟩ :=
        decodeStepTraced_performs lookup pre rest a b c d out_len done
      obtain ⟨others, hothers, hrest⟩ := ih (pre ++ [a, b, c, d]) rest (done ++ three)
        (by simp [hsplit]) (by simp at hdvd; omega) (by simp at hfuel; omega)
      have hlen3 : (done ++ three).length = done.length + 3 := by rw [List.length_append, hthree]
      have hpre : (pre ++ [a, b, c, d]).length = pre.length + 4 := by simp
      rw [hlen3, hpre, List.append_assoc] at hrest
      rw [← hsplit] at hfirst
      refine ⟨three ++ others, ?_, ?_⟩
      · simp only [List.length_append, List.length_cons, hthree, hothers]
        omega
      · rw [if_pos hlt]
        refine (hfirst.bind hrest).of_eq ?_ ?_ ?_
        · have hrange := List.range'_append_1 (s := pre.length) (m := 4) (n := rest.length)
          rw [hrange, Nat.add_comm]
          rfl
        · rw [← indexes_append]
          rfl
        · rw [range_between (by omega) (by simp; omega)]

/-- The whole decoder, for a text of one quartet or more. -/
theorem decodeTraced_performs {base64 : Bytes} (hne : base64 ≠ []) (hdvd : 4 ∣ base64.length) :
    ∃ s : Bytes, s.length = outLength base64 ∧
      Performs (decodeTraced (total lookup) base64) s (List.range base64.length) (indexes base64)
        (List.range (outLength base64)) := by
  have hpos : 0 < base64.length := List.length_pos_iff.mpr hne
  have hmod : ¬ base64.length % 4 ≠ 0 := by omega
  have hread : ∀ i < base64.length,
      Performs (.event (.read base64 i) (charAt base64 i)) (base64.getD i 0) [] [] [] :=
    fun i hi => ⟨charAt_getD hi, rfl, rfl, rfl, by simpa using hi⟩
  have hsub1 : sizeSub base64.length 1 = base64.length - 1 := sizeSub_of_le (by omega)
  have hsub2 : sizeSub base64.length 2 = base64.length - 2 := sizeSub_of_le (by omega)
  have hout := announced_length base64 (by omega)
  have hle : outLength base64 ≤ base64.length / 4 * 3 := by
    unfold outLength
    omega
  obtain ⟨done, hdone, hloop⟩ := decodeLoopTraced_performs lookup base64 (outLength base64)
    (base64.length + 1) [] base64 [] rfl hdvd (by omega)
  have hempty : filled (outLength base64) [] = List.replicate (outLength base64) none := by
    simp [filled]
  have hall : min done.length (outLength base64) = outLength base64 := by omega
  simp only [List.length_nil, Nat.zero_min, List.nil_append, hempty, hall, Nat.sub_zero,
    filled_full (by omega : outLength base64 ≤ done.length), ← List.range_eq_range'] at hloop
  have hbuffer : Performs (decodeBufferTraced (total lookup) base64)
      ((done.take (outLength base64)).map some) (List.range base64.length) (indexes base64)
      (List.range (outLength base64)) := by
    unfold decodeBufferTraced
    simp only [if_neg hmod, hsub1, hsub2]
    have hannounced : ∀ out_len, out_len = outLength base64 →
        Performs (decodeLoopTraced (total lookup) base64 base64.length out_len (base64.length + 1) 0 0
            (List.replicate out_len none)) ((done.take (outLength base64)).map some)
          (List.range base64.length) (indexes base64) (List.range (outLength base64)) := by
      rintro out_len rfl
      exact hloop
    exact ((hread _ (by omega)).bind ((hread _ (by omega)).bind (hannounced _ hout))).catchAll _
  refine ⟨done.take (outLength base64), by rw [List.length_take, hdone]; omega, ?_⟩
  unfold decodeTraced
  rw [if_neg hne]
  have hstring : Performs (.lift (.ofOption (((done.take (outLength base64)).map some).mapM id)))
      (done.take (outLength base64)) [] [] [] :=
    ⟨by rw [mapM_some]; rfl, rfl, rfl, rfl, by simp⟩
  refine (hbuffer.bind hstring).of_eq ?_ ?_ ?_
  · exact List.append_nil _
  · exact List.append_nil _
  · exact List.append_nil _

/-! ## The sums -/

/-- Every sum of the run is one of values up to 64. -/
def SmallSums {α : Type} (x : Decoding α) : Prop :=
  ∀ a b c d, .sum a b c d ∈ x.log →
    a.toNat ≤ 64 ∧ b.toNat ≤ 64 ∧ c.toNat ≤ 64 ∧ d.toNat ≤ 64

theorem SmallSums.bind {α β : Type} {x : Decoding α} {f : α → Decoding β} (hx : SmallSums x)
    (hf : ∀ a, x.outcome = .ok a → SmallSums (f a)) : SmallSums (x >>= f) := by
  intro a b c d h
  rcases Logged.mem_log_bind h with h | ⟨r, hr, h⟩
  · exact hx a b c d h
  · exact hf r hr a b c d h

theorem smallSums_of_log {α : Type} {x : Decoding α} (h : ∀ a b c d, .sum a b c d ∉ x.log) :
    SmallSums x := fun a b c d hmem => absurd hmem (h a b c d)

theorem sextetTraced_smallSums (base64 : Bytes) (i : ℕ) :
    SmallSums (sextetTraced (total lookup) base64 i) := by
  refine SmallSums.bind (smallSums_of_log (by simp)) fun c _ => ?_
  split
  · exact smallSums_of_log (by simp)
  · refine SmallSums.bind (smallSums_of_log (by simp)) fun c _ => ?_
    refine SmallSums.bind (smallSums_of_log (by simp)) fun i' _ => ?_
    refine SmallSums.bind (smallSums_of_log (by simp)) fun value _ => ?_
    exact smallSums_of_log (by simp)

theorem storeTraced_smallSums (out_len : ℕ) (value : UInt32) (j : ℕ) (out : List (Option UInt8)) :
    SmallSums (storeTraced out_len value j out) := by
  unfold storeTraced
  split
  · exact smallSums_of_log (by simp)
  · exact smallSums_of_log (by simp)

theorem sextetTraced_value (hsmall : ∀ i index, (lookup i index).toNat ≤ 64) {base64 : Bytes} {i : ℕ}
    {r : UInt32 × ℕ} (h : (sextetTraced (total lookup) base64 i).outcome = .ok r) :
    r.1.toNat ≤ 64 := by
  rcases charAt_defined base64 i with hc | ⟨c, hc⟩
  · rw [sextetTraced, Logged.outcome_bind, Logged.event_outcome, hc] at h
    cases h
  · rw [sextetTraced, Logged.outcome_bind, Logged.event_outcome, hc, Outcome.ok_bind] at h
    split at h
    · cases h
      exact Nat.zero_le _
    · simp only [Logged.outcome_bind, Logged.event_outcome, Outcome.ok_bind, total] at h
      cases h
      exact hsmall _ _

theorem decodeStepTraced_smallSums (hsmall : ∀ i index, (lookup i index).toNat ≤ 64)
    (base64 : Bytes) (out_len i j : ℕ) (out : List (Option UInt8)) :
    SmallSums (decodeStepTraced (total lookup) base64 out_len i j out) := by
  have hsextet := sextetTraced_smallSums lookup base64
  have hvalue := @sextetTraced_value lookup hsmall base64
  refine (hsextet _).bind fun a ha => ?_
  refine (hsextet _).bind fun b hb => ?_
  refine (hsextet _).bind fun c hc => ?_
  refine (hsextet _).bind fun d hd => ?_
  refine SmallSums.bind ?_ fun w _ => ?_
  · intro a' b' c' d' h
    rw [Logged.event_log, List.mem_singleton] at h
    cases h
    exact ⟨hvalue ha, hvalue hb, hvalue hc, hvalue hd⟩
  refine (storeTraced_smallSums out_len _ _ _).bind fun first _ => ?_
  refine (storeTraced_smallSums out_len _ _ _).bind fun second _ => ?_
  refine (storeTraced_smallSums out_len _ _ _).bind fun third _ => ?_
  exact smallSums_of_log (by simp)

theorem decodeLoopTraced_smallSums (hsmall : ∀ i index, (lookup i index).toNat ≤ 64)
    (base64 : Bytes) (in_len out_len fuel : ℕ) : ∀ (i j : ℕ) (out : List (Option UInt8)),
      SmallSums (decodeLoopTraced (total lookup) base64 in_len out_len fuel i j out) := by
  induction fuel with
  | zero => intro i j out; exact smallSums_of_log (by simp [decodeLoopTraced])
  | succ fuel ih =>
    intro i j out
    unfold decodeLoopTraced
    split
    · exact (decodeStepTraced_smallSums lookup hsmall base64 out_len i j out).bind
        fun r _ => ih r.1 r.2.1 r.2.2
    · exact smallSums_of_log (by simp)

theorem decodeTraced_smallSums (hsmall : ∀ i index, (lookup i index).toNat ≤ 64) (base64 : Bytes) :
    SmallSums (decodeTraced (total lookup) base64) := by
  unfold decodeTraced
  split
  · exact smallSums_of_log (by simp)
  · refine SmallSums.bind ?_ fun out _ => smallSums_of_log (by simp)
    unfold decodeBufferTraced
    by_cases hmod : base64.length % 4 ≠ 0
    · simp only [if_pos hmod]
      exact smallSums_of_log (by simp)
    · simp only [if_neg hmod]
      unfold SmallSums
      rw [Logged.log_catchAll fun e => rfl]
      refine SmallSums.bind (smallSums_of_log (by simp)) fun last _ => ?_
      refine SmallSums.bind (smallSums_of_log (by simp)) fun beforeLast _ => ?_
      exact decodeLoopTraced_smallSums lookup hsmall base64 _ _ _ _ _ _

/-- Values up to 64 do not make the sum of a quartet wrap. -/
theorem triple_exact {a b c d : UInt32} (ha : a.toNat ≤ 64) (hb : b.toNat ≤ 64) (hc : c.toNat ≤ 64)
    (hd : d.toNat ≤ 64) :
    2 ^ 18 * a.toNat + 2 ^ 12 * b.toNat + 2 ^ 6 * c.toNat + d.toNat ≤ 2 ^ 32 - 1 ∧
      (triple a b c d).toNat =
        2 ^ 18 * a.toNat + 2 ^ 12 * b.toNat + 2 ^ 6 * c.toNat + d.toNat := by
  refine ⟨by omega, ?_⟩
  have hsum := triple_toNat ha hb hc hd
  simp only [UInt32.ofNat_toNat] at hsum
  exact hsum

end Pieces

/-! ## The whole decoder -/

/-- The loop ends with every byte of the output set, it has taken each character once and written each
position of the output once, and no sum of it has wrapped while the look-ups yield 64 at most. -/
structure FillsExactly (lookup : ℕ → Int32 → UInt8) (base64 : Bytes) : Prop where
  returns : ∃ s, (decodeTraced (total lookup) base64).outcome = .ok s ∧
    s.length = outLength base64
  takes : consumed (decodeTraced (total lookup) base64).log = List.range base64.length
  writes : writtenAt (decodeTraced (total lookup) base64).log = List.range (outLength base64)
  sums : (∀ i index, (lookup i index).toNat ≤ 64) → ∀ a b c d,
    .sum a b c d ∈ (decodeTraced (total lookup) base64).log →
      2 ^ 18 * a.toNat + 2 ^ 12 * b.toNat + 2 ^ 6 * c.toNat + d.toNat ≤ 2 ^ 32 - 1 ∧
        (triple a b c d).toNat =
          2 ^ 18 * a.toNat + 2 ^ 12 * b.toNat + 2 ^ 6 * c.toNat + d.toNat

/-- **The decoding loop fills its output**, for every text of whole quartets and whatever the table
look-ups yield. -/
theorem fillsExactly (lookup : ℕ → Int32 → UInt8) (base64 : Bytes) (hpos : 0 < base64.length)
    (hdvd : 4 ∣ base64.length) : FillsExactly lookup base64 := by
  obtain ⟨s, hlen, hrun⟩ :=
    decodeTraced_performs lookup (List.length_pos_iff.mp hpos) hdvd
  constructor
  · exact ⟨s, hrun.returns, hlen⟩
  · exact hrun.takes
  · exact hrun.stores
  · intro hsmall a b c d hmem
    obtain ⟨ha, hb, hc, hd⟩ := decodeTraced_smallSums lookup hsmall base64 a b c d hmem
    exact triple_exact ha hb hc hd

/-- A text whose `'='` stand anywhere, and look-ups that depend on the position. -/
theorem fillsExactly_scattered : 0 < (ascii "=a=b====").length ∧ 4 ∣ (ascii "=a=b====").length ∧
    FillsExactly (fun i _ => UInt8.ofNat i) (ascii "=a=b====") :=
  ⟨by decide, by decide, fillsExactly _ (ascii "=a=b====") (by decide) (by decide)⟩

end Diginext.Base64
