import Diginext.Base64.RoundTrip
import Diginext.Tcp.Receive

/-! # Which lines `Base64::Decode` accepts

`WellFormed` is the grammar of base64 text. The decoder looks neither for the table's sentinel 64 nor
for the place of a `'='`: the only check it makes is that of the length, and nothing else in it throws
(`decode_neverThrows`). `decodeElementLogged` is one round of the loop of `decode_message` with what
it writes to the log.
-/
namespace Diginext.Base64
open Outcomes Cpp
set_option autoImplicit false

/-- At most two `'='` at the end, and characters of the alphabet before them. -/
def WellFormed (t : Bytes) : Prop :=
  4 ∣ t.length ∧ ∃ n < 3, (∀ c ∈ t.take (t.length - n), c ∈ sEncodingTable) ∧
    t.drop (t.length - n) = List.replicate n pad

instance (t : Bytes) : Decidable (WellFormed t) := inferInstanceAs (Decidable (_ ∧ _))

def decodeErrorText : Bytes := ascii "tcp_connection::decode_message | decode error : "

/-- `Tcp.decodeElement` with the lines of `logger->LogError`. -/
def decodeElementLogged (decode : Bytes → Result Bytes) (element_pos : Bytes) (messages : List Bytes)
    (msg : Bytes) : Result (List Bytes × List Bytes) :=
  if msg = [] then .ok (messages, [])
  else Outcome.catchAll (do return (messages ++ [← decode msg], []))
    fun _ => .ok (messages, [decodeErrorText ++ msg ++ element_pos])

theorem decodeElementLogged_messages (decode : Bytes → Result Bytes) (element_pos : Bytes)
    (messages : List Bytes) (msg : Bytes) :
    (decodeElementLogged decode element_pos messages msg >>= fun r => .ok r.1) =
      Tcp.decodeElement decode messages msg := by
  unfold decodeElementLogged Tcp.decodeElement
  split
  · rfl
  · cases decode msg with
    | ok s => rfl
    | throws e => rfl
    | undefined => rfl

/-! ## What the decoder returns on -/

theorem exists_digit {c : UInt8} (h : c ∈ sEncodingTable) : ∃ n < 64, c = digit n := by
  obtain ⟨n, hn, rfl⟩ := List.mem_iff_getElem.mp h
  refine ⟨n, hn, ?_⟩
  rw [digit, List.getD_eq_getElem?_getD, List.getElem?_eq_getElem hn, Option.getD_some]

theorem alphabet_low {c : UInt8} (h : c ∈ sEncodingTable) : c.toNat < 128 := by
  obtain ⟨n, hn, rfl⟩ := exists_digit h
  exact digit_low n hn

theorem WellFormed.low {t : Bytes} (h : WellFormed t) : ∀ c ∈ t, c.toNat < 128 := by
  obtain ⟨-, n, -, hbody, hpad⟩ := h
  intro c hc
  rw [← List.take_append_drop (t.length - n) t, List.mem_append] at hc
  rcases hc with hc | hc
  · exact alphabet_low (hbody c hc)
  · rw [hpad] at hc
    rw [List.eq_of_mem_replicate hc]
    decide

theorem decode_wellFormed {t : Bytes} (h : WellFormed t) : ∃ s, decode t = .ok s :=
  ⟨_, decode_eq h.1 h.low⟩

theorem sextetAt_neverThrows (base64 : Bytes) (i : ℕ) : (sextetAt base64 i).NeverThrows := by
  refine (Outcome.neverThrows_ofOption _).bind fun c => ?_
  split
  · exact Outcome.neverThrows_ok _
  · refine Outcome.NeverThrows.bind ?_ fun v => Outcome.neverThrows_ok _
    unfold decodingAt
    split
    · exact Outcome.neverThrows_ofOption _
    · exact Outcome.neverThrows_undefined

theorem store_neverThrows (out_len : ℕ) (value : UInt32) (j : ℕ) (out : List (Option UInt8)) :
    (store out_len value j out).NeverThrows := by
  unfold store
  split
  · split
    · exact Outcome.neverThrows_ok _
    · exact Outcome.neverThrows_undefined
  · exact Outcome.neverThrows_ok _

theorem decodeStep_neverThrows (base64 : Bytes) (out_len i j : ℕ) (out : List (Option UInt8)) :
    (decodeStep base64 out_len i j out).NeverThrows := by
  refine (sextetAt_neverThrows base64 _).bind fun a => ?_
  refine (sextetAt_neverThrows base64 _).bind fun b => ?_
  refine (sextetAt_neverThrows base64 _).bind fun c => ?_
  refine (sextetAt_neverThrows base64 _).bind fun d => ?_
  refine (store_neverThrows out_len _ _ _).bind fun first => ?_
  refine (store_neverThrows out_len _ _ _).bind fun second => ?_
  exact (store_neverThrows out_len _ _ _).bind fun third => Outcome.neverThrows_ok _

theorem decodeLoop_neverThrows (base64 : Bytes) (in_len out_len fuel : ℕ) :
    ∀ (i j : ℕ) (out : List (Option UInt8)),
      (decodeLoop base64 in_len out_len fuel i j out).NeverThrows := by
  induction fuel with
  | zero => exact fun i j out => Outcome.neverThrows_undefined
  | succ fuel ih =>
    intro i j out
    unfold decodeLoop
    split
    · exact (decodeStep_neverThrows base64 out_len i j out).bind fun r => ih r.1 r.2.1 r.2.2
    · exact Outcome.neverThrows_ok _

/-- Past the check of the length nothing throws. -/
theorem decode_neverThrows {t : Bytes} (h : 4 ∣ t.length) : (decode t).NeverThrows := by
  unfold decode
  split
  · exact Outcome.neverThrows_ok _
  · refine Outcome.NeverThrows.bind ?_ fun out => Outcome.neverThrows_ofOption _
    have hmod : ¬ t.length % 4 ≠ 0 := by omega
    have hbody : Outcome.NeverThrows (ε := Exception) (do
        let last ← charAt t (sizeSub t.length 1)
        let out_len := if last = pad then sizeSub (t.length / 4 * 3) 1 else t.length / 4 * 3
        let beforeLast ← charAt t (sizeSub t.length 2)
        let out_len := if beforeLast = pad then sizeSub out_len 1 else out_len
        decodeLoop t t.length out_len (t.length + 1) 0 0 (List.replicate out_len none)) := by
      refine (Outcome.neverThrows_ofOption _).bind fun last => ?_
      refine (Outcome.neverThrows_ofOption _).bind fun beforeLast => ?_
      exact decodeLoop_neverThrows t _ _ _ _ _ _
    rw [decodeBuffer, if_neg hmod, hbody.catchAll_eq]
    exact hbody

/-! ## Acceptance against the grammar -/

/-- The decoder's verdict on `t` is that of the grammar: it returns on well-formed text, and on other
text it throws, and the line is logged as an error and not delivered. -/
structure JudgedByGrammar (t : Bytes) : Prop where
  accepts : (∃ s, decode t = .ok s) ↔ WellFormed t
  rejects : ¬ WellFormed t → ∃ e, decode t = .throws e
  undelivered : ¬ WellFormed t → ∀ element_pos messages,
    decodeElementLogged decode element_pos messages t =
      .ok (messages, [decodeErrorText ++ t ++ element_pos])

theorem judgedByGrammar_of_wellFormed {t : Bytes} (h : WellFormed t) : JudgedByGrammar t where
  accepts := ⟨fun _ => h, fun _ => decode_wellFormed h⟩
  rejects := fun hne => absurd h hne
  undelivered := fun hne => absurd h hne

theorem judgedByGrammar_of_length {t : Bytes} (h : ¬ 4 ∣ t.length) : JudgedByGrammar t := by
  have hthrows := decode_length h
  have hnil : t ≠ [] := by
    rintro rfl
    exact h (Nat.dvd_zero 4)
  constructor
  · constructor
    · rintro ⟨s, hs⟩
      rw [hthrows] at hs
      cases hs
    · intro hwell
      exact absurd hwell.1 h
  · exact fun _ => ⟨_, hthrows⟩
  · intro _ element_pos messages
    rw [decodeElementLogged, if_neg hnil, hthrows]
    rfl

/-- **Which lines are judged by the grammar**: those that it accepts, and those of a length that is no
multiple of four. Every other line is accepted, or reads outside the table. -/
theorem judgedByGrammar_iff (t : Bytes) : JudgedByGrammar t ↔ WellFormed t ∨ ¬ 4 ∣ t.length := by
  constructor
  · intro h
    by_cases hwell : WellFormed t
    · exact Or.inl hwell
    · obtain ⟨e, he⟩ := h.rejects hwell
      exact Or.inr fun hdvd => decode_neverThrows hdvd e he
  · rintro (h | h)
    · exact judgedByGrammar_of_wellFormed h
    · exact judgedByGrammar_of_length h

/-- `"!!!!"` has no character of the alphabet, and is decoded. -/
theorem exclamations_accepted : ¬ ∀ t : Bytes, JudgedByGrammar t := by
  intro h
  have hreturns : decode (ascii "!!!!") = .ok [4, 16, 64] := by decide +kernel
  have hwell := (h (ascii "!!!!")).accepts.mp ⟨_, hreturns⟩
  exact absurd hwell (by decide)

end Diginext.Base64
