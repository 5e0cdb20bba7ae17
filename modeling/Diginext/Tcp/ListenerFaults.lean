import Diginext.Tcp.DecodeBounds

/-! # Listeners that throw

A read as the event loop of the owner dispatches it. `handle_tcp_connection_read_message` of `tcp_server`
and of `tcp_client` pass a message on without a `try`, and so does `handle_read`: the first exception of
a listener of `onReadMessage` leaves all three and `io_service::run`, and the `catch (...)` of the worker
is behind the loop. The handlers of accepts and of writes, and `tcp_connection::stop`, catch what their
listeners throw. `unbroken_iff` says which reads leave the receive path as it should be.
-/
namespace Diginext.Tcp
open Outcomes Cpp Lines
set_option autoImplicit false

/-- A connection of the owner, and its event loop: `running` while the worker is in
`io_service::run`, `reading` while a read of the connection is outstanding, `offered` what the listeners
of the owner have been called with. -/
structure Reception where
  partMessage : Bytes
  reading : Bool
  offered : List Bytes
  running : Bool
  deriving DecidableEq

def dispatchRead (throwsAt : ℕ → Bool) (s : Reception) (chunk : Bytes) : Result Reception := do
  let r ← handleRead Base64.decode throwsAt s.partMessage chunk
  return {
    partMessage := r.partMessage
    reading := r.rearmed
    offered := s.offered ++ r.raised
    running := s.running && !r.escaped }

/-- Every message of the read has been offered, what follows its last line is kept, and the connection
and the event loop go on. -/
def Unbroken (throwsAt : ℕ → Bool) (s : Reception) (chunk : Bytes) : Prop :=
  dispatchRead throwsAt s chunk = .ok {
    partMessage := tail delimetr (s.partMessage ++ chunk)
    reading := true
    offered := s.offered ++ reference Base64.decode (s.partMessage ++ chunk)
    running := true }

/-! ## The loop over the messages -/

theorem raiseMessages_all {throwsAt : ℕ → Bool} (messages : List Bytes) :
    ∀ k : ℕ, (∀ i < messages.length, throwsAt (k + i) = false) →
      raiseMessages throwsAt k messages = (messages, false) := by
  induction messages with
  | nil => intro k _; rfl
  | cons msg messages ih =>
    intro k h
    have hfirst : throwsAt k = false := h 0 (Nat.succ_pos _)
    have hrest := ih (k + 1) fun i hi => by
      rw [Nat.add_right_comm, Nat.add_assoc]
      exact h (i + 1) (Nat.succ_lt_succ hi)
    rw [raiseMessages, if_neg (by rw [hfirst]; simp), hrest]

/-- The first listener that throws ends the loop. -/
theorem raiseMessages_escapes {throwsAt : ℕ → Bool} (messages : List Bytes) :
    ∀ k i : ℕ, i < messages.length → throwsAt (k + i) = true →
      (raiseMessages throwsAt k messages).2 = true := by
  induction messages with
  | nil => intro k i hi; simp at hi
  | cons msg messages ih =>
    intro k i hi hthrows
    rw [raiseMessages]
    split
    · rfl
    · rename_i hfirst
      have hi0 : i ≠ 0 := by
        rintro rfl
        exact hfirst hthrows
      obtain ⟨j, rfl⟩ := Nat.exists_eq_succ_of_ne_zero hi0
      refine ih (k + 1) j (Nat.lt_of_succ_lt_succ hi) ?_
      rw [show k + 1 + j = k + j.succ by omega]
      exact hthrows

/-! ## Lines on which the decoder is not defined -/

theorem decodeElements_undefined {decode : Bytes → Result Bytes} {line : Bytes} (hne : line ≠ [])
    (hline : decode line = .undefined) (lines messages : List Bytes) (h : line ∈ lines) :
    lines.foldlM (decodeElement decode) messages = (.undefined : Result (List Bytes)) := by
  induction lines generalizing messages with
  | nil => cases h
  | cons first lines ih =>
    rw [List.foldlM_cons]
    rcases List.mem_cons.mp h with rfl | h
    · rw [decodeElement, if_neg hne, hline]
      rfl
    · cases hfirst : decodeElement decode messages first with
      | ok next =>
        rw [Outcome.ok_bind]
        exact ih next h
      | throws e =>
        exfalso
        unfold decodeElement at hfirst
        split at hfirst
        · cases hfirst
        · cases hd : decode first with
          | ok m => simp [hd] at hfirst
          | throws e => simp [hd] at hfirst
          | undefined => simp [hd] at hfirst
      | undefined => rfl

theorem decodeMessage_undefined {decode : Bytes → Result Bytes} {message line : Bytes}
    (hne : line ≠ []) (hline : decode line = .undefined) (h : line ∈ complete delimetr message) :
    decodeMessage decode message [] = .undefined := by
  have hnil : message ≠ [] := by
    rintro rfl
    simp at h
  obtain ⟨hvector, -⟩ := cutMessage_eq message
  have hfold := decodeElements_undefined hne hline (complete delimetr message ++ [[]]) []
    (List.mem_append_left _ h)
  rw [← hvector] at hfold
  rw [decodeMessage, if_neg hnil]
  change ((cutMessage message []).1.splitOn delimetr).foldlM (decodeElement decode) [] >>= _ = _
  rw [hfold, Outcome.undefined_bind]

theorem handleRead_undefined {decode : Bytes → Result Bytes} {throwsAt : ℕ → Bool}
    {partMessage chunk line : Bytes} (hne : line ≠ []) (hline : decode line = .undefined)
    (h : line ∈ complete delimetr (partMessage ++ chunk)) :
    handleRead decode throwsAt partMessage chunk = .undefined := by
  have hnil : partMessage ++ chunk ≠ [] := by
    intro hnil
    rw [hnil] at h
    simp at h
  simp only [handleRead, if_neg hnil, decodeMessage_undefined hne hline h, Outcome.undefined_bind]

/-! ## One read -/

theorem handleRead_raises {decode : Bytes → Result Bytes} (throwsAt : ℕ → Bool)
    {partMessage chunk : Bytes} (h : Defined decode (complete delimetr (partMessage ++ chunk))) :
    handleRead decode throwsAt partMessage chunk =
      let raised := raiseMessages throwsAt 0 (reference decode (partMessage ++ chunk))
      .ok (if raised.2 then ⟨raised.1, [], false, true⟩
        else ⟨raised.1, tail delimetr (partMessage ++ chunk), true, false⟩) := by
  unfold handleRead
  by_cases hnil : partMessage ++ chunk = []
  · rw [if_pos hnil, hnil]
    rfl
  · rw [if_neg hnil, decodeMessage_eq _ h, Outcome.ok_bind]
    dsimp only
    split
    · rfl
    · rfl

/-- **Which reads leave the receive path unbroken**: those on none of whose messages a listener throws,
and on whose lines the decoder stays inside its table. -/
theorem unbroken_iff (throwsAt : ℕ → Bool) (s : Reception) (chunk : Bytes) (hrunning : s.running = true) :
    Unbroken throwsAt s chunk ↔
      (∀ line ∈ complete delimetr (s.partMessage ++ chunk), Plain line) ∧
        ∀ k < (reference Base64.decode (s.partMessage ++ chunk)).length, throwsAt k = false := by
  by_cases hplain : ∀ line ∈ complete delimetr (s.partMessage ++ chunk), Plain line
  · have hdef : Defined Base64.decode (complete delimetr (s.partMessage ++ chunk)) :=
      fun line hline _ => (decode_defined_iff line).mpr (hplain line hline)
    rw [Unbroken, dispatchRead, handleRead_raises throwsAt hdef]
    constructor
    · intro h
      refine ⟨hplain, fun k hk => ?_⟩
      by_contra hthrows
      have hescapes := raiseMessages_escapes _ 0 k hk (by simpa using hthrows)
      simp [hescapes] at h
    · rintro ⟨-, hquiet⟩
      have hraise : raiseMessages throwsAt 0 (reference Base64.decode (s.partMessage ++ chunk)) =
          (reference Base64.decode (s.partMessage ++ chunk), false) := by
        refine raiseMessages_all _ 0 fun i hi => ?_
        rw [Nat.zero_add]
        exact hquiet i hi
      simp [hraise, hrunning]
  · refine ⟨fun h => ?_, fun h => absurd h.1 hplain⟩
    simp only [not_forall] at hplain
    obtain ⟨line, hline, hbad⟩ := hplain
    have hundefined : Base64.decode line = .undefined := by
      by_contra hdef
      exact hbad ((decode_defined_iff line).mp hdef)
    have hne : line ≠ [] := by
      rintro rfl
      exact hbad (by simp [Plain])
    rw [Unbroken, dispatchRead, handleRead_undefined hne hundefined hline] at h
    cases h

theorem unbroken_two_lines : Unbroken (fun k => decide (2 ≤ k)) ⟨ascii "YW", true, [], true⟩
    (ascii "Jj\nYWJj\nYW") :=
  (unbroken_iff (fun k => decide (2 ≤ k)) ⟨ascii "YW", true, [], true⟩ (ascii "Jj\nYWJj\nYW") rfl).mpr
    (by decide +kernel)

/-- The listener throws on the first of two messages: the second is not offered, no read is started and
the event loop has ended. -/
theorem first_message_breaks : ¬ ∀ (throwsAt : ℕ → Bool) (s : Reception) (chunk : Bytes),
    s.running = true → Unbroken throwsAt s chunk := by
  intro h
  have hunbroken := h (fun k => decide (k = 0)) ⟨[], true, [], true⟩ (ascii "YWJj\nYWJj\nYW") rfl
  have hbroken : dispatchRead (fun k => decide (k = 0)) ⟨[], true, [], true⟩
      (ascii "YWJj\nYWJj\nYW") = .ok ⟨[], false, [ascii "abc"], false⟩ := by decide +kernel
  rw [Unbroken, hbroken] at hunbroken
  cases hunbroken

end Diginext.Tcp
