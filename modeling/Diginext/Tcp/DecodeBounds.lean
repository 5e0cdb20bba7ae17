import Diginext.Base64.DecodeTrace
import Diginext.Tcp.ReceiveReference

/-! # The accesses of `decode_message`

`decode_message` with the log of what the decoder goes through on its lines. Nothing between the socket
and the table looks at the bytes of a line, and `char` is signed: a byte from `0x80` on is a negative
index. `insideTables_iff` says on which messages no access leaves the table or the line.
-/
namespace Diginext.Tcp
open Outcomes Cpp Lines Base64
set_option autoImplicit false

def decodeElementTraced (messages : List Bytes) (msg : Bytes) : Decoding (List Bytes) :=
  if msg = [] then pure messages
  else Logged.catchAll (do return messages ++ [← decodeTraced inTable msg]) fun _ => pure messages

def decodeMessageTraced (message message_unreceived_part : Bytes) : Decoding (List Bytes × Bytes) :=
  if message = [] then pure ([], message_unreceived_part)
  else do
    let (messageFull, message_unreceived_part) :=
      if message.getLast? ≠ some delimetr then
        let lastPos := findLastOf delimetr message
        (message.take (afterPos lastPos), message.drop (afterPos lastPos))
      else (message, message_unreceived_part)
    let message_vector := messageFull.splitOn delimetr
    let messages ← message_vector.foldlM decodeElementTraced []
    return (messages, message_unreceived_part)

/-- An access to the text below its length, or to the table below its 256 entries. -/
def Inside : DecodeEvent → Prop
  | .read base64 i => i < base64.length
  | .index k => 0 ≤ k ∧ k ≤ 255
  | _ => True

def InsideTables (message : Bytes) : Prop := ∀ e ∈ (decodeMessageTraced message []).log, Inside e

/-- A line that the check of the length turns away, or that holds no byte from `0x80` on. -/
def Plain (line : Bytes) : Prop := 4 ∣ line.length → ∀ c ∈ line, c.toNat < 128

instance (line : Bytes) : Decidable (Plain line) := inferInstanceAs (Decidable (_ → _))

/-! ## Forgetting the log -/

theorem decodeElementTraced_outcome (messages : List Bytes) (msg : Bytes) :
    (decodeElementTraced messages msg).outcome = decodeElement decode messages msg := by
  unfold decodeElementTraced decodeElement
  split
  · rfl
  · simp only [Logged.outcome_catchAll, Logged.outcome_bind, decodeTraced_outcome,
      Logged.pure_outcome]
    rfl

theorem decodeElementsTraced_outcome (lines messages : List Bytes) :
    (lines.foldlM decodeElementTraced messages).outcome =
      lines.foldlM (decodeElement decode) messages := by
  induction lines generalizing messages with
  | nil => rfl
  | cons line lines ih =>
    simp only [List.foldlM_cons, Logged.outcome_bind, decodeElementTraced_outcome, ih]

theorem decodeMessageTraced_outcome (message message_unreceived_part : Bytes) :
    (decodeMessageTraced message message_unreceived_part).outcome =
      decodeMessage decode message message_unreceived_part := by
  unfold decodeMessageTraced decodeMessage
  split
  · rfl
  · simp only [Logged.outcome_bind, decodeElementsTraced_outcome, Logged.pure_outcome,
      Outcome.pure_eq]

/-! ## Look-ups that agree -/

/-- Wherever the run `x` looks, `f` and `g` yield the same. -/
def Agrees (f g : ℕ → Int32 → Result UInt8) {α : Type} (x : Decoding α) : Prop :=
  ∀ i index, .index index.toInt ∈ x.log → f i index = g i index

/-- If the two look-ups agree wherever the first run looks, the second run is the same. -/
def SameRun (f g : ℕ → Int32 → Result UInt8) {α : Type} (x y : Decoding α) : Prop :=
  Agrees f g x → x = y

section Agreement
variable {f g : ℕ → Int32 → Result UInt8}

theorem SameRun.refl {α : Type} (x : Decoding α) : SameRun f g x x := fun _ => rfl

theorem SameRun.bind {α β : Type} {x y : Decoding α} {k k' : α → Decoding β} (hx : SameRun f g x y)
    (hk : ∀ a, x.outcome = .ok a → SameRun f g (k a) (k' a)) : SameRun f g (x >>= k) (y >>= k') := by
  intro h
  refine Logged.bind_congr (hx fun i index hi => ?_) fun a ha => hk a ha fun i index hi => ?_
  · exact h i index (Logged.mem_log_bind_left k hi)
  · exact h i index (Logged.mem_log_bind_right ha hi)

theorem sextetTraced_same (base64 : Bytes) (i : ℕ) :
    SameRun f g (sextetTraced f base64 i) (sextetTraced g base64 i) := by
  refine (SameRun.refl _).bind fun c _ => ?_
  split
  · exact SameRun.refl _
  · refine (SameRun.refl _).bind fun c _ => ?_
    refine (SameRun.refl _).bind fun i' _ => ?_
    refine SameRun.bind ?_ fun value _ => SameRun.refl _
    intro h
    rw [h i (toInt c) (by simp)]

theorem decodeStepTraced_same (base64 : Bytes) (out_len i j : ℕ) (out : List (Option UInt8)) :
    SameRun f g (decodeStepTraced f base64 out_len i j out)
      (decodeStepTraced g base64 out_len i j out) := by
  refine (sextetTraced_same base64 _).bind fun a _ => ?_
  refine (sextetTraced_same base64 _).bind fun b _ => ?_
  refine (sextetTraced_same base64 _).bind fun c _ => ?_
  exact (sextetTraced_same base64 _).bind fun d _ => SameRun.refl _

theorem decodeLoopTraced_same (base64 : Bytes) (in_len out_len fuel : ℕ) :
    ∀ (i j : ℕ) (out : List (Option UInt8)),
      SameRun f g (decodeLoopTraced f base64 in_len out_len fuel i j out)
        (decodeLoopTraced g base64 in_len out_len fuel i j out) := by
  induction fuel with
  | zero => exact fun i j out => SameRun.refl _
  | succ fuel ih =>
    intro i j out
    unfold decodeLoopTraced
    split
    · exact (decodeStepTraced_same base64 out_len i j out).bind fun r _ => ih r.1 r.2.1 r.2.2
    · exact SameRun.refl _

theorem decodeTraced_same (base64 : Bytes) :
    SameRun f g (decodeTraced f base64) (decodeTraced g base64) := by
  unfold decodeTraced
  split
  · exact SameRun.refl _
  · refine SameRun.bind ?_ fun out _ => SameRun.refl _
    unfold decodeBufferTraced
    by_cases hmod : base64.length % 4 ≠ 0
    · simp only [if_pos hmod]
      exact SameRun.refl _
    · simp only [if_neg hmod]
      intro h
      unfold Agrees at h
      rw [Logged.log_catchAll fun e => rfl] at h
      refine congrArg (fun x : Decoding (List (Option UInt8)) => x.catchAll _) ?_
      refine SameRun.bind (SameRun.refl _) (fun last _ => ?_) h
      exact (SameRun.refl _).bind fun beforeLast _ => decodeLoopTraced_same base64 _ _ _ _ _ _

end Agreement

/-! ## A negative index has no defined behaviour -/

theorem toInt_range : ∀ c : UInt8,
    (0 ≤ (toInt c).toInt ↔ c.toNat < 128) ∧ (toInt c).toInt ≤ 255 := by
  intro c
  rcases Nat.lt_or_ge c.toNat 128 with hlow | hhigh
  · have hindex := toInt_low c hlow
    omega
  · have hindex := toInt_high c hhigh
    omega

/-- Where the run does not leave defined behaviour, no look-up of it leaves the table. -/
def Checked {α : Type} (x : Decoding α) : Prop :=
  x.outcome ≠ .undefined → ∀ k, .index k ∈ x.log → 0 ≤ k ∧ k ≤ 255

theorem checked_of_log {α : Type} {x : Decoding α} (h : ∀ k, .index k ∉ x.log) : Checked x :=
  fun _ k hk => absurd hk (h k)

theorem Checked.bind {α β : Type} {x : Decoding α} {f : α → Decoding β} (hx : Checked x)
    (hf : ∀ a, Checked (f a)) : Checked (x >>= f) := by
  intro hdef k hk
  rw [Logged.outcome_bind] at hdef
  rcases Logged.mem_log_bind hk with hk | ⟨a, ha, hk⟩
  · refine hx (fun hundefined => hdef ?_) k hk
    rw [hundefined, Outcome.undefined_bind]
  · rw [ha, Outcome.ok_bind] at hdef
    exact hf a hdef k hk

theorem sextetTraced_checked (base64 : Bytes) (i : ℕ) :
    Checked (sextetTraced inTable base64 i) := by
  refine Checked.bind (checked_of_log (by simp)) fun c => ?_
  split
  · exact checked_of_log (by simp)
  · refine Checked.bind (checked_of_log (by simp)) fun c => ?_
    refine Checked.bind (checked_of_log (by simp)) fun i' => ?_
    refine Checked.bind ?_ fun value => checked_of_log (by simp)
    intro hdef k hk
    rw [Logged.event_log, List.mem_singleton] at hk
    cases hk
    refine ⟨?_, (toInt_range c).2⟩
    by_contra hneg
    exact hdef (if_neg hneg)

theorem storeTraced_checked (out_len : ℕ) (value : UInt32) (j : ℕ) (out : List (Option UInt8)) :
    Checked (storeTraced out_len value j out) := by
  unfold storeTraced
  split
  · exact checked_of_log (by simp)
  · exact checked_of_log (by simp)

theorem decodeStepTraced_checked (base64 : Bytes) (out_len i j : ℕ) (out : List (Option UInt8)) :
    Checked (decodeStepTraced inTable base64 out_len i j out) := by
  refine (sextetTraced_checked base64 _).bind fun a => ?_
  refine (sextetTraced_checked base64 _).bind fun b => ?_
  refine (sextetTraced_checked base64 _).bind fun c => ?_
  refine (sextetTraced_checked base64 _).bind fun d => ?_
  refine Checked.bind (checked_of_log (by simp)) fun triple => ?_
  refine (storeTraced_checked out_len _ _ _).bind fun first => ?_
  refine (storeTraced_checked out_len _ _ _).bind fun second => ?_
  exact (storeTraced_checked out_len _ _ _).bind fun third => checked_of_log (by simp)

theorem decodeLoopTraced_checked (base64 : Bytes) (in_len out_len fuel : ℕ) :
    ∀ (i j : ℕ) (out : List (Option UInt8)),
      Checked (decodeLoopTraced inTable base64 in_len out_len fuel i j out) := by
  induction fuel with
  | zero => intro i j out; exact checked_of_log (by simp [decodeLoopTraced])
  | succ fuel ih =>
    intro i j out
    unfold decodeLoopTraced
    split
    · exact (decodeStepTraced_checked base64 out_len i j out).bind fun r => ih r.1 r.2.1 r.2.2
    · exact checked_of_log (by simp)

theorem decodeTraced_checked (base64 : Bytes) : Checked (decodeTraced inTable base64) := by
  unfold decodeTraced
  split
  · exact checked_of_log (by simp)
  · refine Checked.bind ?_ fun out => checked_of_log (by simp)
    unfold decodeBufferTraced
    by_cases hmod : base64.length % 4 ≠ 0
    · simp only [if_pos hmod]
      exact checked_of_log (by simp)
    · simp only [if_neg hmod]
      intro hdef
      rw [Logged.outcome_catchAll] at hdef
      rw [Logged.log_catchAll fun e => rfl]
      refine Checked.bind (checked_of_log (by simp)) (fun last => ?_) (fun hundefined => hdef ?_)
      · refine Checked.bind (checked_of_log (by simp)) fun beforeLast => ?_
        exact decodeLoopTraced_checked base64 _ _ _ _ _ _
      · rw [hundefined, Outcome.catchAll_undefined]

/-! ## One line -/

/-- The table, continued anyhow outside its bounds. -/
def continued : ℕ → Int32 → UInt8 := fun _ index => kDecodingTable.getD index.toInt.toNat 0

theorem inTable_eq {i : ℕ} {index : Int32} (h : 0 ≤ index.toInt ∧ index.toInt ≤ 255) :
    inTable i index = total continued i index := by
  rw [inTable, decodingAt, if_pos h.1, total, continued, kDecodingTable_getElem (by omega),
    Outcome.ofOption_some]

theorem mem_indexed {log : List DecodeEvent} {k : ℤ} : k ∈ indexed log ↔ .index k ∈ log := by
  rw [indexed, List.mem_filterMap]
  constructor
  · rintro ⟨e, he, hk⟩
    cases e with
    | index k' =>
      cases hk
      exact he
    | _ => cases hk
  · intro h
    exact ⟨_, h, rfl⟩

/-- Looking up every character but `'='`, the decoder sees all bytes of a line of whole quartets. -/
theorem low_of_indexes {line : Bytes} (hne : line ≠ []) (hdvd : 4 ∣ line.length)
    (h : ∀ k, .index k ∈ (decodeTraced inTable line).log → 0 ≤ k ∧ k ≤ 255) :
    ∀ c ∈ line, c.toNat < 128 := by
  intro c hc
  obtain ⟨s, -, hrun⟩ := decodeTraced_performs continued hne hdvd
  have hsame : decodeTraced inTable line = decodeTraced (total continued) line :=
    decodeTraced_same line fun i index hi => inTable_eq (h _ hi)
  by_cases hp : c = pad
  · rw [hp]
    decide
  · have hmem : (toInt c).toInt ∈ indexes line :=
      List.mem_map_of_mem (List.mem_filter.mpr ⟨hc, decide_eq_true hp⟩)
    rw [← hrun.looks, mem_indexed, ← hsame] at hmem
    exact (toInt_range c).1.mp (h _ hmem).1

/-- A line of whole quartets keeps the decoder inside its tables exactly when no byte of it is from
`0x80` on. -/
theorem line_inside_iff {line : Bytes} (hne : line ≠ []) (hdvd : 4 ∣ line.length) :
    (∀ e ∈ (decodeTraced inTable line).log, Inside e) ↔ ∀ c ∈ line, c.toNat < 128 := by
  constructor
  · exact fun hin => low_of_indexes hne hdvd fun k hk => hin _ hk
  · intro hlow
    obtain ⟨s, -, hrun⟩ := decodeTraced_performs continued hne hdvd
    have hindex : ∀ k, .index k ∈ (decodeTraced (total continued) line).log → 0 ≤ k ∧ k ≤ 255 := by
      intro k hk
      rw [← mem_indexed, hrun.looks] at hk
      obtain ⟨c, hc, rfl⟩ := List.mem_map.mp hk
      have hc' := hlow c (List.mem_filter.mp hc).1
      exact ⟨(toInt_range c).1.mpr hc', (toInt_range c).2⟩
    have hsame : decodeTraced (total continued) line = decodeTraced inTable line :=
      decodeTraced_same line fun i index hi => (inTable_eq (hindex _ hi)).symm
    intro e he
    rw [← hsame] at he
    cases e with
    | read base64 i => exact hrun.reads base64 i he
    | index k => exact hindex k he
    | consume i => trivial
    | sum a b c d => trivial
    | write j => trivial

/-- The decoder has a defined result, a message or an exception, on the plain lines only. -/
theorem decode_defined_iff (line : Bytes) : decode line ≠ .undefined ↔ Plain line := by
  constructor
  · intro hdef hdvd c hc
    rw [← decodeTraced_outcome] at hdef
    exact low_of_indexes (List.ne_nil_of_mem hc) hdvd (decodeTraced_checked line hdef) c hc
  · intro h
    by_cases hdvd : 4 ∣ line.length
    · rw [decode_eq hdvd (h hdvd)]
      simp
    · rw [decode_length hdvd]
      simp

/-! ## All lines -/

theorem element_inside_iff (messages : List Bytes) (line : Bytes) :
    (∀ e ∈ (decodeElementTraced messages line).log, Inside e) ↔ Plain line := by
  unfold decodeElementTraced
  by_cases hnil : line = []
  · rw [if_pos hnil, hnil]
    simp [Plain]
  · rw [if_neg hnil, Logged.log_catchAll fun e => rfl]
    rw [Logged.log_bind_pure]
    by_cases hdvd : 4 ∣ line.length
    · rw [line_inside_iff hnil hdvd]
      exact ⟨fun h _ => h, fun h => h hdvd⟩
    · -- the check of the length comes before any access
      have hmod : line.length % 4 ≠ 0 := by omega
      have hempty : (decodeTraced inTable line).log = [] := by
        rw [decodeTraced, if_neg hnil, decodeBufferTraced]
        simp only [if_pos hmod]
        rfl
      rw [hempty]
      exact ⟨fun _ h => absurd h hdvd, fun _ e he => absurd he List.not_mem_nil⟩

/-- The induction is on the lines: as long as they are plain, the loop goes on to the next one. -/
theorem elements_inside_iff (lines messages : List Bytes) :
    (∀ e ∈ (lines.foldlM decodeElementTraced messages).log, Inside e) ↔ ∀ line ∈ lines, Plain line := by
  induction lines generalizing messages with
  | nil => simp
  | cons line lines ih =>
    rw [List.foldlM_cons, List.forall_mem_cons, ← element_inside_iff messages line]
    constructor
    · intro h
      have hline := fun e he => h e (Logged.mem_log_bind_left _ he)
      have hplain := (element_inside_iff messages line).mp hline
      have hnext := decodeElement_eq messages fun _ => (decode_defined_iff line).mpr hplain
      rw [← decodeElementTraced_outcome] at hnext
      exact ⟨hline, (ih _).mp fun e he => h e (Logged.mem_log_bind_right hnext he)⟩
    · rintro ⟨hline, hlines⟩ e he
      rcases Logged.mem_log_bind he with he | ⟨next, -, he⟩
      · exact hline e he
      · exact (ih next).mpr hlines e he

/-- **Which messages keep the decoder inside its tables**: those whose complete lines of whole quartets
hold no byte from `0x80` on. -/
theorem insideTables_iff (message : Bytes) :
    InsideTables message ↔ ∀ line ∈ complete delimetr message, 4 ∣ line.length →
      ∀ c ∈ line, c.toNat < 128 := by
  by_cases hnil : message = []
  · subst hnil
    simp [InsideTables, decodeMessageTraced]
  · obtain ⟨hvector, -⟩ := cutMessage_eq message
    have hlog : (decodeMessageTraced message []).log =
        ((complete delimetr message ++ [[]]).foldlM decodeElementTraced []).log := by
      rw [decodeMessageTraced, if_neg hnil, ← hvector]
      exact Logged.log_bind_pure _ _
    rw [InsideTables, hlog, elements_inside_iff]
    constructor
    · exact fun h line hline => h line (List.mem_append_left _ hline)
    · intro h line hline
      rcases List.mem_append.mp hline with hline | hline
      · exact h line hline
      · rw [List.mem_singleton.mp hline]
        simp [Plain]

/-- A line of four bytes `0xFF`: the first index is -1. -/
theorem negative_index : ¬ ∀ message : Bytes, InsideTables message := by
  intro h
  have hindex : .index (-1) ∈ (decodeMessageTraced [255, 255, 255, 255, delimetr] []).log := by
    decide +kernel
  have hin := h [255, 255, 255, 255, delimetr] _ hindex
  exact absurd hin.1 (by decide)

end Diginext.Tcp
