import Diginext.Tcp.Receive
import Diginext.Foundations.Lines

/-! # The receive path against a line-by-line reference

The reference reads a stream as a whole: its complete lines, less the empty ones, each decoded, less
those on which the decoder throws. `decodeMessage_eq` gives one call of `decode_message` by the
pieces of `Lines`; since a read prepends what the one before it left over, the reads of a connection
cut the stream as `Lines.cutAll` does, and the chunking drops out.
-/
namespace Diginext.Tcp
open Outcomes Cpp Lines
set_option autoImplicit false

def decodedLines (decode : Bytes → Result Bytes) (lines : List Bytes) : List Bytes :=
  (lines.filter (· ≠ [])).filterMap fun line => (decode line).value?

def reference (decode : Bytes → Result Bytes) (stream : Bytes) : List Bytes :=
  decodedLines decode (complete delimetr stream)

/-- The decoder returns or throws on every line of a list. -/
def Defined (decode : Bytes → Result Bytes) (lines : List Bytes) : Prop :=
  ∀ line ∈ lines, line ≠ [] → decode line ≠ .undefined

theorem decodedLines_append (decode : Bytes → Result Bytes) (ls ms : List Bytes) :
    decodedLines decode (ls ++ ms) = decodedLines decode ls ++ decodedLines decode ms := by
  simp [decodedLines]

/-! ## The last delimiter -/

theorem findLastOf_none {ch : UInt8} {s : Bytes} (h : ch ∉ s) : findLastOf ch s = none := by
  induction s with
  | nil => rfl
  | cons x xs ih =>
    obtain ⟨hx, hxs⟩ : ch ≠ x ∧ ch ∉ xs := by simpa using h
    simp [findLastOf, ih hxs, Ne.symm hx]

theorem findLastOf_append {ch : UInt8} (p : Bytes) {r : Bytes} (h : ch ∉ r) :
    findLastOf ch (p ++ ch :: r) = some p.length := by
  induction p with
  | nil => simp [findLastOf, findLastOf_none h]
  | cons x p ih => simp [findLastOf, ih]

theorem last_delimiter {d : UInt8} {s : Bytes} (h : d ∈ s) : ∃ p r, d ∉ r ∧ s = p ++ d :: r := by
  obtain ⟨a, b, hab, ha⟩ := List.eq_append_cons_of_mem (List.mem_reverse.mpr h)
  refine ⟨b.reverse, a.reverse, by simpa using ha, ?_⟩
  have hs := congrArg List.reverse hab
  simpa using hs

theorem splitOn_at_last {p r : Bytes} (hr : delimetr ∉ r) :
    complete delimetr (p ++ delimetr :: r) = p.splitOn delimetr ∧
      tail delimetr (p ++ delimetr :: r) = r := by
  apply eq_of_splitOn
  rw [List.splitOn_append_cons_self, List.splitOn_eq_singleton hr]

/-! ## One call of `decode_message` -/

theorem decodeElement_eq {decode : Bytes → Result Bytes} (messages : List Bytes) {line : Bytes}
    (h : line ≠ [] → decode line ≠ .undefined) :
    decodeElement decode messages line = .ok (messages ++ decodedLines decode [line]) := by
  unfold decodeElement decodedLines
  by_cases hnil : line = []
  · simp [hnil]
  · cases hd : decode line with
    | ok m => simp [hnil, hd]
    | throws e => simp [hnil, hd]
    | undefined => exact absurd hd (h hnil)

theorem decodeElements_eq {decode : Bytes → Result Bytes} (lines messages : List Bytes)
    (h : Defined decode lines) :
    lines.foldlM (decodeElement decode) messages =
      (.ok (messages ++ decodedLines decode lines) : Result (List Bytes)) := by
  induction lines generalizing messages with
  | nil => simp [decodedLines]
  | cons line lines ih =>
    have hline := h line (List.mem_cons_self ..)
    have hrest : Defined decode lines := fun l hl => h l (List.mem_cons_of_mem line hl)
    rw [List.foldlM_cons, decodeElement_eq messages hline, Outcome.ok_bind, ih _ hrest,
      List.append_assoc, ← decodedLines_append, List.singleton_append]

theorem decodeElements_defined {decode : Bytes → Result Bytes} {lines messages result : List Bytes}
    (h : lines.foldlM (decodeElement decode) messages = (.ok result : Result (List Bytes))) :
    Defined decode lines := by
  induction lines generalizing messages with
  | nil => simp [Defined]
  | cons line lines ih =>
    rw [List.foldlM_cons] at h
    obtain ⟨messages', hfirst, hrest⟩ := Outcome.bind_eq_ok.mp h
    intro l hl hne
    rcases List.mem_cons.mp hl with rfl | hl
    · intro hundefined
      simp [decodeElement, hne, hundefined] at hfirst
    · exact ih hrest l hl hne

/-- `messageFull` and `message_unreceived_part` after the look at the last character. -/
def cutMessage (message message_unreceived_part : Bytes) : Bytes × Bytes :=
  if message.getLast? ≠ some delimetr then
    (message.take (afterPos (findLastOf delimetr message)),
      message.drop (afterPos (findLastOf delimetr message)))
  else (message, message_unreceived_part)

/-- The vector of lines ends with the empty piece behind the last delimiter. -/
theorem cutMessage_eq (message : Bytes) :
    (cutMessage message []).1.splitOn delimetr = complete delimetr message ++ [[]] ∧
      (cutMessage message []).2 = tail delimetr message := by
  by_cases hmem : delimetr ∈ message
  · obtain ⟨p, r, hr, rfl⟩ := last_delimiter hmem
    obtain ⟨hcomplete, htail⟩ := splitOn_at_last (p := p) hr
    have hsplit : (p ++ [delimetr]).splitOn delimetr = p.splitOn delimetr ++ [[]] := by
      rw [List.splitOn_append_cons_self, List.splitOn_nil]
    have htake : (p ++ delimetr :: r).take (p.length + 1) = p ++ [delimetr] := by
      rw [List.take_length_add_append, List.take_succ_cons, List.take_zero]
    have hdrop : (p ++ delimetr :: r).drop (p.length + 1) = r := by simp [List.drop_append]
    rw [hcomplete, htail]
    by_cases hlast : (p ++ delimetr :: r).getLast? = some delimetr
    · -- the message ends with the delimiter, and the out-parameter keeps its empty value
      have hrnil : r = [] := by
        by_contra hne
        rw [List.getLast?_append, List.getLast?_cons, List.getLast?_eq_some_getLast hne] at hlast
        have heq : r.getLast hne = delimetr := by simpa using hlast
        exact hr (heq ▸ List.getLast_mem hne)
      subst hrnil
      rw [cutMessage, if_neg (not_not_intro hlast)]
      exact ⟨hsplit, rfl⟩
    · rw [cutMessage, if_pos hlast, findLastOf_append p hr, afterPos, htake, hdrop]
      exact ⟨hsplit, rfl⟩
  · -- no delimiter: `find_last_of` is `npos`, and the whole message is left over
    have hlast : message.getLast? ≠ some delimetr := fun hl => hmem (List.mem_of_getLast? hl)
    rw [cutMessage, if_pos hlast, findLastOf_none hmem, complete_of_not_mem hmem,
      tail_of_not_mem hmem]
    exact ⟨rfl, rfl⟩

/-- **`decode_message`** delivers the complete lines of its argument and leaves the rest. -/
theorem decodeMessage_eq {decode : Bytes → Result Bytes} (message : Bytes)
    (h : Defined decode (complete delimetr message)) :
    decodeMessage decode message [] = .ok (reference decode message, tail delimetr message) := by
  by_cases hnil : message = []
  · subst hnil
    simp [decodeMessage, reference, decodedLines]
  · obtain ⟨hvector, hpart⟩ := cutMessage_eq message
    have hdef : Defined decode (complete delimetr message ++ [[]]) := by
      intro line hl hne
      rcases List.mem_append.mp hl with hl | hl
      · exact h line hl hne
      · exact absurd (List.mem_singleton.mp hl) hne
    have hfold := decodeElements_eq _ [] hdef
    have hlast : decodedLines decode [[]] = [] := by simp [decodedLines]
    rw [decodedLines_append, hlast, List.append_nil, List.nil_append, ← hvector] at hfold
    rw [decodeMessage, if_neg hnil]
    change ((cutMessage message []).1.splitOn delimetr).foldlM (decodeElement decode) [] >>= _ = _
    rw [hfold, Outcome.ok_bind]
    change Outcome.ok (_, (cutMessage message []).2) = _
    rw [hpart, reference]

/-! ## One read -/

theorem raiseMessages_quiet (k : ℕ) (messages : List Bytes) :
    raiseMessages quiet k messages = (messages, false) := by
  induction messages generalizing k with
  | nil => rfl
  | cons m ms ih => simp [raiseMessages, quiet, ih]

/-- **`handle_read`** raises the complete lines of what was left over and what has arrived. -/
theorem handleRead_eq {decode : Bytes → Result Bytes} (partMessage chunk : Bytes)
    (h : Defined decode (complete delimetr (partMessage ++ chunk))) :
    handleRead decode quiet partMessage chunk =
      .ok ⟨reference decode (partMessage ++ chunk), tail delimetr (partMessage ++ chunk),
        true, false⟩ := by
  unfold handleRead
  by_cases hnil : partMessage ++ chunk = []
  · simp [hnil, reference, decodedLines]
  · simp [hnil, decodeMessage_eq _ h, raiseMessages_quiet]

theorem handleRead_defined {decode : Bytes → Result Bytes} {partMessage chunk : Bytes} {r : ReadResult}
    (h : handleRead decode quiet partMessage chunk = .ok r) :
    Defined decode (complete delimetr (partMessage ++ chunk)) := by
  by_cases hnil : partMessage ++ chunk = []
  · simp [hnil, Defined]
  · rw [handleRead] at h
    simp only [if_neg hnil] at h
    obtain ⟨decoded, hdecode, -⟩ := Outcome.bind_eq_ok.mp h
    rw [decodeMessage, if_neg hnil] at hdecode
    change ((cutMessage (partMessage ++ chunk) []).1.splitOn delimetr).foldlM
      (decodeElement decode) [] >>= _ = _ at hdecode
    obtain ⟨messages, hmessages, -⟩ := Outcome.bind_eq_ok.mp hdecode
    have hdef := decodeElements_defined hmessages
    rw [(cutMessage_eq _).1] at hdef
    exact fun line hline => hdef line (List.mem_append_left _ hline)

/-- A read that returns adds the messages of the lines it completes. -/
theorem reference_read {decode : Bytes → Result Bytes} {stream chunk : Bytes} {r : ReadResult}
    (h : handleRead decode quiet (tail delimetr stream) chunk = .ok r) :
    reference decode (stream ++ chunk) = reference decode stream ++ r.raised ∧
      r.partMessage = tail delimetr (stream ++ chunk) := by
  rw [handleRead_eq _ _ (handleRead_defined h)] at h
  cases h
  constructor
  · rw [reference, complete_append, decodedLines_append]
    rfl
  · exact (tail_append stream chunk).symm

/-! ## All reads of a connection -/

theorem receive_concat {decode : Bytes → Result Bytes} {chunks : List Bytes}
    {partMessage partMessage' chunk : Bytes} {raised : List Bytes} {r : ReadResult}
    (h : receive decode partMessage chunks = .ok (raised, partMessage'))
    (hr : handleRead decode quiet partMessage' chunk = .ok r) :
    receive decode partMessage (chunks ++ [chunk]) = .ok (raised ++ r.raised, r.partMessage) := by
  induction chunks generalizing partMessage raised with
  | nil =>
    obtain ⟨rfl, rfl⟩ : [] = raised ∧ partMessage = partMessage' := by simpa [receive] using h
    simp [receive, hr]
  | cons c chunks ih =>
    obtain ⟨r₁, hr₁, hrest⟩ := Outcome.bind_eq_ok.mp h
    obtain ⟨⟨raised₁, part₁⟩, hraised₁, heq⟩ := Outcome.bind_eq_ok.mp hrest
    cases heq
    have hlast := ih hraised₁
    rw [List.cons_append, receive, hr₁, Outcome.ok_bind, hlast, List.append_assoc]
    rfl

theorem receive_cutAll {decode : Bytes → Result Bytes} (chunks : List Bytes) (partMessage : Bytes)
    (h : Defined decode (cutAll delimetr partMessage chunks).1) :
    receive decode partMessage chunks =
      .ok (decodedLines decode (cutAll delimetr partMessage chunks).1,
        (cutAll delimetr partMessage chunks).2) := by
  induction chunks generalizing partMessage with
  | nil => simp [receive, cutAll, decodedLines]
  | cons chunk chunks ih =>
    simp only [cutAll] at h ⊢
    have hfirst : Defined decode (complete delimetr (partMessage ++ chunk)) := fun l hl =>
      h l (List.mem_append_left _ hl)
    have hrest : Defined decode (cutAll delimetr (tail delimetr (partMessage ++ chunk)) chunks).1 :=
      fun l hl => h l (List.mem_append_right _ hl)
    rw [receive, handleRead_eq _ _ hfirst, Outcome.ok_bind]
    simp only [ih _ hrest, Outcome.ok_bind, Outcome.pure_eq, reference, decodedLines_append]

theorem receive_eq {decode : Bytes → Result Bytes} (chunks : List Bytes)
    (h : Defined decode (complete delimetr chunks.flatten)) :
    receive decode [] chunks =
      .ok (reference decode chunks.flatten, tail delimetr chunks.flatten) := by
  have hcut := cutAll_eq (d := delimetr) chunks [] (by simp)
  simp only [List.nil_append] at hcut
  have hdef : Defined decode (cutAll delimetr [] chunks).1 := by rw [hcut]; exact h
  rw [receive_cutAll chunks [] hdef, hcut, reference]

/-- **The receiver meets the line-by-line reference**, for every decoder that returns or throws,
every stream and every way of cutting it. -/
theorem receive_reference (decode : Bytes → Except Exception Bytes) (chunks : List Bytes) :
    receive (fun line => .ofExcept (decode line)) [] chunks =
      .ok (((complete delimetr chunks.flatten).filter (· ≠ [])).filterMap
          (fun line => (decode line).toOption),
        tail delimetr chunks.flatten) := by
  have hdef : ∀ line, (Outcome.ofExcept (decode line) : Result Bytes) ≠ .undefined := by
    intro line
    cases decode line with
    | ok m => simp
    | error e => simp
  have hvalue : ∀ line, (Outcome.ofExcept (decode line) : Result Bytes).value? =
      (decode line).toOption := by
    intro line
    cases decode line with
    | ok m => rfl
    | error e => rfl
  rw [receive_eq chunks fun line _ _ => hdef line, reference, decodedLines]
  simp only [hvalue]

end Diginext.Tcp
