import Diginext.Base64.RoundTrip
import Diginext.Tcp.ReceiveReference
import Diginext.Tcp.SetUp

/-! # From `send` to `onReadMessage`

The two halves of `tcp_connection` together. A frame is the encoded message and the delimiter, and the
encoder never writes the delimiter, so the frames are the pieces of `Lines.framed` and any part of the
stream received so far cuts into the frames that lie in it whole (`received_initial`). As pieces the
frames are the `texts`, without the delimiter. The message dropped by `decode_message` is the empty
one: its frame is a bare delimiter.
-/
namespace Diginext.Tcp
open Outcomes Cpp Lines Transition
set_option autoImplicit false

def Completes (msg : StdString) : Prop := ∃ text, Base64.encode msg = .ok text

def frame (msg : StdString) : Bytes := Base64.quanta msg.bytes ++ [delimetr]

def texts (msgs : List StdString) : List Bytes := msgs.map fun msg => Base64.quanta msg.bytes

/-- What a list of messages delivers. -/
def nonEmpty (msgs : List StdString) : List Bytes :=
  (msgs.map StdString.bytes).filter fun bytes => bytes ≠ []

theorem nonEmpty_append (l m : List StdString) : nonEmpty (l ++ m) = nonEmpty l ++ nonEmpty m := by
  rw [nonEmpty, List.map_append, List.filter_append, nonEmpty, nonEmpty]

/-! ## Frames -/

theorem socketMsg_eq {msg : StdString} {text : Bytes} (h : Base64.encode msg = .ok text) :
    socketMsg msg = .ok (frame msg) := by
  obtain ⟨rfl, -, hle⟩ := Base64.encode_ok h
  -- the longest string has a length that is no multiple of four
  have hroom : (Base64.quanta msg.bytes).length + 1 ≤ maxSize := by
    have hlen := Base64.quanta_length msg.bytes
    unfold maxSize at hle ⊢
    omega
  rw [socketMsg, h, Outcome.ok_bind, concat, if_pos (by simpa using hroom), frame]

theorem socketMsg_frame {msg : StdString} {bytes : Bytes} (h : socketMsg msg = .ok bytes) :
    bytes = frame msg := by
  have hbind := h
  rw [socketMsg] at hbind
  obtain ⟨text, htext, -⟩ := Outcome.bind_eq_ok.mp hbind
  rw [socketMsg_eq htext] at h
  cases h
  rfl

theorem returns_frames {msgs : List StdString} (h : ∀ msg ∈ msgs, Completes msg) :
    Returns socketMsg msgs (msgs.map frame) := by
  induction msgs with
  | nil => exact Returns.nil
  | cons msg msgs ih =>
    obtain ⟨text, htext⟩ := h msg (List.mem_cons_self ..)
    have hrest := ih fun m hm => h m (List.mem_cons_of_mem msg hm)
    exact Returns.cons (socketMsg_eq htext) hrest

theorem frames_of_returns {msgs : List StdString} {frames : List Bytes}
    (h : Returns socketMsg msgs frames) : frames = msgs.map frame := by
  induction h with
  | nil => rfl
  | cons hmsg _ ih => rw [List.map_cons, socketMsg_frame hmsg, ih]

theorem flatten_frames (msgs : List StdString) :
    (msgs.map frame).flatten = framed delimetr (texts msgs) := by
  rw [framed, texts, List.map_map]
  rfl

theorem delimetr_not_mem_texts (msgs : List StdString) : ∀ p ∈ texts msgs, delimetr ∉ p := by
  intro p hp
  obtain ⟨msg, -, rfl⟩ := List.mem_map.mp hp
  exact Base64.newline_not_mem_quanta msg.bytes

/-! ## Reading the frames -/

theorem texts_defined (msgs : List StdString) : Defined Base64.decode (texts msgs) := by
  intro line hline _
  obtain ⟨msg, -, rfl⟩ := List.mem_map.mp hline
  rw [Base64.decode_quanta]
  simp

theorem decodedLines_texts (msgs : List StdString) :
    decodedLines Base64.decode (texts msgs) = nonEmpty msgs := by
  induction msgs with
  | nil => rfl
  | cons msg msgs ih =>
    have hcons : decodedLines Base64.decode (texts (msg :: msgs)) =
        decodedLines Base64.decode [Base64.quanta msg.bytes] ++ nonEmpty msgs := by
      rw [← ih, ← decodedLines_append]
      rfl
    rw [hcons]
    by_cases hnil : msg.bytes = []
    · simp [decodedLines, nonEmpty, hnil, Base64.quanta]
    · have htext : Base64.quanta msg.bytes ≠ [] := fun h => hnil (Base64.quanta_eq_nil.mp h)
      simp [decodedLines, nonEmpty, hnil, htext, Base64.decode_quanta]

theorem receive_texts {chunks : List Bytes} {msgs : List StdString}
    (h : complete delimetr chunks.flatten = texts msgs) :
    receive Base64.decode [] chunks = .ok (nonEmpty msgs, tail delimetr chunks.flatten) := by
  rw [receive_eq chunks (by rw [h]; exact texts_defined msgs), reference, h, decodedLines_texts]

/-! ## What has been received of a stream of frames -/

/-- The messages whose whole frame lies in the first `n` bytes of the stream. -/
def arrived (n : ℕ) (msgs : List StdString) (frames : List Bytes) : List StdString :=
  (fitting (fun p : StdString × Bytes => p.2.length) n (msgs.zip frames)).map Prod.fst

theorem arrived_frames (n : ℕ) (msgs : List StdString) :
    fitting (fun p : Bytes => p.length + 1) n (texts msgs) =
      texts (arrived n msgs (msgs.map frame)) := by
  have hzip : msgs.zip (msgs.map frame) = msgs.map fun msg => (msg, frame msg) := by
    have hboth := List.zip_map' (f := id) (g := frame) (l := msgs)
    rwa [List.map_id] at hboth
  rw [arrived, hzip, fitting_map, List.map_map, texts, fitting_map, texts]
  simp [frame, Function.comp_def]

theorem arrived_initial (n : ℕ) (msgs : List StdString) : arrived n msgs (msgs.map frame) <+: msgs := by
  have hfit := (fitting_initial (fun p : StdString × Bytes => p.2.length) n
    (msgs.zip (msgs.map frame))).map Prod.fst
  rwa [List.map_fst_zip (by simp)] at hfit

theorem received_initial (msgs : List StdString) {chunks : List Bytes}
    (h : chunks.flatten <+: (msgs.map frame).flatten) :
    receive Base64.decode [] chunks =
      .ok (nonEmpty (arrived chunks.flatten.length msgs (msgs.map frame)),
        tail delimetr chunks.flatten) := by
  apply receive_texts
  rw [flatten_frames] at h
  rw [complete_initial (delimetr_not_mem_texts msgs) h, arrived_frames]

theorem arrived_nonEmpty (n : ℕ) (msgs : List StdString) :
    nonEmpty (arrived n msgs (msgs.map frame)) <+: nonEmpty msgs :=
  ((arrived_initial n msgs).map _).filter _

/-- What is delivered of an initial part of the stream is an initial part of what the whole delivers. -/
theorem received_nonEmpty {msgs : List StdString} {chunks delivered : List Bytes} {partMessage : Bytes}
    (h : chunks.flatten <+: (msgs.map frame).flatten)
    (hread : receive Base64.decode [] chunks = .ok (delivered, partMessage)) :
    delivered <+: nonEmpty msgs := by
  rw [received_initial msgs h] at hread
  have heq : nonEmpty _ = delivered := congrArg Prod.fst (Outcome.ok.inj hread)
  rw [← heq]
  exact arrived_nonEmpty _ msgs

theorem reference_initial {stream : Bytes} {msgs : List StdString}
    (h : stream <+: (msgs.map frame).flatten) :
    reference Base64.decode stream <+: nonEmpty msgs := by
  rw [flatten_frames] at h
  rw [reference, complete_initial (delimetr_not_mem_texts msgs) h, arrived_frames,
    decodedLines_texts]
  exact arrived_nonEmpty _ msgs

theorem texts_injective {msgs msgs' : List StdString} (h : texts msgs = texts msgs') :
    msgs = msgs' := by
  have hinj : Function.Injective fun msg : StdString => Base64.quanta msg.bytes := by
    intro s t hst
    have hs := Base64.decode_quanta s.bytes
    simp only at hst
    rw [hst, Base64.decode_quanta t.bytes, Outcome.ok.injEq] at hs
    exact StdString.ext_bytes hs.symm
  exact List.map_injective_iff.mpr hinj h

/-- **Framing integrity.** Whatever part of the stream has arrived, in whatever chunks, exactly the
non-empty messages whose frame lies in it have been delivered, and no other list of messages has the
same stream. -/
theorem framing_integrity (msgs : List StdString) (h : ∀ msg ∈ msgs, Completes msg) :
    ∃ frames, Returns socketMsg msgs frames ∧
      (∀ chunks : List Bytes, chunks.flatten <+: frames.flatten →
        receive Base64.decode [] chunks =
          .ok (nonEmpty (arrived chunks.flatten.length msgs frames),
            tail delimetr chunks.flatten)) ∧
      ∀ msgs' frames', Returns socketMsg msgs' frames' → frames'.flatten = frames.flatten →
        msgs' = msgs := by
  refine ⟨msgs.map frame, returns_frames h, ?_, ?_⟩
  · intro chunks hchunks
    exact received_initial msgs hchunks
  · intro msgs' frames' hreturns hstream
    rw [frames_of_returns hreturns, flatten_frames, flatten_frames] at hstream
    exact texts_injective
      (framed_injective (delimetr_not_mem_texts msgs') (delimetr_not_mem_texts msgs) hstream)

def greetings : List StdString := [letters, ⟨[], Nat.zero_le _⟩]

theorem greetings_complete : ∀ msg ∈ greetings, Completes msg := by
  intro msg hmsg
  have hcases : msg = letters ∨ msg = ⟨[], Nat.zero_le _⟩ := by simpa [greetings] using hmsg
  rcases hcases with rfl | rfl
  · exact ⟨ascii "YWJj", by decide⟩
  · exact ⟨[], by decide⟩

theorem framing_integrity_greetings :
    ∃ frames, Returns socketMsg greetings frames ∧
      ∀ chunks : List Bytes, chunks.flatten <+: frames.flatten →
        receive Base64.decode [] chunks =
          .ok (nonEmpty (arrived chunks.flatten.length greetings frames),
            tail delimetr chunks.flatten) := by
  obtain ⟨frames, hframes, hprefix, -⟩ := framing_integrity greetings greetings_complete
  exact ⟨frames, hframes, hprefix⟩

end Diginext.Tcp
