import Diginext.Tcp.Delivery

/-! # Failed writes

`handle_write` drops the message whose write has failed and goes on with the next one, on the same
socket: the part of the frame that is on the wire stays there, and the next frame is joined to it. Where
the part is no whole number of quartets the receiver throws the joined line away, and the message is
lost. Where it is, the line is decoded as one. `Apart` is the step that does not let this happen, and
`no_forgery` the guarantee for the runs of such steps.
-/
namespace Diginext.Tcp
open Outcomes Cpp Lines Transition
set_option autoImplicit false

variable {T : Type}

/-- A write that puts its whole frame on the wire finds no unfinished line there, or one that the
receiver will not decode. -/
def Apart (s : Sender T) : SendAction T → Prop
  | .complete k result =>
    ∀ w ∈ s.writes[k]?, result.sent w.element.bytes = w.element.bytes →
      tail delimetr s.wire = [] ∨ ¬ 4 ∣ (tail delimetr s.wire).length
  | _ => True

instance (s : Sender T) (a : SendAction T) : Decidable (Apart s a) :=
  match a with
  | .complete _ _ => inferInstanceAs (Decidable (∀ w ∈ _, _))
  | .push _ _ => isTrue trivial
  | .pump _ => isTrue trivial
  | .resume _ => isTrue trivial

/-- The sender's state against the messages: those whose writes are over, those still queued, and what
the lines on the wire decode to. -/
structure Accounted (s : Sender T) (past queued : List StdString) : Prop where
  pumping : Pumping s
  pushed : s.pushed.map Element.bytes = (past ++ queued).map frame
  finished : s.finished.map Element.bytes = past.map frame
  defined : Defined Base64.decode (complete delimetr s.wire)
  decoded : (decodedLines Base64.decode (complete delimetr s.wire)).Sublist (nonEmpty past)

theorem started_accounted (flag : Bool) : Accounted (Sender.fresh flag : Sender T).start [] [] where
  pumping := started_pumping flag
  pushed := rfl
  finished := rfl
  defined := by simp [Sender.start, Sender.fresh, Defined]
  decoded := by simp [Sender.start, Sender.fresh, decodedLines]

/-! ## What a completed write adds to the wire -/

/-- A frame goes out whole, or up to some place before its delimiter. -/
theorem sent_frame (result : WriteResult) (msg : StdString) :
    result.sent (frame msg) = frame msg ∨
      ∃ r, result.sent (frame msg) = r ∧ r <+: Base64.quanta msg.bytes := by
  cases result with
  | transmitted => exact Or.inl rfl
  | failed n =>
    rw [WriteResult.sent, frame]
    by_cases hn : n ≤ (Base64.quanta msg.bytes).length
    · refine Or.inr ⟨_, rfl, ?_⟩
      rw [List.take_append_of_le_length hn]
      exact List.take_prefix _ _
    · refine Or.inl (List.take_of_length_le ?_)
      rw [List.length_append, List.length_singleton]
      omega

/-- The line of a frame behind an unfinished line: the message itself, or nothing. -/
theorem joined_line {rest : Bytes} (msg : StdString) (h : rest = [] ∨ ¬ 4 ∣ rest.length) :
    Defined Base64.decode [rest ++ Base64.quanta msg.bytes] ∧
      (decodedLines Base64.decode [rest ++ Base64.quanta msg.bytes]).Sublist (nonEmpty [msg]) := by
  rcases h with rfl | hlen
  · have htext := decodedLines_texts [msg]
    exact ⟨texts_defined [msg], by rw [← htext]; exact List.Sublist.refl _⟩
  · have hquanta : 4 ∣ (Base64.quanta msg.bytes).length := by
      rw [Base64.quanta_length]
      exact Nat.dvd_mul_right 4 _
    have hline : ¬ 4 ∣ (rest ++ Base64.quanta msg.bytes).length := by
      rw [List.length_append]
      exact fun hsum => hlen ((Nat.dvd_add_left hquanta).mp hsum)
    have hdecode := Base64.decode_length hline
    constructor
    · intro line hmem _
      rw [List.mem_singleton.mp hmem, hdecode]
      simp
    · have hnone : decodedLines Base64.decode [rest ++ Base64.quanta msg.bytes] = [] := by
        rw [decodedLines, List.filterMap_eq_nil_iff]
        intro line hmem
        rw [List.mem_singleton.mp (List.mem_filter.mp hmem).1, hdecode]
        rfl
      rw [hnone]
      exact List.nil_sublist _

theorem joined_wire {wire : Bytes} {past : List StdString} (msg : StdString) (result : WriteResult)
    (hdef : Defined Base64.decode (complete delimetr wire))
    (hdecoded : (decodedLines Base64.decode (complete delimetr wire)).Sublist (nonEmpty past))
    (happart : result.sent (frame msg) = frame msg →
      tail delimetr wire = [] ∨ ¬ 4 ∣ (tail delimetr wire).length) :
    Defined Base64.decode (complete delimetr (wire ++ result.sent (frame msg))) ∧
      (decodedLines Base64.decode (complete delimetr (wire ++ result.sent (frame msg)))).Sublist
        (nonEmpty (past ++ [msg])) := by
  have htext : delimetr ∉ Base64.quanta msg.bytes := Base64.newline_not_mem_quanta msg.bytes
  rcases sent_frame result msg with hwhole | ⟨r, hr, hinitial⟩
  · obtain ⟨hcomplete, -⟩ := cut_append_piece wire htext
    obtain ⟨hline, hjoined⟩ := joined_line msg (happart hwhole)
    rw [hwhole, frame, hcomplete, decodedLines_append, nonEmpty_append]
    refine ⟨?_, hdecoded.append hjoined⟩
    intro line hmem hne
    rcases List.mem_append.mp hmem with hmem | hmem
    · exact hdef line hmem hne
    · exact hline line hmem hne
  · have hrest : delimetr ∉ r := fun hmem => htext (hinitial.subset hmem)
    obtain ⟨hcomplete, -⟩ := cut_append_rest wire hrest
    rw [hr, hcomplete, nonEmpty_append]
    exact ⟨hdef, hdecoded.trans (List.sublist_append_left _ _)⟩

theorem Accounted.complete {s : Sender T} {past queued : List StdString} (h : Accounted s past queued)
    {k : ℕ} {w : Write} {result : WriteResult} (hw : s.writes[k]? = some w) (hnot : w.completed = false)
    (hpumping : Pumping (s.complete k w result)) (happart : Apart s (.complete k result)) :
    ∃ msg rest, queued = msg :: rest ∧ Accounted (s.complete k w result) (past ++ [msg]) rest := by
  obtain ⟨rfl, hsingle, buffer, hbuffer⟩ := h.pumping.sound.write_cases hw
  have hpopped : s.finished = s.popped := by
    rw [h.pumping.sound.done, hsingle]
    simp [hnot]
  -- The write is of the first message that is still queued.
  have hqueue : (w.element :: buffer).map Element.bytes = queued.map frame := by
    have hpushed := h.pushed
    rw [h.pumping.sound.queued, hbuffer, ← hpopped, List.map_append, h.finished,
      List.map_append] at hpushed
    exact List.append_cancel_left hpushed
  match queued, hqueue with
  | msg :: rest, hqueue =>
    rw [List.map_cons, List.map_cons] at hqueue
    obtain ⟨hbytes, -⟩ := List.cons.inj hqueue
    have hapart := happart w hw
    rw [hbytes] at hapart
    obtain ⟨hdef, hdecoded⟩ := joined_wire msg result h.defined h.decoded hapart
    refine ⟨msg, rest, rfl, hpumping, ?_, ?_, ?_, ?_⟩
    · rw [List.append_assoc]
      exact h.pushed
    · simp [Sender.complete, h.finished, hbytes]
    · rw [Sender.complete, hbytes]
      exact hdef
    · rw [Sender.complete, hbytes]
      exact hdecoded

theorem Accounted.congr {s s' : Sender T} {past queued : List StdString} (h : Accounted s past queued)
    (hpumping : Pumping s') (hpushed : s'.pushed = s.pushed) (hfinished : s'.finished = s.finished)
    (hwire : s'.wire = s.wire) : Accounted s' past queued where
  pumping := hpumping
  pushed := by rw [hpushed]; exact h.pushed
  finished := by rw [hfinished]; exact h.finished
  defined := by rw [hwire]; exact h.defined
  decoded := by rw [hwire]; exact h.decoded

/-! ## Steps and runs -/

variable [DecidableEq T]

/-- A message that the encoder refuses is not queued. -/
theorem Accounted.push {s s' : Sender T} {past queued : List StdString} (h : Accounted s past queued)
    {t : T} {msg : StdString} (hpumping : Pumping s') (hs : s.push t msg = some s') :
    Accounted s' past queued ∨ Accounted s' past (queued ++ [msg]) := by
  unfold Sender.push at hs
  cases hm : socketMsg msg with
  | undefined => simp [hm] at hs
  | throws e =>
    simp only [hm, Option.some.injEq] at hs
    subst hs
    exact Or.inl (h.congr hpumping rfl rfl rfl)
  | ok bytes =>
    simp only [hm, Option.some.injEq] at hs
    subst hs
    refine Or.inr ⟨hpumping, ?_, h.finished, h.defined, h.decoded⟩
    simp [h.pushed, socketMsg_frame hm]

theorem Accounted.step {s s' : Sender T} {past queued : List StdString} (h : Accounted s past queued)
    {a : SendAction T} (happart : Apart s a) (hs : sendStep s a = some s') :
    ∃ past' queued', Accounted s' past' queued' ∧
      (past' ++ queued').Sublist (past ++ queued ++ sentMessages [a]) := by
  have hpumping := h.pumping.step hs
  rcases sendStep_cases hs with ⟨t, msg, rfl, hpush⟩ | ⟨t, rfl, rfl⟩ |
    ⟨k, w, result, rfl, hw, hnot, rfl⟩ | ⟨k, w, rfl, -, -, rfl⟩
  · rcases h.push hpumping hpush with h' | h'
    · exact ⟨past, queued, h', List.sublist_append_left _ _⟩
    · refine ⟨past, queued ++ [msg], h', ?_⟩
      rw [← List.append_assoc]
      exact List.Sublist.refl _
  · obtain ⟨hpushed, hfinished, hwire⟩ :=
      asyncWrite_logs true { s with calling := Function.update s.calling t false }
    exact ⟨past, queued, h.congr hpumping hpushed hfinished hwire, List.sublist_append_left _ _⟩
  · obtain ⟨msg, rest, rfl, h'⟩ := h.complete hw hnot hpumping happart
    refine ⟨past ++ [msg], rest, h', ?_⟩
    rw [List.append_assoc, List.singleton_append]
    exact List.sublist_append_left _ _
  · obtain ⟨hpushed, hfinished, hwire⟩ :=
      asyncWrite_logs false { s with writes := s.writes.eraseIdx k }
    exact ⟨past, queued, h.congr hpumping hpushed hfinished hwire, List.sublist_append_left _ _⟩

/-- The induction is on the run; `past` and `queued` are what has been sent so far, less what the
encoder has refused. -/
theorem accounted_run {s t : Sender T} {past queued : List StdString} {as : List (SendAction T)}
    (h : Accounted s past queued) (happart : Meets sendStep Apart s as) (hrun : run sendStep s as = some t) :
    ∃ past' queued', Accounted t past' queued' ∧
      (past' ++ queued').Sublist (past ++ queued ++ sentMessages as) := by
  induction as generalizing s past queued with
  | nil =>
    have hst : s = t := by simpa using hrun
    subst hst
    exact ⟨past, queued, h, by simp [sentMessages]⟩
  | cons a as ih =>
    obtain ⟨s₁, hs₁, hrun₁⟩ := run_cons_eq.mp hrun
    obtain ⟨happart_a, happart_as⟩ := happart s₁ hs₁
    obtain ⟨past₁, queued₁, h₁, hsub₁⟩ := h.step happart_a hs₁
    obtain ⟨past', queued', h', hsub'⟩ := ih h₁ happart_as hrun₁
    refine ⟨past', queued', h', hsub'.trans ?_⟩
    rw [sentMessages_cons, ← List.append_assoc]
    exact hsub₁.append (List.Sublist.refl _)

/-! ## The receiver -/

theorem nonEmpty_sublist {l m : List StdString} (h : l.Sublist m) :
    (nonEmpty l).Sublist (m.map StdString.bytes) :=
  List.filter_sublist.trans (h.map StdString.bytes)

/-- What arrives first of a stream is decoded to the first messages of it. -/
theorem receive_initial {chunks : List Bytes} {wire : Bytes} (h : chunks.flatten <+: wire)
    (hdef : Defined Base64.decode (complete delimetr wire)) :
    ∃ delivered, receive Base64.decode [] chunks = .ok (delivered, tail delimetr chunks.flatten) ∧
      delivered.Sublist (decodedLines Base64.decode (complete delimetr wire)) := by
  obtain ⟨behind, rfl⟩ := h
  rw [complete_append] at hdef ⊢
  have hfirst : Defined Base64.decode (complete delimetr chunks.flatten) := fun line hline =>
    hdef line (List.mem_append_left _ hline)
  refine ⟨_, receive_eq chunks hfirst, ?_⟩
  rw [decodedLines_append]
  exact List.sublist_append_left _ _

/-- **No forged messages.** In a run whose writes are all `Apart`, whatever part of the wire has arrived
and however it is cut, the receiver delivers a subsequence of the messages that were sent. -/
theorem no_forgery (flag : Bool) (as : List (SendAction T)) (s : Sender T) (chunks : List Bytes)
    (hrun : run sendStep (Sender.fresh flag).start as = some s) (hchunks : chunks.flatten <+: s.wire)
    (happart : Meets sendStep Apart (Sender.fresh flag).start as) :
    ∃ delivered, receive Base64.decode [] chunks = .ok (delivered, tail delimetr chunks.flatten) ∧
      delivered.Sublist ((sentMessages as).map StdString.bytes) := by
  obtain ⟨past, queued, h, hsub⟩ := accounted_run (started_accounted flag) happart hrun
  obtain ⟨delivered, hreceive, hdelivered⟩ := receive_initial hchunks h.defined
  refine ⟨delivered, hreceive, (hdelivered.trans h.decoded).trans ?_⟩
  exact nonEmpty_sublist ((List.sublist_append_left past queued).trans hsub)

/-- The write of `abcdef` fails after `cut` bytes of `"YWJjZGVm"` and the delimiter, and `xyz` is sent
after it. -/
def sendsAfterFailure (cut : ℕ) : List (SendAction Unit) :=
  [.push () ⟨ascii "abcdef", by decide⟩, .pump (), .complete 0 (.failed cut), .resume 0,
    .push () ⟨ascii "xyz", by decide⟩, .pump (), .complete 0 .transmitted, .resume 0]

/-- Five bytes of the frame do not make whole quartets with the next one, whose message is lost. -/
theorem no_forgery_five_bytes : ∃ (s : Sender Unit) (delivered : List Bytes),
    run sendStep (Sender.fresh false).start (sendsAfterFailure 5) = some s ∧
      receive Base64.decode [] [s.wire] = .ok (delivered, tail delimetr [s.wire].flatten) ∧
      delivered.Sublist ((sentMessages (sendsAfterFailure 5)).map StdString.bytes) := by
  have hruns : (run sendStep (Sender.fresh false).start (sendsAfterFailure 5)).isSome = true := by
    decide +kernel
  obtain ⟨s, hs⟩ := Option.isSome_iff_exists.mp hruns
  have happart : Meets sendStep Apart (Sender.fresh false).start (sendsAfterFailure 5) := by
    decide +kernel
  obtain ⟨delivered, hreceive, hsub⟩ :=
    no_forgery false (sendsAfterFailure 5) s [s.wire] hs (by simp) happart
  exact ⟨s, delivered, hs, hreceive, hsub⟩

/-- Four bytes of it do: `"YWJj"` and `"eHl6"` are one line, and `abcxyz` is delivered. -/
theorem forged_message : ¬ ∀ (flag : Bool) (as : List (SendAction Unit)) (s : Sender Unit)
    (chunks : List Bytes), run sendStep (Sender.fresh flag).start as = some s →
      chunks.flatten <+: s.wire → ∃ delivered,
        receive Base64.decode [] chunks = .ok (delivered, tail delimetr chunks.flatten) ∧
          delivered.Sublist ((sentMessages as).map StdString.bytes) := by
  intro h
  have hwire : ((run sendStep (Sender.fresh false).start (sendsAfterFailure 4)).map fun s => s.wire) =
      some (ascii "YWJjeHl6\n") := by decide +kernel
  obtain ⟨s, hs, hbytes⟩ := Option.map_eq_some_iff.mp hwire
  obtain ⟨delivered, hreceive, hsub⟩ :=
    h false (sendsAfterFailure 4) s [ascii "YWJjeHl6\n"] hs (by simp [hbytes])
  have hforged : receive Base64.decode [] [ascii "YWJjeHl6\n"] = .ok ([ascii "abcxyz"], []) := by
    decide +kernel
  rw [hforged] at hreceive
  cases hreceive
  exact absurd hsub (by decide +kernel)

end Diginext.Tcp
