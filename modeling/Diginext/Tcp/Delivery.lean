import Diginext.Tcp.Framing

/-! # End-to-end delivery

A run of the send path whose writes all succeed puts the frames of the messages on the wire, in the
order in which `send` was called (`transmitted_frames`). By `Framing` any way of cutting these bytes
into reads delivers the messages, the empty ones apart: `decode_message` skips every empty line, since
`boost::split` gives one behind the last delimiter.
-/
namespace Diginext.Tcp
open Outcomes Cpp Lines Transition
set_option autoImplicit false

variable {T : Type}

/-- What completed writes have put on the wire are the elements they were completed for. -/
def Faithful (s : Sender T) : Prop := s.wire = (s.finished.map Element.bytes).flatten

/-- No call of `send` is between its two steps, and no write is outstanding. -/
def Quiet (s : Sender T) : Prop := (∀ t, s.calling t = false) ∧ s.writes = []

theorem writeFront_logs (s : Sender T) :
    s.writeFront.pushed = s.pushed ∧ s.writeFront.finished = s.finished ∧
      s.writeFront.wire = s.wire := by
  match hb : s.sendBuffer with
  | [] =>
    rw [Sender.writeFront_nil hb]
    exact ⟨rfl, rfl, rfl⟩
  | msg :: rest =>
    rw [Sender.writeFront_cons hb]
    exact ⟨rfl, rfl, rfl⟩

theorem asyncWrite_logs (init : Bool) (s : Sender T) :
    (s.asyncWrite init).pushed = s.pushed ∧ (s.asyncWrite init).finished = s.finished ∧
      (s.asyncWrite init).wire = s.wire := by
  cases init with
  | false => exact writeFront_logs _
  | true =>
    rcases Bool.eq_false_or_eq_true s.sendStart with hs | hs
    · rw [Sender.asyncWrite_busy hs]
      exact ⟨rfl, rfl, rfl⟩
    · rw [Sender.asyncWrite_idle hs]
      exact writeFront_logs { s with sendStart := true }

variable [DecidableEq T]

/-! ## What a step adds to the wire and to the queue -/

theorem push_frame {s s' : Sender T} {t : T} {msg : StdString} (hmsg : Completes msg)
    (h : s.push t msg = some s') :
    s'.pushed.map Element.bytes = s.pushed.map Element.bytes ++ [frame msg] ∧
      s'.finished = s.finished ∧ s'.wire = s.wire := by
  obtain ⟨text, htext⟩ := hmsg
  simp only [Sender.push, socketMsg_eq htext, Option.some.injEq] at h
  subst h
  exact ⟨by simp, rfl, rfl⟩

theorem step_frames {s s' : Sender T} {a : SendAction T}
    (hcompletes : ∀ msg ∈ sentMessages [a], Completes msg) (h : sendStep s a = some s') :
    s'.pushed.map Element.bytes =
      s.pushed.map Element.bytes ++ (sentMessages [a]).map frame := by
  rcases sendStep_cases h with ⟨t, msg, rfl, hpush⟩ | ⟨t, rfl, rfl⟩ |
    ⟨k, w, result, rfl, -, -, rfl⟩ | ⟨k, w, rfl, -, -, rfl⟩
  · have hmsg : Completes msg := hcompletes msg (by simp [sentMessages])
    exact (push_frame hmsg hpush).1
  · simp [sentMessages, (asyncWrite_logs true _).1]
  · simp [sentMessages, Sender.complete]
  · simp [sentMessages, Sender.handled, (asyncWrite_logs false _).1]

theorem step_faithful {s s' : Sender T} {a : SendAction T} (hs : Faithful s)
    (hcompletes : ∀ msg ∈ sentMessages [a], Completes msg) (ha : a.transmits = true)
    (h : sendStep s a = some s') : Faithful s' := by
  unfold Faithful at hs ⊢
  rcases sendStep_cases h with ⟨t, msg, rfl, hpush⟩ | ⟨t, rfl, rfl⟩ |
    ⟨k, w, result, rfl, -, -, rfl⟩ | ⟨k, w, rfl, -, -, rfl⟩
  · have hmsg : Completes msg := hcompletes msg (by simp [sentMessages])
    obtain ⟨-, hfinished, hwire⟩ := push_frame hmsg hpush
    rw [hfinished, hwire, hs]
  · obtain ⟨-, hfinished, hwire⟩ :=
      asyncWrite_logs true { s with calling := Function.update s.calling t false }
    rw [hfinished, hwire, hs]
  · cases result with
    | transmitted => simp [Sender.complete, WriteResult.sent, hs]
    | failed n => simp [SendAction.transmits] at ha
  · obtain ⟨-, hfinished, hwire⟩ :=
      asyncWrite_logs false { s with writes := s.writes.eraseIdx k }
    rw [Sender.handled, hfinished, hwire, hs]

omit [DecidableEq T] in
theorem sentMessages_cons (a : SendAction T) (as : List (SendAction T)) :
    sentMessages (a :: as) = sentMessages [a] ++ sentMessages as := by
  cases a <;> rfl

/-! ## Whole runs -/

theorem run_frames {s s' : Sender T} {as : List (SendAction T)} (hs : Faithful s)
    (hcompletes : ∀ msg ∈ sentMessages as, Completes msg) (hok : ∀ a ∈ as, a.transmits = true)
    (h : run sendStep s as = some s') :
    s'.pushed.map Element.bytes = s.pushed.map Element.bytes ++ (sentMessages as).map frame ∧
      Faithful s' := by
  induction as generalizing s with
  | nil =>
    have heq : s = s' := by simpa using h
    subst heq
    exact ⟨by simp [sentMessages], hs⟩
  | cons a as ih =>
    obtain ⟨s₁, hstep, hrun⟩ := run_cons_eq.mp h
    rw [sentMessages_cons] at hcompletes ⊢
    have ha : ∀ msg ∈ sentMessages [a], Completes msg := fun msg hm =>
      hcompletes msg (List.mem_append_left _ hm)
    have has : ∀ msg ∈ sentMessages as, Completes msg := fun msg hm =>
      hcompletes msg (List.mem_append_right _ hm)
    have hs₁ := step_faithful hs ha (hok a (List.mem_cons_self ..)) hstep
    obtain ⟨hpushed, hfaithful⟩ := ih hs₁ has (fun b hb => hok b (List.mem_cons_of_mem a hb)) hrun
    refine ⟨?_, hfaithful⟩
    rw [hpushed, step_frames ha hstep, List.map_append, List.append_assoc]

/-- When everything sent has been written, the wire holds the frames of the messages in order. -/
theorem transmitted_frames {flag : Bool} {as : List (SendAction T)} {s : Sender T}
    (h : run sendStep (Sender.fresh flag).start as = some s)
    (hcompletes : ∀ msg ∈ sentMessages as, Completes msg) (hok : ∀ a ∈ as, a.transmits = true)
    (hquiet : Quiet s) : s.wire = ((sentMessages as).map frame).flatten := by
  obtain ⟨hcalls, hidle⟩ := hquiet
  have hpumping := pumping_run h
  have hfresh : Faithful (Sender.fresh flag : Sender T).start := rfl
  obtain ⟨hpushed, hfaithful⟩ := run_frames hfresh hcompletes hok h
  have hpopped : s.pushed = s.popped := by
    rw [hpumping.sound.queued, hpumping.drained hcalls hidle, List.append_nil]
  have hfinished : s.finished = s.popped := by
    rw [hpumping.sound.done, hidle]
    simp
  rw [hfaithful, hfinished, ← hpopped, hpushed]
  simp [Sender.start, Sender.fresh]

/-- **Every list of messages can be sent**: from a quiet connection, by one caller, one after the
other. -/
theorem every_list_sent (t : T) {msgs : List StdString} (hcompletes : ∀ msg ∈ msgs, Completes msg)
    {s : Sender T} (hs : Pumping s) (hquiet : Quiet s) :
    ∃ as s', run sendStep s as = some s' ∧ sentMessages as = msgs ∧
      (∀ a ∈ as, a.transmits = true) ∧ Quiet s' := by
  induction msgs generalizing s with
  | nil => exact ⟨[], s, rfl, rfl, by simp, hquiet⟩
  | cons msg msgs ih =>
    obtain ⟨hcalls, hidle⟩ := hquiet
    have hbuffer : s.sendBuffer = [] := hs.drained hcalls hidle
    have hflag : s.sendStart = false := by
      by_contra hne
      exact hs.busy (by simpa using hne) hidle
    obtain ⟨text, htext⟩ := hcompletes msg (List.mem_cons_self ..)
    have hrun : ∃ s₁, run sendStep s
        [.push t msg, .pump t, .complete 0 .transmitted, .resume 0] = some s₁ ∧ Quiet s₁ := by
      simp [run, sendStep, hcalls, Sender.push, socketMsg_eq htext, Sender.asyncWrite, hflag,
        Sender.writeFront, hbuffer, hidle, Sender.complete, Sender.handled, Quiet]
      intro u
      by_cases hu : u = t
      · rw [hu, Function.update_self]
      · rw [Function.update_of_ne hu, hcalls]
    obtain ⟨s₁, hrun₁, hquiet₁⟩ := hrun
    have hs₁ : Pumping s₁ := run_invariant (I := Pumping) (fun _ _ _ hI h => hI.step h) hs hrun₁
    obtain ⟨as, s', hrun', hsent, hok, hquiet'⟩ :=
      ih (fun m hm => hcompletes m (List.mem_cons_of_mem msg hm)) hs₁ hquiet₁
    refine ⟨[.push t msg, .pump t, .complete 0 .transmitted, .resume 0] ++ as, s', ?_, ?_, ?_,
      hquiet'⟩
    · rw [run_append hrun₁, hrun']
    · simp [sentMessages, hsent]
    · have hone : ∀ a ∈ ([.push t msg, .pump t, .complete 0 .transmitted, .resume 0] :
          List (SendAction T)), a.transmits = true := by simp [SendAction.transmits]
      intro a ha
      rcases List.mem_append.mp ha with ha | ha
      · exact hone a ha
      · exact hok a ha

/-! ## Delivery -/

/-- **End-to-end delivery.** The reads of the receiver, however the stream is cut, raise
`onReadMessage` with exactly the non-empty messages that were sent, in order. -/
theorem delivery (flag : Bool) (msgs : List StdString) (as : List (SendAction T)) (s : Sender T)
    (chunks : List Bytes) (hcompletes : ∀ msg ∈ msgs, Completes msg)
    (hrun : run sendStep (Sender.fresh flag).start as = some s) (hsent : sentMessages as = msgs)
    (hok : ∀ a ∈ as, a.transmits = true) (hquiet : Quiet s) (hchunks : chunks.flatten = s.wire) :
    receive Base64.decode [] chunks = .ok (nonEmpty msgs, []) := by
  subst hsent
  have hstream : chunks.flatten = framed delimetr (texts (sentMessages as)) := by
    rw [hchunks, transmitted_frames hrun hcompletes hok hquiet, flatten_frames]
  obtain ⟨hcomplete, htail⟩ := cut_framed (delimetr_not_mem_texts (sentMessages as))
  rw [receive_texts (by rw [hstream, hcomplete]), hstream, htail]

def sendsGreetings : List (SendAction Unit) :=
  [.push () letters, .pump (), .complete 0 .transmitted, .resume 0,
    .push () ⟨[], Nat.zero_le _⟩, .pump (), .complete 0 .transmitted, .resume 0]

theorem sendsGreetings_run : ∃ s : Sender Unit,
    run sendStep (Sender.fresh true).start sendsGreetings = some s ∧ Quiet s ∧
      s.wire = ascii "YWJj\n\n" := by
  have hrun : ((run sendStep (Sender.fresh true).start sendsGreetings).map fun s =>
      (s.calling (), s.writes, s.wire)) = some (false, [], ascii "YWJj\n\n") := by decide
  obtain ⟨s, hs, hfields⟩ := Option.map_eq_some_iff.mp hrun
  simp only [Prod.mk.injEq] at hfields
  obtain ⟨hcall, hidle, hwire⟩ := hfields
  exact ⟨s, hs, ⟨fun _ => hcall, hidle⟩, hwire⟩

theorem delivery_greetings :
    receive Base64.decode [] [ascii "YW", ascii "Jj\n\n"] = .ok ([ascii "abc"], []) := by
  obtain ⟨s, hrun, hquiet, hwire⟩ := sendsGreetings_run
  exact delivery true greetings sendsGreetings s [ascii "YW", ascii "Jj\n\n"] greetings_complete
    hrun rfl (by decide) hquiet hwire.symm

/-- The list that is sent and the list that is delivered differ by the empty message. -/
theorem empty_message_lost :
    ¬ ∀ (flag : Bool) (msgs : List StdString) (as : List (SendAction Unit)) (s : Sender Unit)
      (chunks : List Bytes), (∀ msg ∈ msgs, Completes msg) →
      run sendStep (Sender.fresh flag).start as = some s → sentMessages as = msgs →
      (∀ a ∈ as, a.transmits = true) → Quiet s → chunks.flatten = s.wire →
      receive Base64.decode [] chunks = .ok (msgs.map StdString.bytes, []) := by
  intro h
  obtain ⟨s, hrun, hquiet, hwire⟩ := sendsGreetings_run
  have hall := h true greetings sendsGreetings s [ascii "YWJj\n\n"] greetings_complete hrun rfl
    (by decide) hquiet hwire.symm
  have hlost : receive Base64.decode [] [ascii "YWJj\n\n"] = .ok ([ascii "abc"], []) := by
    decide +kernel
  rw [hlost] at hall
  simp [greetings] at hall

end Diginext.Tcp
