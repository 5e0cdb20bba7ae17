import Diginext.Tcp.Delivery
import Mathlib.Data.Set.Finite.Basic
import Mathlib.Data.Set.Card

/-! # One direction of a connection

The sending half of one end and the receiving half of the other, with the socket between them. Threads
`T` call `send`, writes complete, and the other end reads, all at any time. `queued` records the messages
that `send` has put into `sendBuffer`, `chunks` what has been read and `raised` what has been reported.

The socket is a stream: what is read is what has been written, in any pieces. `async_read_until`
completes when what has arrived holds a delimiter, and `handle_read` takes all of it. A write that fails
may have sent a part of its frame, and `handle_write` goes on with the next one all the same; so what
arrives is what has been sent only on a socket that sends nothing more then (`SocketStops`), or as long
as nothing is missing on the wire. -/
namespace Diginext.Tcp
open Outcomes Cpp Lines Transition
set_option autoImplicit false

/-- `messages` are those of the last read that are still to be raised. -/
structure Link (T : Type) where
  sender : Sender T
  partMessage : Bytes
  messages : List Bytes
  queued : List StdString
  chunks : List Bytes
  raised : List Bytes

inductive LinkAction (T : Type) where
  | send (a : SendAction T)
  | read (chunk : Bytes)
  | raise

/-- The messages that a step puts into `sendBuffer`; an exception of the encoder queues none. -/
def queues {T : Type} : SendAction T → List StdString
  | .push _ msg =>
    match socketMsg msg with
    | .ok _ => [msg]
    | _ => []
  | _ => []

namespace Link
variable {T : Type}

def started (sendStart : Bool) : Link T where
  sender := (Sender.fresh sendStart).start
  partMessage := []
  messages := []
  queued := []
  chunks := []
  raised := []

instance (s : Sender T) : Decidable (Faithful s) := inferInstanceAs (Decidable (_ = _))

/-- Once something is missing on the wire, every other write fails with nothing sent. -/
def takes (s : Sender T) : SendAction T → Bool
  | .complete _ result => decide (Faithful s) || decide (result = .failed 0)
  | _ => true

/-- The step is one of a socket that sends nothing more once something is missing on the wire. -/
def SocketStops (l : Link T) : LinkAction T → Prop
  | .send a => takes l.sender a = true
  | _ => True

instance (l : Link T) (a : LinkAction T) : Decidable (SocketStops l a) :=
  match a with
  | .send a => inferInstanceAs (Decidable (takes l.sender a = true))
  | .read _ => isTrue trivial
  | .raise => isTrue trivial

variable [DecidableEq T]

def step (l : Link T) : LinkAction T → Option (Link T)
  | .send a =>
    match sendStep l.sender a with
    | some sender => some { l with sender := sender, queued := l.queued ++ queues a }
    | none => none
  | .read chunk =>
    if l.messages = [] ∧ delimetr ∈ chunk ∧ l.chunks.flatten ++ chunk <+: l.sender.wire then
      match handleRead Base64.decode quiet l.partMessage chunk with
      | .ok r =>
        some { l with partMessage := r.partMessage, messages := r.raised, chunks := l.chunks ++ [chunk] }
      | _ => none
    else none
  | .raise =>
    match l.messages with
    | [] => none
    | msg :: messages => some { l with messages := messages, raised := l.raised ++ [msg] }

inductive Steps (l : Link T) : LinkAction T → Link T → Prop where
  | send {a : SendAction T} {sender : Sender T} (h : sendStep l.sender a = some sender) :
    Steps l (.send a) { l with sender := sender, queued := l.queued ++ queues a }
  | read {chunk : Bytes} {r : ReadResult} (hdone : l.messages = []) (hline : delimetr ∈ chunk)
      (hreceived : l.chunks.flatten ++ chunk <+: l.sender.wire)
      (hr : handleRead Base64.decode quiet l.partMessage chunk = .ok r) :
    Steps l (.read chunk)
      { l with partMessage := r.partMessage, messages := r.raised, chunks := l.chunks ++ [chunk] }
  | raise {msg : Bytes} {messages : List Bytes} (hmessages : l.messages = msg :: messages) :
    Steps l .raise { l with messages := messages, raised := l.raised ++ [msg] }

theorem steps_of_step {l l' : Link T} {a : LinkAction T} (h : step l a = some l') : Steps l a l' := by
  cases a with
  | send a =>
    simp only [step] at h
    cases hsend : sendStep l.sender a with
    | none =>
      rw [hsend] at h
      cases h
    | some sender =>
      rw [hsend] at h
      cases h
      exact .send hsend
  | read chunk =>
    simp only [step] at h
    split at h
    · rename_i hread
      cases hr : handleRead Base64.decode quiet l.partMessage chunk with
      | ok r =>
        rw [hr] at h
        cases h
        exact .read hread.1 hread.2.1 hread.2.2 hr
      | throws e =>
        rw [hr] at h
        cases h
      | undefined =>
        rw [hr] at h
        cases h
    · cases h
  | raise =>
    simp only [step] at h
    split at h
    · cases h
    · rename_i msg messages hmessages
      cases h
      exact .raise hmessages

end Link

/-! ## What a step of the sender adds -/

section Sending
variable {T : Type}

theorem Sender.Sound.finished_initial {s : Sender T} (h : s.Sound) : s.finished <+: s.pushed := by
  refine List.IsPrefix.trans ?_ h.handed_initial
  rw [h.done, h.offered, List.prefix_append_right_inj]
  match hws : s.writes with
  | [] => exact List.prefix_refl _
  | [w] =>
    cases hw : w.completed with
    | true => simp [hw]
    | false => simp [hw]
  | _ :: _ :: _ =>
    have hone := h.one
    simp [hws] at hone

variable [DecidableEq T]

theorem pushed_step {s s' : Sender T} {a : SendAction T} (h : sendStep s a = some s') :
    s'.pushed.map Element.bytes = s.pushed.map Element.bytes ++ (queues a).map frame := by
  rcases sendStep_cases h with ⟨t, msg, rfl, hpush⟩ | ⟨t, rfl, rfl⟩ |
    ⟨k, w, result, rfl, -, -, rfl⟩ | ⟨k, w, rfl, -, -, rfl⟩
  · unfold Sender.push at hpush
    cases hmsg : socketMsg msg with
    | ok bytes =>
      simp only [hmsg, Option.some.injEq] at hpush
      subst hpush
      simp [queues, hmsg, socketMsg_frame hmsg]
    | throws e =>
      simp only [hmsg, Option.some.injEq] at hpush
      subst hpush
      simp [queues, hmsg]
    | undefined => simp [hmsg] at hpush
  · simp [queues, (asyncWrite_logs true _).1]
  · simp [queues, Sender.complete]
  · simp [queues, Sender.handled, (asyncWrite_logs false _).1]

/-- What is on the wire is an initial part of the frames queued. -/
def InStream (s : Sender T) : Prop := s.wire <+: (s.pushed.map Element.bytes).flatten

theorem flatten_initial {α : Type} {l m : List (List α)} (h : l <+: m) : l.flatten <+: m.flatten := by
  obtain ⟨rest, rfl⟩ := h
  rw [List.flatten_append]
  exact List.prefix_append _ _

theorem WriteResult.sent_initial (result : WriteResult) (buffer : Bytes) :
    result.sent buffer <+: buffer := by
  cases result with
  | transmitted => exact List.prefix_refl _
  | failed n => exact List.take_prefix _ _

/-- Only the completion of a write changes the wire. -/
theorem wire_cases {s s' : Sender T} {a : SendAction T} (h : sendStep s a = some s') :
    (∃ k w result, a = .complete k result ∧ s' = s.complete k w result) ∨
      s'.finished = s.finished ∧ s'.wire = s.wire := by
  rcases sendStep_cases h with ⟨t, msg, rfl, hpush⟩ | ⟨t, rfl, rfl⟩ |
    ⟨k, w, result, rfl, -, -, rfl⟩ | ⟨k, w, rfl, -, -, rfl⟩
  · right
    unfold Sender.push at hpush
    split at hpush <;> cases hpush <;> exact ⟨rfl, rfl⟩
  · exact Or.inr (asyncWrite_logs true { s with calling := Function.update s.calling t false }).2
  · exact Or.inl ⟨k, w, result, rfl, rfl⟩
  · exact Or.inr (asyncWrite_logs false { s with writes := s.writes.eraseIdx k }).2

theorem wire_step {s s' : Sender T} {a : SendAction T} (h : sendStep s a = some s') :
    s.wire <+: s'.wire := by
  rcases wire_cases h with ⟨k, w, result, rfl, rfl⟩ | ⟨-, hwire⟩
  · exact List.prefix_append _ _
  · simp [hwire]

/-- The wire holds no more than the elements whose writes have completed. -/
def Short (s : Sender T) : Prop :=
  s.wire.length ≤ (s.finished.map Element.bytes).flatten.length

omit [DecidableEq T] in
theorem flatten_complete (s : Sender T) (k : ℕ) (w : Write) (result : WriteResult) :
    ((s.complete k w result).finished.map Element.bytes).flatten =
      (s.finished.map Element.bytes).flatten ++ w.element.bytes := by
  simp [Sender.complete]

theorem short_step {s s' : Sender T} {a : SendAction T} (h : Short s) (hs : sendStep s a = some s') :
    Short s' := by
  rcases wire_cases hs with ⟨k, w, result, rfl, rfl⟩ | ⟨hfinished, hwire⟩
  · have hsent := (result.sent_initial w.element.bytes).length_le
    rw [Short, flatten_complete, List.length_append]
    simp only [Sender.complete, List.length_append]
    exact Nat.add_le_add h hsent
  · rw [Short, hfinished, hwire]
    exact h

/-- What is missing on the wire stays missing. -/
theorem faithful_before {s s' : Sender T} {a : SendAction T} (h : Short s)
    (hs : sendStep s a = some s') (hfaithful : Faithful s') : Faithful s := by
  rcases wire_cases hs with ⟨k, w, result, rfl, rfl⟩ | ⟨hfinished, hwire⟩
  · rw [Faithful, flatten_complete] at hfaithful
    have hsent := (result.sent_initial w.element.bytes).length_le
    have hlength := congrArg List.length hfaithful
    simp only [Sender.complete, List.length_append] at hlength
    have hshort : s.wire.length ≤ (s.finished.map Element.bytes).flatten.length := h
    exact (List.append_inj hfaithful (by omega)).1
  · rwa [Faithful, hfinished, hwire] at hfaithful

theorem inStream_step {s s' : Sender T} {a : SendAction T} (hpumping : Pumping s) (h : InStream s)
    (htakes : Link.takes s a = true) (hs : sendStep s a = some s') : InStream s' := by
  have hfinished := flatten_initial ((hpumping.step hs).sound.finished_initial.map Element.bytes)
  have hkept : s'.wire = s.wire → InStream s' := by
    intro hwire
    rw [InStream, hwire, pushed_step hs, List.flatten_append]
    exact h.trans (List.prefix_append _ _)
  rcases wire_cases hs with ⟨k, w, result, rfl, rfl⟩ | ⟨-, hwire⟩
  · simp only [Link.takes, Bool.or_eq_true, decide_eq_true_eq] at htakes
    rcases htakes with hfaithful | hfailed
    · -- nothing is missing on the wire, so the write continues it
      refine List.IsPrefix.trans ?_ hfinished
      simp only [Sender.complete, List.map_append, List.flatten_append, List.map_cons, List.map_nil,
        List.flatten_cons, List.flatten_nil, List.append_nil]
      rw [hfaithful, List.prefix_append_right_inj]
      exact result.sent_initial _
    · apply hkept
      rw [hfailed]
      simp [Sender.complete, WriteResult.sent]
  · exact hkept hwire

end Sending

/-! ## What has been raised -/

namespace Link
variable {T : Type}

/-- Who is between the two steps of a `send`. -/
def callers (l : Link T) : Set T := {t | l.sender.calling t = true}

/-- What holds of a link whatever its socket does. -/
structure Consistent (l : Link T) : Prop where
  pumping : Pumping l.sender
  frames : l.sender.pushed.map Element.bytes = l.queued.map frame
  short : Short l.sender
  received : l.chunks.flatten <+: l.sender.wire
  part : delimetr ∉ l.partMessage
  callers : l.callers.Finite

/-- What has been read is an initial part of the frames queued. -/
structure Sound (l : Link T) : Prop extends Consistent l where
  stream : InStream l.sender
  read : receive Base64.decode [] l.chunks = .ok (l.raised ++ l.messages, l.partMessage)

theorem started_consistent (sendStart : Bool) : Consistent (started sendStart : Link T) where
  pumping := started_pumping sendStart
  frames := rfl
  short := Nat.le_refl _
  received := List.prefix_refl _
  part := List.not_mem_nil
  callers := by simp [Link.callers, started, Sender.fresh, Sender.start]

theorem started_sound (sendStart : Bool) : Sound (started sendStart : Link T) where
  toConsistent := started_consistent sendStart
  stream := List.prefix_refl _
  read := rfl

theorem Sound.initial {l : Link T} (h : l.Sound) :
    l.chunks.flatten <+: (l.queued.map frame).flatten := by
  rw [← h.frames]
  exact h.received.trans h.stream

/-- The messages raised and to be raised are the first of the non-empty messages queued. -/
theorem Sound.delivered {l : Link T} (h : l.Sound) : l.raised ++ l.messages <+: nonEmpty l.queued :=
  received_nonEmpty h.initial h.read

theorem asyncWrite_calling (init : Bool) (s : Sender T) : (s.asyncWrite init).calling = s.calling := by
  have hfront : ∀ s : Sender T, s.writeFront.calling = s.calling := by
    intro s
    match hb : s.sendBuffer with
    | [] => rw [Sender.writeFront_nil hb]
    | msg :: rest => rw [Sender.writeFront_cons hb]
  unfold Sender.asyncWrite
  split
  · split
    · rfl
    · exact hfront _
  · exact hfront _

variable [DecidableEq T]

/-- Who is in a call of `send` after a step of the sender. -/
theorem calling_sendStep {s s' : Sender T} {a : SendAction T} (h : sendStep s a = some s') :
    s'.calling =
      match a with
      | .push t _ => Function.update s.calling t true
      | .pump t => Function.update s.calling t false
      | _ => s.calling := by
  rcases sendStep_cases h with ⟨t, msg, rfl, hpush⟩ | ⟨t, rfl, rfl⟩ |
    ⟨k, w, result, rfl, -, -, rfl⟩ | ⟨k, w, rfl, -, -, rfl⟩
  · unfold Sender.push at hpush
    split at hpush <;> cases hpush <;> rfl
  · exact asyncWrite_calling true _
  · rfl
  · exact asyncWrite_calling false _

theorem callers_finite {s s' : Sender T} {a : SendAction T} (hs : sendStep s a = some s')
    (h : {t | s.calling t = true}.Finite) : {t | s'.calling t = true}.Finite := by
  rw [calling_sendStep hs]
  cases a with
  | push u msg =>
    refine (h.insert u).subset fun t ht => ?_
    by_cases hu : t = u
    · exact Or.inl hu
    · exact Or.inr (by simpa [hu] using ht)
  | pump u =>
    refine h.subset fun t ht => ?_
    by_cases hu : t = u
    · simp [hu] at ht
    · simpa [hu] using ht
  | complete k result | resume k => exact h

theorem Consistent.step {l l' : Link T} {a : LinkAction T} (h : l.Consistent)
    (hs : step l a = some l') : l'.Consistent := by
  cases steps_of_step hs with
  | @send a sender hsend =>
    refine ⟨h.pumping.step hsend, ?_, short_step h.short hsend, ?_, h.part,
      callers_finite hsend h.callers⟩
    · rw [pushed_step hsend, h.frames, List.map_append]
    · exact h.received.trans (wire_step hsend)
  | read hdone hline hreceived hr =>
    refine ⟨h.pumping, h.frames, h.short, by simpa using hreceived, ?_, h.callers⟩
    have hpart := tail_of_not_mem h.part
    rw [← hpart] at hr
    rw [(reference_read hr).2]
    exact not_mem_tail _
  | raise hmessages => exact ⟨h.pumping, h.frames, h.short, h.received, h.part, h.callers⟩

theorem Sound.step {l l' : Link T} {a : LinkAction T} (h : l.Sound) (hs : step l a = some l')
    (hsocket : SocketStops l a) : l'.Sound := by
  refine ⟨h.toConsistent.step hs, ?_, ?_⟩
  · cases steps_of_step hs with
    | send hsend => exact inStream_step h.pumping h.stream hsocket hsend
    | read hdone hline hreceived hr => exact h.stream
    | raise hmessages => exact h.stream
  · cases steps_of_step hs with
    | send hsend => exact h.read
    | read hdone hline hreceived hr =>
      have hread := h.read
      rw [hdone, List.append_nil] at hread
      exact receive_concat hread hr
    | raise hmessages => rw [h.read, hmessages, List.append_assoc, List.singleton_append]

theorem sound_run {sendStart : Bool} {as : List (LinkAction T)} {l : Link T}
    (h : run step (started sendStart) as = some l)
    (hsocket : Meets step SocketStops (started sendStart) as) : l.Sound :=
  (along_of_meets (I := Sound) (fun _ _ _ hI hC hs => hI.step hs hC) (started_sound sendStart)
    hsocket).last h

/-- Nothing can have gone wrong while nothing is missing on the wire. -/
structure Intact (l : Link T) : Prop where
  consistent : l.Consistent
  sound : Faithful l.sender → l.Sound

omit [DecidableEq T] in
theorem started_intact (sendStart : Bool) : Intact (started sendStart : Link T) :=
  ⟨started_consistent sendStart, fun _ => started_sound sendStart⟩

theorem Intact.step {l l' : Link T} {a : LinkAction T} (h : l.Intact) (hs : step l a = some l') :
    l'.Intact := by
  refine ⟨h.consistent.step hs, fun hfaithful => ?_⟩
  have hbefore : Faithful l.sender := by
    cases steps_of_step hs with
    | send hsend => exact faithful_before h.consistent.short hsend hfaithful
    | read hdone hline hreceived hr => exact hfaithful
    | raise hmessages => exact hfaithful
  refine (h.sound hbefore).step hs ?_
  cases a with
  | send a =>
    show takes l.sender a = true
    cases a <;> simp [takes, hbefore]
  | read chunk | raise => trivial

theorem intact_run {sendStart : Bool} {as : List (LinkAction T)} {l : Link T}
    (h : run step (started sendStart) as = some l) : l.Intact :=
  run_invariant (I := Intact) (fun _ _ _ hI hs => hI.step hs) (started_intact sendStart) h

/-! ## A link at rest -/

/-- What goes on when nobody calls `send` and no write fails. -/
def internal : LinkAction T → Bool
  | .send (.push _ _) | .send (.pump _) | .send (.complete _ (.failed _)) => false
  | _ => true

/-- No more of this goes on. -/
def AtRest (l : Link T) : Prop := ∀ a, internal a = true → step l a = none

/-- The steps that the writes of the queue still take. -/
def backlog (s : Sender T) : ℕ :=
  2 * s.sendBuffer.length - (s.writes.filter (·.completed)).length

/-- The steps still to be taken, if a read takes one byte. -/
def remaining (l : Link T) : ℕ :=
  backlog l.sender + ((l.queued.map frame).flatten.length - l.chunks.flatten.length) +
    ((nonEmpty l.queued).length - l.raised.length)

theorem backlog_step {s s' : Sender T} {a : SendAction T} (hpumping : Pumping s)
    (ha : internal (.send a) = true) (hs : sendStep s a = some s') : backlog s' < backlog s := by
  rcases sendStep_cases hs with ⟨t, msg, rfl, hpush⟩ | ⟨t, rfl, rfl⟩ |
    ⟨k, w, result, rfl, hw, hnot, rfl⟩ | ⟨k, w, rfl, hw, hdone, rfl⟩
  · cases ha
  · cases ha
  · obtain ⟨rfl, hsingle, rest, hbuffer⟩ := hpumping.sound.write_cases hw
    have hafter : ((s.complete 0 w result).writes.filter (·.completed)).length = 1 := by
      simp [Sender.complete, hsingle]
    have hbefore : (s.writes.filter (·.completed)).length = 0 := by simp [hsingle, hnot]
    have hkept : (s.complete 0 w result).sendBuffer.length = s.sendBuffer.length := rfl
    have hpos : s.sendBuffer.length = rest.length + 1 := by rw [hbuffer, List.length_cons]
    unfold backlog
    omega
  · obtain ⟨rfl, hsingle, rest, hbuffer⟩ := hpumping.sound.write_cases hw
    have hafter : backlog (s.handled 0) ≤ 2 * rest.length := by
      rw [backlog, Sender.handled, Sender.asyncWrite, if_neg Bool.false_ne_true,
        Sender.writeFront_buffer]
      simp only [hbuffer, List.tail_cons]
      omega
    have hbefore : backlog s = 2 * (rest.length + 1) - 1 := by
      simp [backlog, hsingle, hbuffer, hdone]
    omega

omit [DecidableEq T] in
theorem queues_internal {a : SendAction T} (ha : internal (.send a) = true) : queues a = [] := by
  cases a with
  | push t msg => cases ha
  | pump t => cases ha
  | complete k result => rfl
  | resume k => rfl

/-- Nobody is in a call of `send`, and no write has failed. -/
def Calm (l : Link T) : Prop := (∀ t, l.sender.calling t = false) ∧ Faithful l.sender

theorem Calm.step {l l' : Link T} {a : LinkAction T} (h : l.Calm) (ha : internal a = true)
    (hs : step l a = some l') : l'.Calm := by
  induction steps_of_step hs with
  | send hsend =>
    rename_i a sender
    rcases sendStep_cases hsend with ⟨t, msg, rfl, hpush⟩ | ⟨t, rfl, rfl⟩ |
      ⟨k, w, result, rfl, hw, hnot, rfl⟩ | ⟨k, w, rfl, hw, hdone, rfl⟩
    · cases ha
    · cases ha
    · cases result with
      | failed n => cases ha
      | transmitted =>
        refine ⟨h.1, ?_⟩
        have hwire : l.sender.wire = (l.sender.finished.map Element.bytes).flatten := h.2
        simp [Faithful, Sender.complete, WriteResult.sent, hwire]
    · obtain ⟨hpushed, hfinished, hwire⟩ :=
        asyncWrite_logs false { l.sender with writes := l.sender.writes.eraseIdx k }
      refine ⟨fun t => ?_, ?_⟩
      · rw [Sender.handled, asyncWrite_calling]
        exact h.1 t
      · rw [Faithful, Sender.handled, hfinished, hwire]
        exact h.2
  | read hdone hline hreceived hr => exact h
  | raise hmessages => exact h

theorem queued_internal {l l' : Link T} {a : LinkAction T} (ha : internal a = true)
    (hs : step l a = some l') : l'.queued = l.queued := by
  induction steps_of_step hs with
  | send hsend => simp [queues_internal ha]
  | read hdone hline hreceived hr => rfl
  | raise hmessages => rfl

theorem remaining_step {l l' : Link T} {a : LinkAction T} (h : l.Sound) (hl' : l'.Sound)
    (ha : internal a = true) (hs : step l a = some l') : remaining l' < remaining l := by
  induction steps_of_step hs with
  | send hsend =>
    have hless := backlog_step h.pumping ha hsend
    simp only [remaining, queues_internal ha, List.append_nil]
    omega
  | read hdone hline hreceived hr =>
    have hbound := hl'.initial.length_le
    have hpos := List.length_pos_of_mem hline
    simp only [remaining, List.flatten_append, List.length_append, List.flatten_cons, List.flatten_nil,
      List.append_nil] at hbound ⊢
    omega
  | raise hmessages =>
    have hbound := hl'.delivered.length_le
    simp only [remaining, List.length_append, List.length_singleton] at hbound ⊢
    omega

omit [DecidableEq T] in
theorem Consistent.bounded {l : Link T} (h : l.Consistent) :
    l.chunks.flatten.length ≤ (l.queued.map frame).flatten.length := by
  have hfinished := flatten_initial (h.pumping.sound.finished_initial.map Element.bytes)
  rw [← h.frames]
  exact (h.received.length_le.trans h.short).trans hfinished.length_le

/-- A read brings no more messages than it has bytes. -/
theorem raised_length {partMessage chunk : Bytes} {r : ReadResult} (hpart : delimetr ∉ partMessage)
    (hr : handleRead Base64.decode quiet partMessage chunk = .ok r) :
    r.raised.length ≤ chunk.length := by
  rw [handleRead_eq _ _ (handleRead_defined hr)] at hr
  cases hr
  have hlines : (complete delimetr (partMessage ++ chunk)).length ≤ chunk.length := by
    rw [complete_length, List.count_append, List.count_eq_zero_of_not_mem hpart, Nat.zero_add]
    exact List.count_le_length
  refine Nat.le_trans ?_ hlines
  exact (List.length_filterMap_le _ _).trans (List.length_filter_le _ _)

/-- The same as `remaining` where it is not known what the bytes on the wire are. -/
def todo (l : Link T) : ℕ :=
  backlog l.sender + 2 * ((l.queued.map frame).flatten.length - l.chunks.flatten.length) +
    l.messages.length

theorem todo_step {l l' : Link T} {a : LinkAction T} (h : l.Consistent) (ha : internal a = true)
    (hs : step l a = some l') : todo l' < todo l := by
  have hbound := (h.step hs).bounded
  cases steps_of_step hs with
  | send hsend =>
    have hless := backlog_step h.pumping ha hsend
    simp only [todo, queues_internal ha, List.append_nil]
    omega
  | read hdone hline hreceived hr =>
    have hmessages := raised_length h.part hr
    have hpos := List.length_pos_of_mem hline
    simp only [todo, hdone, List.flatten_append, List.length_append, List.flatten_cons,
      List.flatten_nil, List.append_nil, List.length_nil] at hbound ⊢
    omega
  | raise hmessages =>
    simp only [todo, hmessages, List.length_cons]
    omega

/-- The steps still to be taken, the second steps of the calls of `send` included. -/
noncomputable def due (l : Link T) : ℕ := todo l + l.callers.ncard

omit [DecidableEq T] in
theorem backlog_pump (s : Sender T) : backlog (s.asyncWrite true) = backlog s := by
  have hfront : ∀ s : Sender T, backlog s.writeFront = backlog s := by
    intro s
    match hb : s.sendBuffer with
    | [] => rw [Sender.writeFront_nil hb]; rfl
    | msg :: rest =>
      rw [Sender.writeFront_cons hb]
      simp [backlog]
  unfold Sender.asyncWrite
  split
  · split
    · rfl
    · exact hfront _
  · exact absurd rfl ‹_›

/-- The second step of a `send` is one of those due. -/
theorem due_step {l l' : Link T} {a : LinkAction T} (h : l.Consistent)
    (ha : internal a = true ∨ ∃ u, a = .send (.pump u)) (hs : step l a = some l') : due l' < due l := by
  rcases ha with ha | ⟨u, rfl⟩
  · have hsame : l'.callers = l.callers := by
      cases steps_of_step hs with
      | @send a sender hsend =>
        have hcalling := calling_sendStep hsend
        cases a with
        | push t msg | pump t => cases ha
        | complete k result | resume k => simp only [callers, hcalling]
      | read hdone hline hreceived hr => rfl
      | raise hmessages => rfl
    rw [due, due, hsame]
    exact Nat.add_lt_add_right (todo_step h ha hs) _
  · cases steps_of_step hs with
    | @send a sender hsend =>
      have hcalling := calling_sendStep hsend
      simp only [sendStep] at hsend
      split at hsend
      · rename_i hu
        have htodo :
            todo { l with sender := sender, queued := l.queued ++ queues (.pump u) } = todo l := by
          cases hsend
          simp only [todo, queues, List.append_nil, backlog_pump]
          rfl
        have hless : callers { l with sender := sender, queued := l.queued ++ queues (.pump u) } ⊂
            l.callers := by
          refine ⟨fun t ht => ?_, fun hsub => ?_⟩
          · by_cases heq : t = u
            · rw [heq]
              exact hu
            · simpa [callers, hcalling, heq] using ht
          · have hmem := hsub (show u ∈ l.callers from hu)
            simp [callers, hcalling] at hmem
        rw [due, due, htodo]
        exact Nat.add_lt_add_left (Set.ncard_lt_ncard hless h.callers) _
      · cases hsend

theorem atRest_of_todo {l : Link T} (h : l.Consistent) (hzero : todo l = 0) : AtRest l := by
  intro a ha
  cases hs : step l a with
  | none => rfl
  | some l' =>
    have hless := todo_step h ha hs
    omega

theorem AtRest.writes {l : Link T} (hrest : AtRest l) : l.sender.writes = [] := by
  by_contra hne
  obtain ⟨w, ws, hws⟩ := List.exists_cons_of_ne_nil hne
  have hw : l.sender.writes[0]? = some w := by simp [hws]
  cases hdone : w.completed with
  | false =>
    have hstep := hrest (.send (.complete 0 .transmitted)) rfl
    simp [step, sendStep, hw, hdone] at hstep
  | true =>
    have hstep := hrest (.send (.resume 0)) rfl
    simp [step, sendStep, hw, hdone] at hstep

theorem receive_snoc (decode : Bytes → Result Bytes) (partMessage : Bytes) (chunks : List Bytes)
    (chunk : Bytes) : receive decode partMessage (chunks ++ [chunk]) =
      receive decode partMessage chunks >>= fun x =>
        handleRead decode quiet x.2 chunk >>= fun r => .ok (x.1 ++ r.raised, r.partMessage) := by
  induction chunks generalizing partMessage with
  | nil =>
    simp only [List.nil_append, receive, Outcome.ok_bind]
    cases handleRead decode quiet partMessage chunk <;> simp
  | cons c chunks ih =>
    rw [List.cons_append, receive, receive]
    cases handleRead decode quiet partMessage c with
    | throws e => rfl
    | undefined => rfl
    | ok r =>
      simp only [Outcome.ok_bind, ih]
      cases receive decode r.partMessage chunks with
      | throws e => rfl
      | undefined => rfl
      | ok x =>
        simp only [Outcome.ok_bind, Outcome.pure_eq]
        cases handleRead decode quiet x.2 chunk <;> simp

/-- A stream of frames ends with a delimiter, and so does what is left of it. -/
theorem delimetr_mem_rest {msgs : List StdString} {read rest : Bytes}
    (h : (msgs.map frame).flatten = read ++ rest) (hne : rest ≠ []) : delimetr ∈ rest := by
  have hmsgs : msgs ≠ [] := by
    rintro rfl
    exact hne (List.append_eq_nil_iff.mp h.symm).2
  obtain ⟨before, last, rfl⟩ := (List.eq_nil_or_concat' msgs).resolve_left hmsgs
  have hlast : (read ++ rest).getLast? = some delimetr := by
    rw [← h, List.map_append, List.flatten_append]
    simp [frame]
  rw [List.getLast?_append_of_ne_nil _ hne] at hlast
  exact List.mem_of_getLast? hlast

theorem AtRest.received {l : Link T} (hrest : AtRest l) (h : l.Sound) (hmessages : l.messages = [])
    (hwire : l.sender.wire = (l.queued.map frame).flatten) : l.chunks.flatten = l.sender.wire := by
  obtain ⟨rest, hsplit⟩ := h.received
  by_cases hnil : rest = []
  · rw [← hsplit, hnil, List.append_nil]
  · have hline : delimetr ∈ rest := delimetr_mem_rest (by rw [← hwire, hsplit]) hnil
    have hwhole : (l.chunks ++ [rest]).flatten <+: (l.queued.map frame).flatten := by
      rw [← hwire, ← hsplit]
      simp
    have hread := received_initial l.queued hwhole
    rw [receive_snoc, h.read, Outcome.ok_bind] at hread
    obtain ⟨r, hr, -⟩ := Outcome.bind_eq_ok.mp hread
    have hstep := hrest (.read rest) rfl
    simp [step, hmessages, hline, hsplit, hr] at hstep

theorem AtRest.delivered {l : Link T} (hrest : AtRest l) (h : l.Sound) (hcalm : l.Calm) :
    l.raised = nonEmpty l.queued := by
  obtain ⟨hcalls, hfaithful⟩ := hcalm
  have hidle := hrest.writes
  have hmessages : l.messages = [] := by
    cases hm : l.messages with
    | nil => rfl
    | cons msg messages =>
      have hstep := hrest .raise rfl
      simp [step, hm] at hstep
  have hwire : l.sender.wire = (l.queued.map frame).flatten := by
    have hsound := h.pumping.sound
    have hbuffer := h.pumping.drained hcalls hidle
    have hpushed := hsound.queued
    have hfinished := hsound.done
    rw [hbuffer, List.append_nil] at hpushed
    rw [hidle] at hfinished
    simp only [List.filter_nil, List.map_nil, List.append_nil] at hfinished
    rw [hfaithful, hfinished, ← hpushed, h.frames]
  have hread := hrest.received h hmessages hwire
  have hcomplete : complete delimetr l.chunks.flatten = texts l.queued := by
    rw [hread, hwire, flatten_frames]
    exact (cut_framed (delimetr_not_mem_texts l.queued)).1
  have hall := receive_texts hcomplete
  rw [h.read, hmessages, List.append_nil] at hall
  exact congrArg Prod.fst (Outcome.ok.inj hall)

/-! ## Every interleaving -/

/-- **In order, once, and nothing else.** At every moment of every run on a socket that stops, what has
been raised is an initial part of the non-empty messages queued. -/
theorem raised_initial (sendStart : Bool) (as : List (LinkAction T)) (l : Link T)
    (h : run step (started sendStart) as = some l)
    (hsocket : Meets step SocketStops (started sendStart) as) : l.raised <+: nonEmpty l.queued :=
  (List.prefix_append _ _).trans (sound_run h hsocket).delivered

/-- The greetings are sent, and read in two pieces. -/
def greetingsArrive : List (LinkAction Unit) :=
  sendsGreetings.map .send ++ [.read (ascii "YWJj\n"), .raise, .read (ascii "\n")]

theorem raised_initial_greetings : ∃ l : Link Unit,
    run step (started true) greetingsArrive = some l ∧ l.raised <+: nonEmpty l.queued := by
  have hruns : (run step (started true) greetingsArrive).isSome = true := by decide +kernel
  obtain ⟨l, hl⟩ := Option.isSome_iff_exists.mp hruns
  exact ⟨l, hl, raised_initial true greetingsArrive l hl (by decide +kernel)⟩

/-- **Everything arrives.** From a state in which nobody is in a call of `send` and no write has failed,
what goes on by itself ends, and ends with all messages raised. -/
theorem everything_raised (sendStart : Bool) (as bs : List (LinkAction T)) (l t : Link T)
    (h : run step (started sendStart) as = some l) (hcalm : l.Calm)
    (hinternal : ∀ b ∈ bs, internal b = true) (hr : run step l bs = some t) :
    bs.length ≤ remaining l ∧ (AtRest t → t.raised = nonEmpty l.queued) := by
  have hkeeps : ∀ (u : Link T) (a : LinkAction T) (u' : Link T), u.Intact ∧ u.Calm → internal a = true →
      step u a = some u' → u'.Intact ∧ u'.Calm :=
    fun _ _ _ hI ha hs => ⟨hI.1.step hs, hI.2.step ha hs⟩
  have hlength := length_le_of_decreasing (I := fun u => u.Intact ∧ u.Calm)
    (A := fun a => internal a = true) (μ := remaining) ?_ ⟨intact_run h, hcalm⟩ hinternal hr
  · have hkept : (t.Intact ∧ t.Calm) ∧ t.queued = l.queued := by
      refine run_of_labels (I := fun u => (u.Intact ∧ u.Calm) ∧ u.queued = l.queued)
        (A := fun a => internal a = true) ?_ ⟨⟨intact_run h, hcalm⟩, rfl⟩ hinternal hr
      intro u a u' ⟨hI, hqueued⟩ ha hs
      exact ⟨hkeeps u a u' hI ha hs, (queued_internal ha hs).trans hqueued⟩
    obtain ⟨⟨hintact, hcalm'⟩, hqueued⟩ := hkept
    refine ⟨by omega, fun hrest => ?_⟩
    rw [← hqueued]
    exact hrest.delivered (hintact.sound hcalm'.2) hcalm'
  · intro u a u' hI ha hs
    have hI' := hkeeps u a u' hI ha hs
    exact ⟨hI', remaining_step (hI.1.sound hI.2.2) (hI'.1.sound hI'.2.2) ha hs⟩

/-- Once the writes are over, the reads are what goes on by itself. -/
theorem everything_raised_greetings : ∃ l t : Link Unit,
    run step (started true) (sendsGreetings.map .send) = some l ∧
      run step l [.read (ascii "YWJj\n"), .raise, .read (ascii "\n")] = some t ∧ AtRest t ∧
      t.raised = nonEmpty l.queued := by
  have hruns : ((run step (started true) (sendsGreetings.map .send)).map fun l : Link Unit =>
      (decide (l.sender.calling () = false), decide (Faithful l.sender),
        (run step l [.read (ascii "YWJj\n"), .raise, .read (ascii "\n")]).map todo)) =
      some (true, true, some 0) := by
    decide +kernel
  obtain ⟨l, hl, hstate⟩ := Option.map_eq_some_iff.mp hruns
  simp only [Prod.mk.injEq, decide_eq_true_eq] at hstate
  obtain ⟨t, ht, hzero⟩ := Option.map_eq_some_iff.mp hstate.2.2
  have hcalm : l.Calm := ⟨fun u => hstate.1, hstate.2.1⟩
  have hconsistent : t.Consistent :=
    run_invariant (I := Consistent) (fun _ _ _ hI hs => hI.step hs) (intact_run hl).consistent ht
  have hrest := atRest_of_todo hconsistent hzero
  obtain ⟨-, hall⟩ := everything_raised true _ _ l t hl hcalm (by decide) ht
  exact ⟨l, t, hl, ht, hrest, hall hrest⟩

end Link

end Diginext.Tcp
