import Diginext.Client.Machine
import Diginext.Foundations.Layers
import Diginext.Foundations.Transition

/-! # What the client is told of one connection

`handle_connect` raises how the attempt to connect has ended, and `handle_read` every message and at last
the error of the reads. Between the completion of an operation and the listeners of the client there are
the handlers of `tcp_client`, which the close routine disconnects while any thread may be anywhere, and
listeners that throw.

`ConversingClient` records what the completions call for. The client raises the first part of it, in its
order, whatever the threads do, and it always has the form of a `Conversation`: nothing before the
attempt to connect has ended, no message after one that has failed, and none after the error of a read
(`conversation_raised`). -/
namespace Diginext.Client
open Cpp Layers Transition
open Server (ErrorCode)
set_option autoImplicit false

/-! ## Told and raised -/

/-- An event of the loop's own operations. The others report a disconnection, which any thread can ask
for, and a failed write. -/
def Event.converses : Event → Bool
  | onDisconnected | onSendError _ _ => false
  | _ => true

def conversation (raised : List Event) : List Event := raised.filter Event.converses

structure ConversingClient (T : Type) where
  client : TcpClient T
  told : List Event

def ConversingClient.connected {T : Type} : ConversingClient T := ⟨.connected, []⟩

/-- The events that a completion calls for. -/
def tells {T : Type} (s : TcpClient T) : Action T → List Event
  | .dispatch (.connect error) =>
    if s.closed then [.onConnectionTimedOut]
    else
      match error with
      | some error => [.onConnectionError error]
      | none => [.onConnectionSuccess]
  | .dispatch (.read messages) => messages.map .onReadMessage
  | .dispatch (.readError error n) =>
    if error = .eof ∨ error = .connection_reset then [] else [.onReadError error n]
  | _ => []

def ConversingClient.step {T : Type} [DecidableEq T] (loop : T) (w : ConversingClient T) (a : Action T) :
    Option (ConversingClient T) :=
  match TcpClient.step loop w.client a with
  | some client => some ⟨client, w.told ++ tells w.client a⟩
  | none => none

/-- What can be told of one connection. -/
inductive Conversation : List Event → Prop where
  | pending : Conversation []
  | timedOut : Conversation [.onConnectionTimedOut]
  | refused (error : ErrorCode) : Conversation [.onConnectionError error]
  | connected (messages : List Bytes) :
    Conversation (.onConnectionSuccess :: messages.map .onReadMessage)
  | failed (messages : List Bytes) (error : ErrorCode) (n : ℕ) :
    Conversation (.onConnectionSuccess :: messages.map .onReadMessage ++ [.onReadError error n])

theorem messages_prefix {events : List Event} {messages : List Bytes}
    (h : events <+: messages.map .onReadMessage) :
    ∃ first : List Bytes, events = first.map .onReadMessage := by
  refine ⟨messages.take events.length, ?_⟩
  rw [List.map_take]
  exact List.prefix_iff_eq_take.mp h

/-- A conversation can break off at any moment. -/
theorem Conversation.initial {events told : List Event} (h : Conversation told)
    (hpre : events <+: told) : Conversation events := by
  cases events with
  | nil => exact .pending
  | cons event events =>
    cases h with
    | pending =>
      have hnil := List.prefix_nil.mp hpre
      cases hnil
    | timedOut =>
      obtain ⟨rfl, hrest⟩ := List.cons_prefix_cons.mp hpre
      rw [List.prefix_nil.mp hrest]
      exact .timedOut
    | refused error =>
      obtain ⟨rfl, hrest⟩ := List.cons_prefix_cons.mp hpre
      rw [List.prefix_nil.mp hrest]
      exact .refused error
    | connected messages =>
      obtain ⟨rfl, hrest⟩ := List.cons_prefix_cons.mp hpre
      obtain ⟨first, rfl⟩ := messages_prefix hrest
      exact .connected first
    | failed messages error n =>
      obtain ⟨rfl, hrest⟩ := List.cons_prefix_cons.mp hpre
      rcases List.prefix_concat_iff.mp hrest with heq | hrest
      · rw [heq]
        exact .failed messages error n
      · obtain ⟨first, rfl⟩ := messages_prefix hrest
        exact .connected first

/-! ## What a stack still has to raise -/

def Frame.carries : Frame → Option Event
  | handler event => if event.converses then some event else none
  | _ => none

def Frame.reads : Frame → Option (List Bytes)
  | reading messages => some messages
  | _ => none

def Frame.events : Frame → List Event
  | handler event => if event.converses then [event] else []
  | reading messages => messages.map .onReadMessage
  | _ => []

def unraised (frames : List Frame) : List Event := frames.flatMap Frame.events

/-- A call that has nothing to do with the conversation. -/
def Frame.light (frame : Frame) : Prop := frame.carries = none ∧ frame.reads = none

abbrev Layered (frames : List Frame) : Prop :=
  Layers.Layered (fun frame => frame.carries = none) (fun frame => frame.reads = none) frames

theorem Frame.light.events {frame : Frame} (h : frame.light) : frame.events = [] := by
  cases frame with
  | handler event =>
    have hcarries := h.1
    simp only [carries] at hcarries
    split at hcarries
    · cases hcarries
    · rename_i hother
      simp [Frame.events, hother]
  | reading messages => cases h.2
  | _ => rfl

theorem handler_light {event : Event} (h : event.converses = false) : (Frame.handler event).light := by
  simp [Frame.light, Frame.carries, Frame.reads, h]

theorem unraised_light {frames : List Frame} (h : ∀ frame ∈ frames, frame.light) :
    unraised frames = [] := by
  simp only [unraised, List.flatMap_eq_nil_iff]
  exact fun frame hframe => (h frame hframe).events

theorem unraised_append (frames frames' : List Frame) :
    unraised (frames ++ frames') = unraised frames ++ unraised frames' :=
  List.flatMap_append

theorem conversation_append (raised raised' : List Event) :
    conversation (raised ++ raised') = conversation raised ++ conversation raised' :=
  List.filter_append ..

section Invariant
variable {T : Type}

theorem emission_light (s : TcpClient T) {event : Event} (h : event.converses = false) :
    ∀ frame ∈ s.emission event, frame.light := by
  intro frame hframe
  unfold TcpClient.emission at hframe
  split at hframe
  · rw [List.mem_singleton.mp hframe]
    exact handler_light h
  · cases hframe

/-! ## In order -/

/-- Nothing of the conversation will be raised any more: the handlers are disconnected and none is
running, or the event loop has ended. -/
def Deaf (loop : T) (s : TcpClient T) : Prop :=
  (s.slots = false ∧ ∀ frame ∈ s.stack loop, frame.carries = none) ∨
    (s.running = false ∧ s.stack loop = [])

def InOrder (loop : T) (w : ConversingClient T) : Prop :=
  conversation w.client.raised ++ unraised (w.client.stack loop) = w.told ∨
    conversation w.client.raised <+: w.told ∧ Deaf loop w.client

theorem InOrder.initial {loop : T} {w : ConversingClient T} (h : InOrder loop w) :
    conversation w.client.raised <+: w.told := by
  rcases h with h | h
  · exact ⟨_, h⟩
  · exact h.1

/-- The attempt to connect is outstanding, or messages come, or there is nothing more to come. -/
inductive Phase (loop : T) (w : ConversingClient T) : Prop where
  | connecting (htold : w.told = []) (hreading : w.client.reading = false)
    (hstill : ∀ frame ∈ w.client.stack loop, frame.reads = none)
  | reading (messages : List Bytes) (hconnecting : w.client.connecting = false)
    (htold : w.told = .onConnectionSuccess :: messages.map .onReadMessage)
  | finished (hconnecting : w.client.connecting = false) (hreading : w.client.reading = false)
    (htold : Conversation w.told) (hstill : ∀ frame ∈ w.client.stack loop, frame.reads = none)

theorem Phase.conversation {loop : T} {w : ConversingClient T} (h : Phase loop w) :
    Conversation w.told := by
  cases h with
  | connecting htold hreading hstill =>
    rw [htold]
    exact .pending
  | reading messages hconnecting htold =>
    rw [htold]
    exact .connected messages
  | finished hconnecting hreading htold hstill => exact htold

/-- The phase rests on the outstanding operations and on the messages held back. -/
theorem Phase.next {loop : T} {w : ConversingClient T} (h : Phase loop w) {s' : TcpClient T}
    (hconnecting : s'.connecting = w.client.connecting) (hreading : s'.reading = w.client.reading)
    (hstill : (∀ frame ∈ w.client.stack loop, frame.reads = none) →
      ∀ frame ∈ s'.stack loop, frame.reads = none) : Phase loop ⟨s', w.told⟩ := by
  cases h with
  | connecting htold hnone hheld => exact .connecting htold (hreading.trans hnone) (hstill hheld)
  | reading messages hdone htold => exact .reading messages (hconnecting.trans hdone) htold
  | finished hdone hnone htold hheld =>
    exact .finished (hconnecting.trans hdone) (hreading.trans hnone) htold (hstill hheld)

structure Conversing (loop : T) (w : ConversingClient T) : Prop where
  others : ∀ t, t ≠ loop → ∀ frame ∈ w.client.stack t, frame.light
  layered : Layered (w.client.stack loop)
  order : InOrder loop w
  phase : Phase loop w

theorem connected_conversing (loop : T) :
    Conversing loop (ConversingClient.connected : ConversingClient T) where
  others := by
    intro t _ frame hframe
    cases hframe
  layered := layered_of_all (by simp [ConversingClient.connected, TcpClient.connected])
  order := Or.inl rfl
  phase := .connecting rfl rfl (by simp [ConversingClient.connected, TcpClient.connected])

/-- Nothing that the conversation rests on has changed. -/
structure Keeps (s s' : TcpClient T) : Prop where
  raised : conversation s'.raised = conversation s.raised
  slots : s'.slots = s.slots
  connecting : s'.connecting = s.connecting
  reading : s'.reading = s.reading
  running : s'.running = s.running

variable [DecidableEq T]

/-- Calls that have nothing to do with the conversation begin or end. -/
theorem Conversing.moves {loop t : T} {w : ConversingClient T} (h : Conversing loop w)
    {s' : TcpClient T} (new left rest : List Frame) (hkeeps : Keeps w.client s')
    (hstack : s'.stack = Function.update w.client.stack t (new ++ rest))
    (hold : w.client.stack t = left ++ rest) (hnew : ∀ frame ∈ new, frame.light)
    (hleft : ∀ frame ∈ left, frame.light) (hrest : t = loop → ∀ frame ∈ rest, frame.carries = none)
    (hlive : t = loop → w.client.stack loop ≠ [] ∨ w.client.running = true) :
    Conversing loop ⟨s', w.told⟩ := by
  have hself : s'.stack t = new ++ rest := by rw [hstack, Function.update_self]
  have hother : ∀ u, u ≠ t → s'.stack u = w.client.stack u := by
    intro u hu
    rw [hstack, Function.update_of_ne hu]
  have hmem : ∀ u, ∀ frame ∈ s'.stack u, frame ∈ w.client.stack u ∨ frame.light := by
    intro u frame hframe
    by_cases hu : u = t
    · subst hu
      rw [hself] at hframe
      rcases List.mem_append.mp hframe with hframe | hframe
      · exact Or.inr (hnew frame hframe)
      · rw [hold]
        exact Or.inl (List.mem_append_right _ hframe)
    · rw [hother u hu] at hframe
      exact Or.inl hframe
  have hstill : (∀ frame ∈ w.client.stack loop, frame.reads = none) →
      ∀ frame ∈ s'.stack loop, frame.reads = none := by
    intro hstill frame hframe
    exact (hmem loop frame hframe).elim (hstill frame) fun hlight => hlight.2
  have hunraised : unraised (s'.stack loop) = unraised (w.client.stack loop) := by
    by_cases ht : loop = t
    · subst ht
      rw [hself, hold, unraised_append, unraised_append, unraised_light hnew, unraised_light hleft]
    · rw [hother loop ht]
  refine ⟨?_, ?_, ?_, ?_⟩
  · intro u hu frame hframe
    exact (hmem u frame hframe).elim (h.others u hu frame) id
  · by_cases ht : loop = t
    · subst ht
      have hlayered := h.layered
      rw [hold] at hlayered
      simp only [hself]
      exact hlayered.suffix.calls (fun f hf => (hnew f (List.mem_of_mem_tail hf)).1)
        (fun f hf => (hnew f hf).2) (hrest rfl)
    · simp only [hother loop ht]
      exact h.layered
  · rcases h.order with hintact | ⟨hinitial, hdeaf⟩
    · refine Or.inl ?_
      simp only [hkeeps.raised, hunraised]
      exact hintact
    · refine Or.inr ⟨by simpa only [hkeeps.raised] using hinitial, ?_⟩
      rcases hdeaf with ⟨hslots, hnone⟩ | ⟨hended, hidle⟩
      · refine Or.inl ⟨hkeeps.slots.trans hslots, fun frame hframe => ?_⟩
        exact (hmem loop frame hframe).elim (hnone frame) fun hlight => hlight.1
      · have ht : loop ≠ t := by
          rintro rfl
          rcases hlive rfl with hne | hrunning
          · exact hne hidle
          · rw [hended] at hrunning
            cases hrunning
        exact Or.inr ⟨hkeeps.running.trans hended, (hother loop ht).trans hidle⟩
  · exact h.phase.next hkeeps.connecting hkeeps.reading hstill

/-- A call that has nothing to do with the conversation is followed by others. -/
theorem Conversing.goes {loop t : T} {w : ConversingClient T} (h : Conversing loop w)
    {s' : TcpClient T} {frame : Frame} {rest : List Frame} (hold : w.client.stack t = frame :: rest)
    (hframe : frame.light) (new : List Frame) (hnew : ∀ f ∈ new, f.light)
    (hkeeps : Keeps w.client s')
    (hstack : s'.stack = Function.update w.client.stack t (new ++ rest)) :
    Conversing loop ⟨s', w.told⟩ := by
  refine h.moves new [frame] rest hkeeps hstack (by rw [hold]; rfl) hnew (by simpa using hframe) ?_ ?_
  · rintro rfl f hf
    apply h.layered.inner
    rw [hold]
    exact hf
  · rintro rfl
    rw [hold]
    exact Or.inl (List.cons_ne_nil _ _)

/-- The event loop goes on to calls that may be about the conversation. -/
theorem Conversing.loops {loop : T} {w : ConversingClient T} (h : Conversing loop w)
    {s' : TcpClient T} {told : List Event} (frames : List Frame)
    (hstack : s'.stack = Function.update w.client.stack loop frames) (hlayered : Layered frames)
    (horder : InOrder loop ⟨s', told⟩) (hphase : Phase loop ⟨s', told⟩) :
    Conversing loop ⟨s', told⟩ := by
  refine ⟨?_, ?_, horder, hphase⟩
  · intro u hu frame hframe
    simp only [hstack, Function.update_of_ne hu] at hframe
    exact h.others u hu frame hframe
  · simp only [hstack, Function.update_self]
    exact hlayered

/-! ## What a step keeps -/

/-- Only the event loop has to do with the conversation. -/
theorem Conversing.loop_of_heavy {loop t : T} {w : ConversingClient T} (h : Conversing loop w)
    {frame : Frame} {rest : List Frame} (hold : w.client.stack t = frame :: rest)
    (hframe : ¬ frame.light) : t = loop := by
  by_contra hne
  apply hframe
  apply h.others t hne
  rw [hold]
  exact List.mem_cons_self

omit [DecidableEq T] in
/-- A call on the event loop has messages to raise. -/
theorem Phase.messages {loop : T} {w : ConversingClient T} (h : Phase loop w) (frame : Frame)
    (hmem : frame ∈ w.client.stack loop) (hreads : frame.reads ≠ none) :
    w.client.connecting = false ∧
      ∃ messages : List Bytes, w.told = .onConnectionSuccess :: messages.map .onReadMessage := by
  cases h with
  | connecting htold hreading hstill => exact absurd (hstill frame hmem) hreads
  | reading messages hconnecting htold => exact ⟨hconnecting, messages, htold⟩
  | finished hconnecting hreading htold hstill => exact absurd (hstill frame hmem) hreads

omit [DecidableEq T] in
theorem Phase.attempt {loop : T} {w : ConversingClient T} (h : Phase loop w)
    (hconnecting : w.client.connecting = true) : w.told = [] ∧ w.client.reading = false := by
  cases h with
  | connecting htold hreading hstill => exact ⟨htold, hreading⟩
  | reading messages hdone htold =>
    rw [hdone] at hconnecting
    cases hconnecting
  | finished hdone hreading htold hstill =>
    rw [hdone] at hconnecting
    cases hconnecting

omit [DecidableEq T] in
theorem Phase.underway {loop : T} {w : ConversingClient T} (h : Phase loop w)
    (hreading : w.client.reading = true) : w.client.connecting = false ∧
      ∃ messages : List Bytes, w.told = .onConnectionSuccess :: messages.map .onReadMessage := by
  cases h with
  | connecting htold hnone hstill =>
    rw [hnone] at hreading
    cases hreading
  | reading messages hconnecting htold => exact ⟨hconnecting, messages, htold⟩
  | finished hconnecting hnone htold hstill =>
    rw [hnone] at hreading
    cases hreading

/-- A handler that was found connected raises the signal of the client. -/
theorem Conversing.raises {loop : T} {w : ConversingClient T} (h : Conversing loop w) {event : Event}
    {rest : List Frame} (hold : w.client.stack loop = .handler event :: rest)
    (hevent : event.converses = true) {s' : TcpClient T}
    (hs : s' = { w.client with raised := w.client.raised ++ [event] }.setStack loop
      (.listening event :: rest)) : Conversing loop ⟨s', w.told⟩ := by
  have hlayered := h.layered
  rw [hold] at hlayered
  have hraised : conversation s'.raised = conversation w.client.raised ++ [event] := by
    rw [hs]
    exact (conversation_append _ _).trans (by simp [conversation, hevent])
  have hstack : s'.stack loop = .listening event :: rest := by rw [hs, TcpClient.setStack_self]
  refine h.loops (.listening event :: rest) (by rw [hs]; rfl) (hlayered.swap rfl) ?_ ?_
  · rcases h.order with hintact | ⟨-, hdeaf⟩
    · refine Or.inl ?_
      rw [hold] at hintact
      simp only [hraised, hstack, ← hintact]
      simp [unraised, Frame.events, hevent]
    -- a handler of the conversation that is running contradicts both ways of being deaf
    · rcases hdeaf with ⟨-, hnone⟩ | ⟨-, hidle⟩
      · have hcarries := hnone (.handler event) (by simp [hold])
        simp [Frame.carries, hevent] at hcarries
      · rw [hold] at hidle
        cases hidle
  · refine h.phase.next (by rw [hs]; rfl) (by rw [hs]; rfl) fun hnone frame hframe => ?_
    rw [hstack] at hframe
    rcases List.mem_cons.mp hframe with rfl | hframe
    · rfl
    · exact hnone frame (by simp [hold, hframe])

/-- The loop of `handle_read` raises the next message, if the handler is still connected. -/
theorem Conversing.takes {loop : T} {w : ConversingClient T} (h : Conversing loop w) {msg : Bytes}
    {messages : List Bytes} (hold : w.client.stack loop = [.reading (msg :: messages)]) :
    Conversing loop ⟨w.client.setStack loop
      (w.client.emission (.onReadMessage msg) ++ [.reading messages]), w.told⟩ := by
  obtain ⟨hconnecting, told, htold⟩ := h.phase.messages (.reading (msg :: messages))
    (by simp [hold]) (by simp [Frame.reads])
  refine h.loops _ rfl ?_ ?_ (.reading told hconnecting htold)
  · unfold TcpClient.emission
    split
    · exact ⟨by simp [Frame.carries], by simp [Frame.reads]⟩
    · exact ⟨by simp, by simp⟩
  · cases hslots : w.client.slots with
    | true =>
      rcases h.order with hintact | ⟨-, hdeaf⟩
      · refine Or.inl ?_
        rw [hold] at hintact
        rw [← hintact]
        simp [TcpClient.emission, hslots, TcpClient.setStack, unraised, Frame.events, Event.converses]
      · rcases hdeaf with ⟨hlost, -⟩ | ⟨-, hidle⟩
        · rw [hslots] at hlost
          cases hlost
        · rw [hold] at hidle
          cases hidle
    | false =>
      refine Or.inr ⟨h.order.initial, Or.inl ⟨hslots, ?_⟩⟩
      simp [TcpClient.emission, hslots, Frame.carries]

/-- `handle_read` is done with the messages. -/
theorem Conversing.rereads {loop : T} {w : ConversingClient T} (h : Conversing loop w)
    (hold : w.client.stack loop = [.reading []]) :
    Conversing loop ⟨{ w.client with reading := true }.setStack loop [], w.told⟩ := by
  obtain ⟨hconnecting, told, htold⟩ := h.phase.messages (.reading []) (by simp [hold])
    (by simp [Frame.reads])
  refine h.loops [] rfl (layered_of_all (by simp)) ?_ (.reading told hconnecting htold)
  rcases h.order with hintact | ⟨hinitial, hdeaf⟩
  · refine Or.inl ?_
    rw [← hintact, hold]
    simp [TcpClient.setStack, unraised, Frame.events]
  · refine Or.inr ⟨hinitial, ?_⟩
    rcases hdeaf with ⟨hlost, -⟩ | ⟨-, hidle⟩
    · exact Or.inl ⟨hlost, by simp⟩
    · rw [hold] at hidle
      cases hidle

/-- An exception leaves all calls of a thread; if it was the event loop, `io_service::run` has ended. -/
theorem Conversing.escapes {loop t : T} {w : ConversingClient T} (h : Conversing loop w) :
    Conversing loop ⟨{ w.client with
      running := w.client.running && decide (t ≠ loop) }.setStack t [], w.told⟩ := by
  by_cases ht : t = loop
  · subst ht
    refine h.loops [] rfl (layered_of_all (by simp)) ?_ ?_
    · refine Or.inr ⟨h.order.initial, Or.inr ⟨?_, TcpClient.setStack_self ..⟩⟩
      simp [TcpClient.setStack]
    · exact h.phase.next rfl rfl (by simp)
  · refine h.moves [] (w.client.stack t) [] ⟨rfl, rfl, rfl, rfl, ?_⟩ rfl (List.append_nil _).symm
      (by simp) (h.others t ht) (fun heq => absurd heq ht) fun heq => absurd heq ht
    simp [TcpClient.setStack, ht]

/-- `join` comes back, or its exception goes to the listener that has called `stop`, or ends
`io_service::run`. -/
theorem Conversing.joins {loop t : T} {w : ConversingClient T} (h : Conversing loop w)
    {rest : List Frame} {s' : TcpClient T} (hold : w.client.stack t = .joining :: rest)
    (hs : TcpClient.Joins loop w.client t rest s') : Conversing loop ⟨s', w.told⟩ := by
  cases hs with
  | throws ht =>
    subst ht
    cases rest with
    | nil =>
      have hescapes : Conversing t ⟨{ w.client with
          running := w.client.running && decide (t ≠ t) }.setStack t [], w.told⟩ := h.escapes
      simpa using hescapes
    | cons frame frames =>
      exact h.goes hold ⟨rfl, rfl⟩ [] (by simp) ⟨rfl, rfl, rfl, rfl, by simp [TcpClient.setStack]⟩ rfl
  | joined hother hended hjoinable =>
    exact h.goes hold ⟨rfl, rfl⟩ [] (by simp) ⟨rfl, rfl, rfl, rfl, rfl⟩ rfl

theorem Conversing.advance {loop t : T} {w : ConversingClient T} (h : Conversing loop w)
    {frame : Frame} {rest : List Frame} {s' : TcpClient T} (hold : w.client.stack t = frame :: rest)
    (hs : w.client.advance loop t rest frame = some s') : Conversing loop ⟨s', w.told⟩ := by
  have hsame : ∀ frames : List Frame, Keeps w.client (w.client.setStack t frames) :=
    fun _ => ⟨rfl, rfl, rfl, rfl, rfl⟩
  cases frame with
  | storageDisconnect =>
    cases hs
    split
    · exact h.goes hold ⟨rfl, rfl⟩ [.disconnect, .stop]
        (by simp [Frame.light, Frame.carries, Frame.reads]) (hsame _) rfl
    · exact h.goes hold ⟨rfl, rfl⟩ [] (by simp) (hsame _) rfl
  | disconnect =>
    cases hs
    refine h.goes hold ⟨rfl, rfl⟩ (w.client.emission .onDisconnected ++ [.post]) ?_ (hsame _) ?_
    · intro f hf
      rcases List.mem_append.mp hf with hf | hf
      · exact emission_light w.client rfl f hf
      · rw [List.mem_singleton.mp hf]
        exact ⟨rfl, rfl⟩
    · rw [List.append_assoc]
      rfl
  | post =>
    cases hs
    exact h.goes hold ⟨rfl, rfl⟩ [] (by simp) ⟨rfl, rfl, rfl, rfl, rfl⟩ rfl
  | stop =>
    cases hs
    split
    · exact h.goes hold ⟨rfl, rfl⟩ [.disconnect, .ioStop, .join]
        (by simp [Frame.light, Frame.carries, Frame.reads]) (hsame _) rfl
    · exact h.goes hold ⟨rfl, rfl⟩ [] (by simp) (hsame _) rfl
  | ioStop =>
    cases hs
    exact h.goes hold ⟨rfl, rfl⟩ [] (by simp) ⟨rfl, rfl, rfl, rfl, rfl⟩ rfl
  | join =>
    cases hs
    split
    · exact h.goes hold ⟨rfl, rfl⟩ [.joining] (by simp [Frame.light, Frame.carries, Frame.reads])
        (hsame _) rfl
    · exact h.goes hold ⟨rfl, rfl⟩ [] (by simp) (hsame _) rfl
  | joining => exact h.joins hold (TcpClient.joins_of_join hs)
  | handler event =>
    cases hs
    cases hevent : event.converses with
    | false =>
      refine h.goes hold (handler_light hevent) [.listening event]
        (by simp [Frame.light, Frame.carries, Frame.reads]) ⟨?_, rfl, rfl, rfl, rfl⟩ rfl
      exact (conversation_append _ _).trans (by simp [conversation, hevent])
    | true =>
      obtain rfl := h.loop_of_heavy hold (by simp [Frame.light, Frame.carries, hevent])
      exact h.raises hold hevent rfl
  | listening event => cases hs
  | reading messages =>
    obtain rfl := h.loop_of_heavy hold (by simp [Frame.light, Frame.reads])
    have hlayered := h.layered
    rw [hold] at hlayered
    obtain rfl := hlayered.alone (by simp [Frame.reads])
    cases messages with
    | nil =>
      cases hs
      exact h.rereads hold
    | cons msg messages =>
      cases hs
      exact h.takes hold
  | writing =>
    cases hs
    exact h.goes hold ⟨rfl, rfl⟩ [] (by simp) (hsame _) rfl

/-- A completion brings new events. -/
theorem Conversing.completes {loop : T} {w : ConversingClient T} (h : Conversing loop w)
    (hrunning : w.client.running = true) (hidle : w.client.stack loop = []) {s' : TcpClient T}
    (events : List Event) (frames : List Frame)
    (hstack : s'.stack = Function.update w.client.stack loop frames)
    (hraised : s'.raised = w.client.raised) (hslots : s'.slots = w.client.slots)
    (hlayered : Layered frames) (hopen : w.client.slots = true → unraised frames = events)
    (hclosed : w.client.slots = false → ∀ frame ∈ frames, frame.carries = none)
    (hphase : Phase loop ⟨s', w.told ++ events⟩) : Conversing loop ⟨s', w.told ++ events⟩ := by
  have hself : s'.stack loop = frames := by rw [hstack, Function.update_self]
  refine h.loops frames hstack hlayered ?_ hphase
  cases hconnected : w.client.slots with
  | true =>
    rcases h.order with hintact | ⟨-, hdeaf⟩
    · refine Or.inl ?_
      rw [hidle] at hintact
      simp only [hraised, hself, hopen hconnected, ← hintact]
      simp [unraised]
    · rcases hdeaf with ⟨hlost, -⟩ | ⟨hended, -⟩
      · rw [hconnected] at hlost
        cases hlost
      · rw [hrunning] at hended
        cases hended
  | false =>
    refine Or.inr ⟨?_, Or.inl ⟨hslots.trans hconnected, ?_⟩⟩
    · simp only [hraised]
      exact h.order.initial.trans (List.prefix_append _ _)
    · rw [hself]
      exact hclosed hconnected

/-- The one event of a completion is emitted. -/
theorem Conversing.emits {loop : T} {w : ConversingClient T} (h : Conversing loop w)
    (hrunning : w.client.running = true) (hidle : w.client.stack loop = []) {s' : TcpClient T}
    (event : Event) (hevent : event.converses = true)
    (hstack : s'.stack = Function.update w.client.stack loop (w.client.emission event))
    (hraised : s'.raised = w.client.raised) (hslots : s'.slots = w.client.slots)
    (hphase : (∀ frame ∈ s'.stack loop, frame.reads = none) → Phase loop ⟨s', w.told ++ [event]⟩) :
    Conversing loop ⟨s', w.told ++ [event]⟩ := by
  have hreads : ∀ frame ∈ w.client.emission event, frame.reads = none := by
    intro frame hframe
    unfold TcpClient.emission at hframe
    split at hframe
    · rw [List.mem_singleton.mp hframe]
      rfl
    · cases hframe
  refine h.completes hrunning hidle [event] _ hstack hraised hslots ?_ ?_ ?_ (hphase ?_)
  · unfold TcpClient.emission
    split
    · exact ⟨by simp, by simp⟩
    · exact ⟨by simp, by simp⟩
  · intro hconnected
    simp [TcpClient.emission, hconnected, unraised, Frame.events, hevent]
  · intro hlost
    simp [TcpClient.emission, hlost]
  · rw [hstack, Function.update_self]
    exact hreads

/-- The attempt to connect or a read completes, or a write fails, or the close routine is run. -/
theorem Conversing.dispatch {loop : T} {w : ConversingClient T} (h : Conversing loop w)
    {completion : Completion} (hrunning : w.client.running = true) (hidle : w.client.stack loop = [])
    {s' : TcpClient T} (hs : TcpClient.Dispatches loop w.client completion s') :
    Conversing loop ⟨s', w.told ++ tells w.client (.dispatch completion : Action T)⟩ := by
  cases hs with
  | timedOut error hconnecting hclosed =>
    obtain ⟨htold, hreading⟩ := h.phase.attempt hconnecting
    simp only [tells, hclosed, if_true]
    refine h.emits hrunning hidle .onConnectionTimedOut rfl rfl rfl rfl fun hstill => ?_
    exact .finished rfl hreading (by simp only [htold, List.nil_append]; exact .timedOut) hstill
  | connectError error hconnecting hopen =>
    obtain ⟨htold, hreading⟩ := h.phase.attempt hconnecting
    simp only [tells, hopen, Bool.false_eq_true, if_false]
    refine h.emits hrunning hidle (.onConnectionError error) rfl rfl rfl rfl fun hstill => ?_
    exact .finished rfl hreading (by simp only [htold, List.nil_append]; exact .refused error) hstill
  | connected hconnecting hopen =>
    obtain ⟨htold, hreading⟩ := h.phase.attempt hconnecting
    simp only [tells, hopen, Bool.false_eq_true, if_false]
    refine h.emits hrunning hidle .onConnectionSuccess rfl rfl rfl rfl fun _ => ?_
    exact .reading [] rfl (by simp [htold])
  | read messages hreading =>
    obtain ⟨hconnecting, told, htold⟩ := h.phase.underway hreading
    refine h.completes hrunning hidle (messages.map .onReadMessage) [.reading messages] rfl rfl rfl
      ⟨by simp, by simp⟩ (fun _ => ?_) (by simp [Frame.carries]) ?_
    · simp [unraised, Frame.events]
    · refine .reading (told ++ messages) hconnecting ?_
      rw [htold, List.map_append]
      rfl
  | readError error n hreading =>
    obtain ⟨hconnecting, told, htold⟩ := h.phase.underway hreading
    by_cases hends : error = .eof ∨ error = .connection_reset
    · simp only [tells, if_pos hends]
      have hlight : ∀ frame ∈ w.client.emission .onDisconnected, frame.light :=
        emission_light w.client rfl
      refine h.completes hrunning hidle [] (w.client.emission .onDisconnected) ?_ rfl rfl
        (layered_of_all hlight) (fun _ => unraised_light hlight) (fun _ f hf => (hlight f hf).1) ?_
      · change Function.update w.client.stack loop (w.client.handleReadError error n) = _
        rw [TcpClient.handleReadError, if_pos hends]
      · exact .reading told hconnecting (by rw [htold, List.append_nil])
    · simp only [tells, if_neg hends]
      refine h.emits hrunning hidle (.onReadError error n) rfl ?_ rfl rfl fun hstill => ?_
      · change Function.update w.client.stack loop (w.client.handleReadError error n) = _
        rw [TcpClient.handleReadError, if_neg hends]
      · refine .finished hconnecting rfl ?_ hstill
        rw [htold]
        exact .failed told error n
  | writeError error n =>
    simp only [tells, List.append_nil]
    refine h.moves (w.client.emission (.onSendError error n) ++ [.writing]) [] []
      ⟨rfl, rfl, rfl, rfl, rfl⟩ (by rw [List.append_nil]; rfl) (by rw [hidle]; rfl) ?_ (by simp)
      (by simp) fun _ => Or.inr hrunning
    intro frame hframe
    rcases List.mem_append.mp hframe with hframe | hframe
    · exact emission_light w.client rfl frame hframe
    · rw [List.mem_singleton.mp hframe]
      exact ⟨rfl, rfl⟩
  | closure hposted =>
    simp only [tells, List.append_nil]
    refine h.loops (w.client.stack loop) (Function.update_eq_self loop _).symm h.layered ?_ ?_
    · rcases h.order with hintact | ⟨hinitial, -⟩
      · exact Or.inl hintact
      · exact Or.inr ⟨hinitial, Or.inl ⟨rfl, by simp [hidle]⟩⟩
    · exact h.phase.next rfl rfl id

theorem entry_light (op : Operation) : (entry op).light := by
  cases op <;> exact ⟨rfl, rfl⟩

/-- An exception ends at a call that catches it. -/
theorem Conversing.caught {loop t : T} {w : ConversingClient T} (h : Conversing loop w) {event : Event}
    {rest : List Frame} (hold : w.client.stack t = .listening event :: rest)
    (hunwind : unwind rest ≠ []) : Conversing loop ⟨w.client.setStack t (unwind rest), w.told⟩ := by
  have hrest : t = loop → ∀ frame ∈ unwind rest, frame.carries = none := by
    rintro rfl frame hframe
    apply h.layered.inner
    rw [hold]
    exact (List.dropWhile_sublist _).subset hframe
  have hsplit : ∃ left, w.client.stack t = left ++ unwind rest ∧ ∀ f ∈ left, f.light := by
    by_cases ht : t = loop
    · subst ht
      have hlayered := h.layered
      rw [hold] at hlayered ⊢
      exact hlayered.unwound ⟨rfl, rfl⟩ hunwind
    · obtain ⟨left, hleft⟩ := List.dropWhile_suffix (fun frame : Frame => !frame.catches) (l := rest)
      have hstack : w.client.stack t = (.listening event :: left) ++ unwind rest := by
        rw [hold]
        exact congrArg _ hleft.symm
      refine ⟨.listening event :: left, hstack, fun f hf => h.others t ht f ?_⟩
      rw [hstack]
      exact List.mem_append_left _ hf
  obtain ⟨left, hstack, hleft⟩ := hsplit
  refine h.moves [] left (unwind rest) ⟨rfl, rfl, rfl, rfl, rfl⟩ rfl hstack (by simp) hleft hrest ?_
  rintro rfl
  rw [hold]
  exact Or.inl (List.cons_ne_nil _ _)

theorem conversing_step {loop : T} {w w' : ConversingClient T} {a : Action T}
    (hs : ConversingClient.step loop w a = some w') :
    TcpClient.step loop w.client a = some w'.client ∧ w'.told = w.told ++ tells w.client a := by
  unfold ConversingClient.step at hs
  split at hs
  · rename_i client hclient
    cases hs
    exact ⟨hclient, rfl⟩
  · cases hs

theorem Conversing.step {loop : T} {w w' : ConversingClient T} {a : Action T} (h : Conversing loop w)
    (hs : ConversingClient.step loop w a = some w') : Conversing loop w' := by
  obtain ⟨hclient, htold⟩ := conversing_step hs
  obtain ⟨s', told⟩ := w'
  subst htold
  cases TcpClient.steps_of_step hclient with
  | dispatch hrunning hidle hd => exact h.dispatch hrunning hidle hd
  | @call t op hidle hloop =>
    simp only [tells, List.append_nil]
    exact h.moves [entry op] [] [] ⟨rfl, rfl, rfl, rfl, rfl⟩ rfl (by rw [hidle]; rfl)
      (by simpa using entry_light op) (by simp) (by simp) fun ht => Or.inr (hloop ht)
  | @callback t event rest op hold =>
    simp only [tells, List.append_nil]
    refine h.goes hold ⟨rfl, rfl⟩ [entry op, .listening event] ?_ ⟨rfl, rfl, rfl, rfl, rfl⟩ rfl
    simpa [Frame.light, Frame.carries, Frame.reads] using entry_light op
  | returns hold =>
    simp only [tells, List.append_nil]
    exact h.goes hold ⟨rfl, rfl⟩ [] (by simp) ⟨rfl, rfl, rfl, rfl, rfl⟩ rfl
  | caught hold hunwind =>
    simp only [tells, List.append_nil]
    exact h.caught hold hunwind
  | escapes hold hunwind =>
    simp only [tells, List.append_nil]
    exact h.escapes
  | advance hold hadvance =>
    simp only [tells, List.append_nil]
    exact h.advance hold hadvance
  | leave hidle =>
    simp only [tells, List.append_nil]
    refine h.loops (w.client.stack loop) (Function.update_eq_self loop _).symm h.layered ?_ ?_
    · rcases h.order with hintact | ⟨hinitial, -⟩
      · exact Or.inl hintact
      · exact Or.inr ⟨hinitial, Or.inr ⟨rfl, hidle⟩⟩
    · exact h.phase.next rfl rfl id
  | finish hended =>
    simp only [tells, List.append_nil]
    exact h.loops (w.client.stack loop) (Function.update_eq_self loop _).symm h.layered h.order
      (h.phase.next rfl rfl id)

/-- **The client is told of a connection in order.** In every run, whatever the threads call and the
listeners throw, what it has raised of the conversation is the first part of what the completions have
called for, and both are conversations. While the loop runs, is idle, and the handlers are connected,
nothing is missing. -/
theorem conversation_raised (loop : T) (as : List (Action T)) (w : ConversingClient T)
    (hrun : run (ConversingClient.step loop) .connected as = some w) :
    conversation w.client.raised <+: w.told ∧ Conversation w.told ∧
      Conversation (conversation w.client.raised) ∧
      (w.client.stack loop = [] → w.client.running = true → w.client.slots = true →
        conversation w.client.raised = w.told) := by
  have h : Conversing loop w :=
    run_invariant (fun _ _ _ hI hs => hI.step hs) (connected_conversing loop) hrun
  have htold := h.phase.conversation
  refine ⟨h.order.initial, htold, htold.initial h.order.initial, ?_⟩
  intro hidle hrunning hslots
  rcases h.order with hintact | ⟨-, hdeaf⟩
  · rw [← hintact, hidle]
    exact (List.append_nil _).symm
  · rcases hdeaf with ⟨hlost, -⟩ | ⟨hended, -⟩
    · rw [hslots] at hlost
      cases hlost
    · rw [hrunning] at hended
      cases hended

end Invariant

/-- Two messages are read and raised. Then the application disconnects, and the read that the close
routine aborts reports its error to nobody. -/
def hangsUp : List (Action Bool) :=
  [.dispatch (.connect none), .advance true, .returns true, .dispatch (.read [[65], [66]]),
    .advance true, .advance true, .returns true, .advance true, .advance true, .returns true,
    .advance true, .call false .disconnect, .advance false, .advance false, .returns false,
    .advance false, .dispatch .closure, .dispatch (.readError (.other 125) 0)]

theorem conversation_raised_hangsUp : ∃ w,
    run (ConversingClient.step true) ConversingClient.connected hangsUp = some w ∧
      w.told = [.onConnectionSuccess, .onReadMessage [65], .onReadMessage [66],
        .onReadError (.other 125) 0] ∧
      w.client.raised = [.onConnectionSuccess, .onReadMessage [65], .onReadMessage [66],
        .onDisconnected] ∧
      conversation w.client.raised <+: w.told ∧ Conversation (conversation w.client.raised) := by
  have hfields : ((run (ConversingClient.step true) ConversingClient.connected hangsUp).map fun w =>
      (w.told, w.client.raised)) = some ([.onConnectionSuccess, .onReadMessage [65],
        .onReadMessage [66], .onReadError (.other 125) 0], [.onConnectionSuccess,
        .onReadMessage [65], .onReadMessage [66], .onDisconnected]) := by decide +kernel
  obtain ⟨w, hw, hfields⟩ := Option.map_eq_some_iff.mp hfields
  obtain ⟨htold, hraised⟩ := Prod.mk.inj hfields
  obtain ⟨hinitial, -, hconversation, -⟩ := conversation_raised true hangsUp w hw
  exact ⟨w, hw, htold, hraised, hinitial, hconversation⟩

end Diginext.Client
