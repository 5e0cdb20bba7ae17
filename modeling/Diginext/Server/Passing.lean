import Diginext.Foundations.Layers
import Diginext.Server.Departure

/-! # What a connection receives is passed on

`handle_read` raises the messages of a read one by one, and `handle_tcp_connection_read_message` raises
each again as an event of the server if it finds the connection. Meanwhile any thread can drop the
handlers of the connection or remove it, and a listener can throw, which ends the event loop.

`IncomingServer` records what the reads of each connection have brought. A message that is not passed on
is followed by no other, since a connection that has lost its handlers or its place in the registry does
not get them back: what the server raises is the first part of what has arrived (`messages_passed_on`).
-/
namespace Diginext.Server
open Cpp Layers Transition
set_option autoImplicit false

/-! ## Arrived and raised -/

structure IncomingServer (T U : Type) where
  server : TcpServer T U
  arrived : Connection → List Bytes

def IncomingServer.started {T U : Type} : IncomingServer T U := ⟨.started, fun _ => []⟩

/-- The messages that a step reads on a connection. -/
def readMessages {T U : Type} (c : Connection) : Action T U → List Bytes
  | .dispatch (.read d messages) => if d = c then messages else []
  | _ => []

def IncomingServer.step {T U : Type} [DecidableEq T] [DecidableEq U] (uuid : Connection → U) (loop : T)
    (w : IncomingServer T U) (a : Action T U) : Option (IncomingServer T U) :=
  match TcpServer.step uuid loop w.server a with
  | some server => some ⟨server, fun c => w.arrived c ++ readMessages c a⟩
  | none => none

def messagesOf (c : Connection) (raised : List Event) : List Bytes :=
  raised.filterMap fun event =>
    match event with
    | .onReadMessage d msg => if d = c then some msg else none
    | _ => none

theorem messagesOf_append (c : Connection) (raised raised' : List Event) :
    messagesOf c (raised ++ raised') = messagesOf c raised ++ messagesOf c raised' :=
  List.filterMap_append

variable {T U : Type}

/-! ## What a stack still has to raise -/

/-- The connection whose message a call is passing on. -/
def Frame.carries : Frame U → Option Connection
  | received c (.message _) | emit (.onReadMessage c _) => some c
  | _ => none

def Frame.reads : Frame U → Option Connection
  | reading c _ => some c
  | _ => none

def Frame.messages (c : Connection) : Frame U → List Bytes
  | received d (.message msg) | emit (.onReadMessage d msg) => if d = c then [msg] else []
  | reading d messages => if d = c then messages else []
  | _ => []

def unraised (c : Connection) (frames : List (Frame U)) : List Bytes := frames.flatMap (Frame.messages c)

/-- A call that has nothing to do with messages. -/
def Frame.light (frame : Frame U) : Prop := frame.carries = none ∧ frame.reads = none

theorem Frame.messages_eq_nil {c : Connection} {frame : Frame U} (hcarries : frame.carries ≠ some c)
    (hreads : frame.reads ≠ some c) : frame.messages c = [] := by
  cases frame with
  | received d notice =>
    cases notice with
    | message msg => simpa [messages, carries] using hcarries
    | readError _ _ | sendError _ _ => rfl
  | emit event =>
    cases event with
    | onReadMessage d msg => simpa [messages, carries] using hcarries
    | _ => rfl
  | reading d messages =>
    have hne : d ≠ c := by simpa [reads] using hreads
    simp [Frame.messages, hne]
  | _ => rfl

theorem Frame.light.messages {frame : Frame U} (h : frame.light) (c : Connection) :
    frame.messages c = [] :=
  Frame.messages_eq_nil (by simp [h.1]) (by simp [h.2])

theorem unraised_light {frames : List (Frame U)} (h : ∀ frame ∈ frames, frame.light) (c : Connection) :
    unraised c frames = [] := by
  simp only [unraised, List.flatMap_eq_nil_iff]
  exact fun frame hframe => (h frame hframe).messages c

theorem unraised_append (c : Connection) (frames frames' : List (Frame U)) :
    unraised c (frames ++ frames') = unraised c frames ++ unraised c frames' :=
  List.flatMap_append

/-- A message is passed on by the innermost call, and read by the outermost. -/
abbrev Layered (frames : List (Frame U)) : Prop :=
  Layers.Layered (fun frame => frame.carries = none) (fun frame => frame.reads = none) frames

/-! ## In order -/

/-- No message of the connection will be raised any more: it has lost its handler, and none is being
passed on; or it has left the registry, and none has been looked up for; or the event loop has ended. -/
def Deaf (loop : T) (s : TcpServer T U) (c : Connection) : Prop :=
  (c ∈ accepted s.raised ∧ s.slots c .onReadMessage = false ∧
    ∀ frame ∈ s.stack loop, frame.carries ≠ some c) ∨
  (c ∈ accepted s.raised ∧ c ∉ s.connections ∧
    ∀ msg, .emit (.onReadMessage c msg) ∉ s.stack loop) ∨
  (s.running = false ∧ s.stack loop = [])

def InOrder (loop : T) (w : IncomingServer T U) (c : Connection) : Prop :=
  messagesOf c w.server.raised ++ unraised c (w.server.stack loop) = w.arrived c ∨
    messagesOf c w.server.raised <+: w.arrived c ∧ Deaf loop w.server c

theorem InOrder.initial {loop : T} {w : IncomingServer T U} {c : Connection} (h : InOrder loop w c) :
    messagesOf c w.server.raised <+: w.arrived c := by
  rcases h with h | h
  · exact ⟨_, h⟩
  · exact h.1

structure Passing (loop : T) (w : IncomingServer T U) : Prop where
  admitted : Admitted loop w.server
  others : ∀ t, t ≠ loop → ∀ frame ∈ w.server.stack t, frame.light
  layered : Layered (w.server.stack loop)
  reading : ∀ c, w.server.reading c = true → c ∈ accepted w.server.raised
  known : ∀ frame ∈ w.server.stack loop, ∀ c, frame.carries = some c ∨ frame.reads = some c →
    c ∈ accepted w.server.raised
  order : ∀ c, InOrder loop w c

theorem started_passing (loop : T) : Passing loop (IncomingServer.started : IncomingServer T U) where
  admitted := started_admitted loop
  others := by
    intro t _ frame hframe
    cases hframe
  layered := layered_of_all (by simp [IncomingServer.started, TcpServer.started])
  reading := by
    intro c hc
    cases hc
  known := by
    intro frame hframe
    cases hframe
  order := fun _ => Or.inl rfl

/-! ## What a step keeps -/

/-- Accepted connections stay accepted, and what they have lost they do not get back. -/
structure Keeps (s s' : TcpServer T U) : Prop where
  accepted : ∀ c ∈ accepted s.raised, c ∈ Server.accepted s'.raised
  connections : ∀ c ∈ Server.accepted s.raised, c ∈ s'.connections → c ∈ s.connections
  slots : ∀ c ∈ Server.accepted s.raised,
    s'.slots c .onReadMessage = true → s.slots c .onReadMessage = true
  reading : ∀ c, s'.reading c = true → s.reading c = true ∨ c ∈ Server.accepted s'.raised

theorem Keeps.quiet {s s' : TcpServer T U} (hraised : Server.accepted s'.raised = Server.accepted s.raised)
    (hconnections : ∀ c ∈ s'.connections, c ∈ s.connections)
    (hslots : ∀ c signal, s'.slots c signal = true → s.slots c signal = true)
    (hreading : ∀ c, s'.reading c = true → s.reading c = true) : Keeps s s' where
  accepted := by
    rw [hraised]
    exact fun _ hc => hc
  connections := fun c _ hc => hconnections c hc
  slots := fun c _ hc => hslots c _ hc
  reading := fun c hc => Or.inl (hreading c hc)

theorem Keeps.same {s s' : TcpServer T U} (hraised : Server.accepted s'.raised = Server.accepted s.raised)
    (hconnections : s'.connections = s.connections) (hslots : s'.slots = s.slots)
    (hreading : s'.reading = s.reading) : Keeps s s' := by
  apply Keeps.quiet hraised
  · rw [hconnections]
    exact fun _ hc => hc
  · rw [hslots]
    exact fun _ _ hc => hc
  · rw [hreading]
    exact fun _ hc => hc

/-- A connection that is deaf stays deaf unless a call takes up a message of it. -/
theorem Deaf.next {loop : T} {s s' : TcpServer T U} {c : Connection} (h : Deaf loop s c)
    (hkeeps : Keeps s s')
    (hcarries : s.slots c .onReadMessage = false → (∀ frame ∈ s.stack loop, frame.carries ≠ some c) →
      ∀ frame ∈ s'.stack loop, frame.carries ≠ some c)
    (hemits : c ∉ s.connections → (∀ msg, .emit (.onReadMessage c msg) ∉ s.stack loop) →
      ∀ msg, .emit (.onReadMessage c msg) ∉ s'.stack loop)
    (hended : s.running = false → s.stack loop = [] → s'.running = false ∧ s'.stack loop = []) :
    Deaf loop s' c := by
  rcases h with ⟨hc, hslot, hnone⟩ | ⟨hc, hgone, hnone⟩ | ⟨hstopped, hidle⟩
  · refine Or.inl ⟨hkeeps.accepted c hc, ?_, hcarries hslot hnone⟩
    cases hslot' : s'.slots c .onReadMessage with
    | false => rfl
    | true =>
      rw [hkeeps.slots c hc hslot'] at hslot
      cases hslot
  · refine Or.inr (Or.inl ⟨hkeeps.accepted c hc, ?_, hemits hgone hnone⟩)
    exact fun hmem => hgone (hkeeps.connections c hc hmem)
  · exact Or.inr (Or.inr (hended hstopped hidle))

variable [DecidableEq T]

/-- Calls that have nothing to do with messages begin or end. -/
theorem Passing.moves {loop t : T} {w : IncomingServer T U} (h : Passing loop w) {s' : TcpServer T U}
    (new left rest : List (Frame U)) (hadmitted : Admitted loop s') (hkeeps : Keeps w.server s')
    (hmessages : ∀ c, messagesOf c s'.raised = messagesOf c w.server.raised)
    (hstack : s'.stack = Function.update w.server.stack t (new ++ rest))
    (hold : w.server.stack t = left ++ rest) (hnew : ∀ frame ∈ new, frame.light)
    (hleft : ∀ frame ∈ left, frame.light)
    (hrest : t = loop → ∀ frame ∈ rest, frame.carries = none) (hrunning : s'.running = w.server.running)
    (hlive : t = loop → w.server.stack loop ≠ [] ∨ w.server.running = true) :
    Passing loop ⟨s', w.arrived⟩ := by
  have hself : s'.stack t = new ++ rest := by rw [hstack, Function.update_self]
  have hother : ∀ u, u ≠ t → s'.stack u = w.server.stack u := by
    intro u hu
    rw [hstack, Function.update_of_ne hu]
  have hmem : ∀ u, ∀ frame ∈ s'.stack u, frame ∈ w.server.stack u ∨ frame.light := by
    intro u frame hframe
    by_cases hu : u = t
    · subst hu
      rw [hself] at hframe
      rcases List.mem_append.mp hframe with hframe | hframe
      · exact Or.inr (hnew frame hframe)
      · rw [hold]
        exact Or.inl (List.mem_append_right _ hframe)
    · rw [hother u hu] at hframe
      exact Or.inl hframe
  have hunraised : ∀ c, unraised c (s'.stack loop) = unraised c (w.server.stack loop) := by
    intro c
    by_cases ht : loop = t
    · subst ht
      rw [hself, hold, unraised_append, unraised_append, unraised_light hnew, unraised_light hleft]
    · rw [hother loop ht]
  refine ⟨hadmitted, ?_, ?_, ?_, ?_, ?_⟩
  · intro u hu frame hframe
    exact (hmem u frame hframe).elim (h.others u hu frame) id
  · by_cases ht : loop = t
    · subst ht
      have hlayered := h.layered
      rw [hold] at hlayered
      simp only [hself]
      exact hlayered.suffix.calls (fun f hf => (hnew f (List.mem_of_mem_tail hf)).1)
        (fun f hf => (hnew f hf).2) (hrest rfl)
    · simp only [hother loop ht]
      exact h.layered
  · intro c hc
    exact (hkeeps.reading c hc).elim (fun hold => hkeeps.accepted c (h.reading c hold)) id
  · intro frame hframe c hc
    rcases hmem loop frame hframe with hframe | hlight
    · exact hkeeps.accepted c (h.known frame hframe c hc)
    · rw [hlight.1, hlight.2] at hc
      simp at hc
  · intro c
    rcases h.order c with hintact | ⟨hinitial, hdeaf⟩
    · refine Or.inl ?_
      simp only [hmessages, hunraised]
      exact hintact
    · refine Or.inr ⟨by simpa only [hmessages] using hinitial, hdeaf.next hkeeps ?_ ?_ ?_⟩
      · intro _ hnone frame hframe
        rcases hmem loop frame hframe with hframe | hlight
        · exact hnone frame hframe
        · simp [hlight.1]
      · intro _ hnone msg hframe
        rcases hmem loop _ hframe with hframe | hlight
        · exact hnone msg hframe
        · cases hlight.1
      · intro hended hidle
        have ht : loop ≠ t := by
          rintro rfl
          rcases hlive rfl with hne | hrun
          · exact hne hidle
          · rw [hended] at hrun
            cases hrun
        exact ⟨by rw [hrunning]; exact hended, by rw [hother loop ht]; exact hidle⟩

/-- A call that has nothing to do with messages is followed by others. -/
theorem Passing.goes {loop t : T} {w : IncomingServer T U} (h : Passing loop w) {s' : TcpServer T U}
    {frame : Frame U} {rest : List (Frame U)} (hold : w.server.stack t = frame :: rest)
    (hframe : frame.light) (new : List (Frame U)) (hnew : ∀ f ∈ new, f.light)
    (hadmitted : Admitted loop s') (hkeeps : Keeps w.server s')
    (hmessages : ∀ c, messagesOf c s'.raised = messagesOf c w.server.raised)
    (hstack : s'.stack = Function.update w.server.stack t (new ++ rest))
    (hrunning : s'.running = w.server.running) : Passing loop ⟨s', w.arrived⟩ := by
  refine h.moves new [frame] rest hadmitted hkeeps hmessages hstack (by rw [hold]; rfl) hnew
    (by simpa using hframe) ?_ hrunning ?_
  · rintro rfl f hf
    apply h.layered.inner
    rw [hold]
    exact hf
  · rintro rfl
    rw [hold]
    exact Or.inl (List.cons_ne_nil _ _)

/-- The event loop goes on to calls that may be about messages. -/
theorem Passing.loops {loop : T} {w : IncomingServer T U} (h : Passing loop w) {s' : TcpServer T U}
    {arrived : Connection → List Bytes} (frames : List (Frame U)) (hadmitted : Admitted loop s')
    (hkeeps : Keeps w.server s') (hstack : s'.stack = Function.update w.server.stack loop frames)
    (hlayered : Layered frames)
    (hknown : ∀ frame ∈ frames, ∀ c, frame.carries = some c ∨ frame.reads = some c →
      c ∈ accepted w.server.raised)
    (horder : ∀ c, InOrder loop ⟨s', arrived⟩ c) : Passing loop ⟨s', arrived⟩ := by
  have hself : s'.stack loop = frames := by rw [hstack, Function.update_self]
  refine ⟨hadmitted, ?_, ?_, ?_, ?_, horder⟩
  · intro u hu frame hframe
    simp only [hstack, Function.update_of_ne hu] at hframe
    exact h.others u hu frame hframe
  · simp only [hself]
    exact hlayered
  · intro c hc
    exact (hkeeps.reading c hc).elim (fun hold => hkeeps.accepted c (h.reading c hold)) id
  · intro frame hframe c hc
    simp only [hself] at hframe
    exact hkeeps.accepted c (hknown frame hframe c hc)

/-! ## What is raised of a message -/

theorem messagesOf_other {c : Connection} {event : Event} (h : ∀ msg, event ≠ .onReadMessage c msg)
    (raised : List Event) : messagesOf c (raised ++ [event]) = messagesOf c raised := by
  rw [messagesOf_append]
  cases event with
  | onReadMessage d msg =>
    have hne : d ≠ c := by
      rintro rfl
      exact h msg rfl
    simp [messagesOf, hne]
  | _ => simp [messagesOf]

theorem messagesOf_self (c : Connection) (msg : Bytes) (raised : List Event) :
    messagesOf c (raised ++ [.onReadMessage c msg]) = messagesOf c raised ++ [msg] := by
  rw [messagesOf_append]
  simp [messagesOf]

omit [DecidableEq T] in
/-- Only the event loop reads messages and passes them on. -/
theorem Passing.loop_of_heavy {loop t : T} {w : IncomingServer T U} (h : Passing loop w)
    {frame : Frame U} {rest : List (Frame U)} (hold : w.server.stack t = frame :: rest)
    (hframe : ¬ frame.light) : t = loop := by
  by_contra hne
  apply hframe
  apply h.others t hne
  rw [hold]
  exact List.mem_cons_self

/-- A call on the event loop is followed by others. Where nothing is raised, no message is lost as long
as the calls that follow have the same messages to raise. -/
theorem Passing.continues {loop : T} {w : IncomingServer T U} (h : Passing loop w) {s' : TcpServer T U}
    (frames : List (Frame U)) (hadmitted : Admitted loop s') (hraised : s'.raised = w.server.raised)
    (hconnections : s'.connections = w.server.connections) (hslots : s'.slots = w.server.slots)
    (hreading : ∀ c, s'.reading c = true → w.server.reading c = true ∨ c ∈ accepted w.server.raised)
    (hstack : s'.stack = Function.update w.server.stack loop frames)
    (hlive : w.server.stack loop ≠ []) (hlayered : Layered frames)
    (hknown : ∀ frame ∈ frames, ∀ c, frame.carries = some c ∨ frame.reads = some c →
      c ∈ accepted w.server.raised)
    (hunraised : ∀ c, unraised c frames = unraised c (w.server.stack loop) ∨ Deaf loop s' c)
    (hcarries : ∀ c, w.server.slots c .onReadMessage = false →
      (∀ frame ∈ w.server.stack loop, frame.carries ≠ some c) → ∀ frame ∈ frames, frame.carries ≠ some c)
    (hemits : ∀ c, c ∉ w.server.connections →
      (∀ msg, .emit (.onReadMessage c msg) ∉ w.server.stack loop) →
        ∀ msg, .emit (.onReadMessage c msg) ∉ frames) :
    Passing loop ⟨s', w.arrived⟩ := by
  have hself : s'.stack loop = frames := by rw [hstack, Function.update_self]
  have hkeeps : Keeps w.server s' := by
    constructor
    · rw [hraised]
      exact fun _ hc => hc
    · rw [hconnections]
      exact fun _ _ hc => hc
    · rw [hslots]
      exact fun _ _ hc => hc
    · rw [hraised]
      exact hreading
  refine h.loops frames hadmitted hkeeps hstack hlayered hknown fun c => ?_
  rcases hunraised c with hsame | hdeaf
  · rcases h.order c with hintact | ⟨hinitial, hdeaf⟩
    · refine Or.inl ?_
      simp only [hraised, hself, hsame]
      exact hintact
    · refine Or.inr ⟨by simpa only [hraised] using hinitial, hdeaf.next hkeeps ?_ ?_ ?_⟩
      · rw [hself]
        exact hcarries c
      · rw [hself]
        exact hemits c
      · exact fun _ hidle => absurd hidle hlive
  · exact Or.inr ⟨by simpa only [hraised] using (h.order c).initial, hdeaf⟩

/-- The loop of `handle_read` raises the next message. -/
theorem Passing.takes {loop : T} {w : IncomingServer T U} (h : Passing loop w) {c : Connection}
    {msg : Bytes} {messages : List Bytes} (hold : w.server.stack loop = [.reading c (msg :: messages)])
    (hslot : w.server.slots c .onReadMessage = true)
    (hadmitted : Admitted loop
      (w.server.setStack loop [.received c (.message msg), .reading c messages])) :
    Passing loop ⟨w.server.setStack loop [.received c (.message msg), .reading c messages],
      w.arrived⟩ := by
  have hc : c ∈ accepted w.server.raised :=
    h.known (.reading c (msg :: messages)) (by simp [hold]) c (Or.inr rfl)
  refine h.continues _ hadmitted rfl rfl rfl (fun _ hd => Or.inl hd) rfl (by simp [hold]) ?_ ?_ ?_ ?_ ?_
  · exact ⟨by simp [Frame.carries], by simp [Frame.reads]⟩
  · intro frame hframe d hd
    have heq : c = d := by
      rcases List.mem_pair.mp hframe with rfl | rfl <;>
        simpa [Frame.carries, Frame.reads] using hd
    exact heq ▸ hc
  · intro d
    refine Or.inl ?_
    rw [hold]
    by_cases hd : c = d
    · simp [unraised, Frame.messages, hd]
    · simp [unraised, Frame.messages, hd]
  · intro d hslot' _ frame hframe
    have hne : c ≠ d := by
      rintro rfl
      rw [hslot] at hslot'
      cases hslot'
    rcases List.mem_pair.mp hframe with rfl | rfl
    · simpa [Frame.carries] using hne
    · simp [Frame.carries]
  · simp

/-- The handler of the signal is no longer connected. -/
theorem Passing.misses {loop : T} {w : IncomingServer T U} (h : Passing loop w) {c : Connection}
    {msg : Bytes} {messages : List Bytes} (hold : w.server.stack loop = [.reading c (msg :: messages)])
    (hslot : w.server.slots c .onReadMessage = false)
    (hadmitted : Admitted loop (w.server.setStack loop [.reading c messages])) :
    Passing loop ⟨w.server.setStack loop [.reading c messages], w.arrived⟩ := by
  have hc : c ∈ accepted w.server.raised :=
    h.known (.reading c (msg :: messages)) (by simp [hold]) c (Or.inr rfl)
  refine h.continues _ hadmitted rfl rfl rfl (fun _ hd => Or.inl hd) rfl (by simp [hold]) ?_ ?_ ?_ ?_ ?_
  · exact ⟨by simp, by simp⟩
  · intro frame hframe d hd
    rw [List.mem_singleton.mp hframe] at hd
    have heq : c = d := by simpa [Frame.carries, Frame.reads] using hd
    exact heq ▸ hc
  · intro d
    by_cases hd : c = d
    · subst hd
      exact Or.inr (Or.inl ⟨hc, hslot, by simp [Frame.carries]⟩)
    · rw [hold]
      exact Or.inl (by simp [unraised, Frame.messages, hd])
  · simp [Frame.carries]
  · simp

/-- `handle_tcp_connection_read_message` finds the connection. -/
theorem Passing.passes {loop : T} {w : IncomingServer T U} (h : Passing loop w) {c : Connection}
    {msg : Bytes} {rest : List (Frame U)} (hold : w.server.stack loop = .received c (.message msg) :: rest)
    (hmem : c ∈ w.server.connections)
    (hadmitted : Admitted loop (w.server.setStack loop (.emit (.onReadMessage c msg) :: rest))) :
    Passing loop ⟨w.server.setStack loop (.emit (.onReadMessage c msg) :: rest), w.arrived⟩ := by
  have hlayered := h.layered
  rw [hold] at hlayered
  have hcarried : (Frame.received (U := U) c (.message msg)).carries = some c := rfl
  refine h.continues _ hadmitted rfl rfl rfl (fun _ hd => Or.inl hd) rfl (by simp [hold]) ?_ ?_ ?_ ?_ ?_
  · exact hlayered.swap rfl
  · intro frame hframe d hd
    rcases List.mem_cons.mp hframe with rfl | hframe
    · exact h.known (.received c (.message msg)) (by simp [hold]) d hd
    · exact h.known frame (by simp [hold, hframe]) d hd
  · intro d
    rw [hold]
    exact Or.inl rfl
  · intro d _ hnone frame hframe
    rcases List.mem_cons.mp hframe with rfl | hframe
    · exact hnone (.received c (.message msg)) (by simp [hold])
    · exact hnone frame (by simp [hold, hframe])
  · intro d hgone hnone msg' hframe
    rcases List.mem_cons.mp hframe with heq | hframe
    · cases heq
      exact hgone hmem
    · exact hnone msg' (by simp [hold, hframe])

/-- `handle_tcp_connection_read_message` does not find the connection. -/
theorem Passing.ignores {loop : T} {w : IncomingServer T U} (h : Passing loop w) {c : Connection}
    {msg : Bytes} {rest : List (Frame U)} (hold : w.server.stack loop = .received c (.message msg) :: rest)
    (hgone : c ∉ w.server.connections) (hadmitted : Admitted loop (w.server.setStack loop rest)) :
    Passing loop ⟨w.server.setStack loop rest, w.arrived⟩ := by
  have hlayered := h.layered
  rw [hold] at hlayered
  have hc : c ∈ accepted w.server.raised :=
    h.known (.received c (.message msg)) (by simp [hold]) c (Or.inl rfl)
  have hpart : ∀ frame ∈ rest, frame ∈ w.server.stack loop := by
    intro frame hframe
    rw [hold]
    exact List.mem_cons_of_mem _ hframe
  refine h.continues _ hadmitted rfl rfl rfl (fun _ hd => Or.inl hd) rfl (by simp [hold])
    hlayered.below ?_ ?_ ?_ ?_
  · exact fun frame hframe d hd => h.known frame (hpart frame hframe) d hd
  · intro d
    by_cases hd : c = d
    · subst hd
      refine Or.inr (Or.inr (Or.inl ⟨hc, hgone, fun msg' hframe => ?_⟩))
      rw [TcpServer.setStack_self] at hframe
      have hnone := hlayered.inner _ hframe
      cases hnone
    · rw [hold]
      exact Or.inl (by simp [unraised, Frame.messages, hd])
  · exact fun d _ hnone frame hframe => hnone frame (hpart frame hframe)
  · exact fun d _ hnone msg' hframe => hnone msg' (hpart _ hframe)

/-- `handle_read` is done with the messages. -/
theorem Passing.rereads {loop : T} {w : IncomingServer T U} (h : Passing loop w) {c : Connection}
    (hold : w.server.stack loop = [.reading c []])
    (hadmitted : Admitted loop
      ({ w.server with reading := Function.update w.server.reading c true }.setStack loop [])) :
    Passing loop
      ⟨{ w.server with reading := Function.update w.server.reading c true }.setStack loop [],
        w.arrived⟩ := by
  have hc : c ∈ accepted w.server.raised := h.known (.reading c []) (by simp [hold]) c (Or.inr rfl)
  refine h.continues _ hadmitted rfl rfl rfl ?_ rfl (by simp [hold]) (layered_of_all (by simp)) (by simp)
    ?_ (by simp) (by simp)
  · intro d hd
    by_cases heq : d = c
    · exact Or.inr (heq ▸ hc)
    · exact Or.inl ((Function.update_of_ne heq _ _).symm.trans hd)
  · intro d
    rw [hold]
    exact Or.inl (by simp [unraised, Frame.messages])

/-- The message is raised. -/
theorem Passing.raises {loop : T} {w : IncomingServer T U} (h : Passing loop w) {c : Connection}
    {msg : Bytes} {rest : List (Frame U)} {s' : TcpServer T U}
    (hold : w.server.stack loop = .emit (.onReadMessage c msg) :: rest)
    (hs : s' = { w.server with raised := w.server.raised ++ [Event.onReadMessage c msg] }.setStack loop
      (.listening (.onReadMessage c msg) :: rest))
    (hadmitted : Admitted loop s') : Passing loop ⟨s', w.arrived⟩ := by
  have hlayered := h.layered
  rw [hold] at hlayered
  have haccepted : accepted s'.raised = accepted w.server.raised := by
    rw [hs]
    exact accepted_append_other (by simp) w.server.raised
  have hkeeps : Keeps w.server s' := by
    subst hs
    exact Keeps.same haccepted rfl rfl rfl
  have hpart : ∀ frame ∈ rest, frame ∈ w.server.stack loop := by
    intro frame hframe
    rw [hold]
    exact List.mem_cons_of_mem _ hframe
  have hstack : s'.stack loop = .listening (.onReadMessage c msg) :: rest := by
    rw [hs, TcpServer.setStack_self]
  refine h.loops (.listening (.onReadMessage c msg) :: rest) hadmitted hkeeps (by rw [hs]; rfl) ?_ ?_ ?_
  · exact hlayered.swap rfl
  · intro frame hframe d hd
    rcases List.mem_cons.mp hframe with rfl | hframe
    · simp [Frame.carries, Frame.reads] at hd
    · exact h.known frame (hpart frame hframe) d hd
  · intro d
    by_cases hd : c = d
    · subst hd
      rcases h.order c with hintact | ⟨-, hdeaf⟩
      · refine Or.inl ?_
        rw [hold] at hintact
        simp only [hs, TcpServer.setStack, messagesOf_self, ← hintact]
        simp [unraised, Frame.messages]
      -- a connection whose message is being raised is not deaf
      · rcases hdeaf with ⟨-, -, hnone⟩ | ⟨-, -, hnone⟩ | ⟨-, hidle⟩
        · exact absurd rfl (hnone (.emit (.onReadMessage c msg)) (by simp [hold]))
        · exact absurd (by simp [hold]) (hnone msg)
        · rw [hold] at hidle
          cases hidle
    · have hmessages : messagesOf d s'.raised = messagesOf d w.server.raised := by
        rw [hs]
        refine messagesOf_other (fun msg' heq => ?_) w.server.raised
        cases heq
        exact hd rfl
      rcases h.order d with hintact | ⟨hinitial, hdeaf⟩
      · refine Or.inl ?_
        simp only [hmessages, hstack]
        rw [← hintact, hold]
        simp [unraised, Frame.messages, hd]
      · refine Or.inr ⟨by simpa only [hmessages] using hinitial, hdeaf.next hkeeps ?_ ?_ ?_⟩
        · intro _ hnone frame hframe
          rw [hstack] at hframe
          rcases List.mem_cons.mp hframe with rfl | hframe
          · simp [Frame.carries]
          · exact hnone frame (hpart frame hframe)
        · intro _ hnone msg' hframe
          rw [hstack] at hframe
          rcases List.mem_cons.mp hframe with heq | hframe
          · cases heq
          · exact hnone msg' (hpart _ hframe)
        · intro _ hidle
          rw [hold] at hidle
          cases hidle

/-- An accepted connection is a new one. -/
theorem Passing.registers {loop t : T} {w : IncomingServer T U} (h : Passing loop w) {c : Connection}
    {rest : List (Frame U)} (hold : w.server.stack t = .register c :: rest)
    (hadmitted : Admitted loop ((w.server.handleAccept t c).setStack t
      (.listening (.onAccepted c) :: .finishAccept :: rest))) :
    Passing loop ⟨(w.server.handleAccept t c).setStack t
      (.listening (.onAccepted c) :: .finishAccept :: rest), w.arrived⟩ := by
  obtain ⟨-, hunseen, -, -⟩ := h.admitted.ticket hold
  have hne : ∀ d ∈ accepted w.server.raised, d ≠ c := by
    rintro d hd rfl
    exact hunseen hd
  have haccepted : ∀ d, d ∈ accepted (w.server.raised ++ [.onAccepted c]) ↔
      d ∈ accepted w.server.raised ∨ d = c := by
    intro d
    rw [accepted_append_self, List.mem_append, List.mem_singleton]
  refine h.goes hold ⟨rfl, rfl⟩ [.listening (.onAccepted c), .finishAccept]
    (by simp [Frame.light, Frame.carries, Frame.reads]) hadmitted ?_ ?_ rfl rfl
  · constructor
    · exact fun d hd => (haccepted d).mpr (Or.inl hd)
    · intro d hd hmem
      rcases List.mem_append.mp hmem with hmem | hmem
      · exact hmem
      · exact absurd (List.mem_singleton.mp hmem) (hne d hd)
    · intro d hd hslot
      exact (congrFun (Function.update_of_ne (hne d hd) _ _) _).symm.trans hslot
    · intro d hd
      by_cases heq : d = c
      · exact Or.inr ((haccepted d).mpr (Or.inr heq))
      · exact Or.inl ((Function.update_of_ne heq _ _).symm.trans hd)
  · exact fun d => messagesOf_other (by simp) w.server.raised

/-! ## One step -/

variable [DecidableEq U] {uuid : Connection → U}

omit [DecidableEq T] in
/-- The look-up of a connection finds no other. -/
theorem Passing.finds {loop : T} {w : IncomingServer T U} (h : Passing loop w)
    (hdistinct : Distinct uuid w.server.created) {c p : Connection}
    (hc : c ∈ accepted w.server.raised)
    (hfound : w.server.getConnectionByUUID uuid (uuid c) = some p) : p = c ∧ c ∈ w.server.connections := by
  obtain ⟨hp, heq⟩ := TcpServer.getConnectionByUUID_some hfound
  have hpc : p = c := hdistinct p c (h.admitted.created p (h.admitted.registered p hp))
    (h.admitted.created c hc) heq
  exact ⟨hpc, hpc ▸ hp⟩

omit [DecidableEq T] [DecidableEq U] in
theorem slots_cleared (s : TcpServer T U) (c d : Connection) (signal : Signal)
    (hslot : Function.update s.slots c (fun _ => false) d signal = true) : s.slots d signal = true := by
  by_cases hd : d = c
  · subst hd
    rw [Function.update_self] at hslot
    cases hslot
  · rwa [Function.update_of_ne hd] at hslot

omit [DecidableEq U] in
theorem entry_light (uuid : Connection → U) (op : Operation U) : (TcpServer.entry uuid op).light := by
  cases op <;> exact ⟨rfl, rfl⟩

omit [DecidableEq T] in
/-- What a call goes on to has to do with messages only if the call has. -/
theorem follows_light {s : TcpServer T U} {frame : Frame U} {new : List (Frame U)}
    (hframe : frame.light) (hf : TcpServer.Follows uuid s frame new) : ∀ f ∈ new, f.light := by
  intro f hmem
  cases hf with
  | notFound _ | noneLeft | ignored _ | written _ => cases hmem
  | found _ | copied =>
    rw [List.mem_singleton.mp hmem]
    exact ⟨rfl, rfl⟩
  | each c cs => rcases List.mem_pair.mp hmem with rfl | rfl <;> exact ⟨rfl, rfl⟩
  | stop c => rcases TcpServer.mem_emission_concat hmem with rfl | rfl <;> exact ⟨rfl, rfl⟩
  | @passed c p notice hfound =>
    rw [List.mem_singleton.mp hmem]
    cases notice with
    | message msg => cases hframe.1
    | readError _ _ | sendError _ _ => exact ⟨rfl, rfl⟩
  | message c msg messages => cases hframe.2

theorem Passing.follows {loop t : T} {w : IncomingServer T U} (h : Passing loop w)
    (hdistinct : Distinct uuid w.server.created) {frame : Frame U} {new rest : List (Frame U)}
    (hold : w.server.stack t = frame :: rest)
    (hadmitted : Admitted loop (w.server.setStack t (new ++ rest)))
    (hf : TcpServer.Follows uuid w.server frame new) :
    Passing loop ⟨w.server.setStack t (new ++ rest), w.arrived⟩ := by
  by_cases hlight : frame.light
  · exact h.goes hold hlight new (follows_light hlight hf) hadmitted
      (Keeps.same rfl rfl rfl rfl) (fun _ => rfl) rfl rfl
  · obtain rfl := h.loop_of_heavy hold hlight
    have hknown := h.known frame (by simp [hold])
    cases hf with
    | @passed c p notice hfound =>
      cases notice with
      | message msg =>
        obtain ⟨rfl, hmem⟩ := h.finds hdistinct (hknown c (Or.inl rfl)) hfound
        exact h.passes hold hmem hadmitted
      | readError _ _ | sendError _ _ => exact absurd ⟨rfl, rfl⟩ hlight
    | @ignored c notice hnone =>
      cases notice with
      | message msg => exact h.ignores hold (TcpServer.not_registered_of_lookup hnone) hadmitted
      | readError _ _ | sendError _ _ => exact absurd ⟨rfl, rfl⟩ hlight
    | message c msg messages =>
      have hlayered := h.layered
      rw [hold] at hlayered
      obtain rfl := hlayered.alone (by simp [Frame.reads])
      unfold TcpServer.emission at hadmitted ⊢
      cases hslot : w.server.slots c .onReadMessage with
      | true =>
        rw [hslot] at hadmitted
        exact h.takes hold hslot hadmitted
      | false =>
        rw [hslot] at hadmitted
        exact h.misses hold hslot hadmitted
    | _ => exact absurd ⟨rfl, rfl⟩ hlight

theorem Passing.advance {loop t : T} {w : IncomingServer T U} (h : Passing loop w)
    (hdistinct : Distinct uuid w.server.created) {frame : Frame U} {rest : List (Frame U)}
    {s' : TcpServer T U} (hold : w.server.stack t = frame :: rest)
    (hs : w.server.advance uuid t rest frame = some s') : Passing loop ⟨s', w.arrived⟩ := by
  have hadmitted := h.admitted.advance hold hs
  cases TcpServer.advances_of_advance uuid hs with
  | follows hf => exact h.follows hdistinct hold hadmitted hf
  | post c | notFound _ =>
    exact h.goes hold ⟨rfl, rfl⟩ [] (by simp) hadmitted
      (Keeps.same rfl rfl rfl rfl) (fun _ => rfl) rfl rfl
  | @found c p hfound =>
    exact h.goes hold ⟨rfl, rfl⟩ [.dropSlots c p] (by simp [Frame.light, Frame.carries, Frame.reads])
      hadmitted (Keeps.same rfl rfl rfl rfl) (fun _ => rfl)
      rfl rfl
  | dropSlots c p =>
    exact h.goes hold ⟨rfl, rfl⟩ [.erase p] (by simp [Frame.light, Frame.carries, Frame.reads])
      hadmitted (Keeps.quiet rfl (fun _ hd => hd) (slots_cleared w.server c) fun _ hd => hd) (fun _ => rfl) rfl rfl
  | erase p =>
    exact h.goes hold ⟨rfl, rfl⟩ [.recheck p] (by simp [Frame.light, Frame.carries, Frame.reads])
      hadmitted (Keeps.quiet rfl (fun _ hd => List.mem_of_mem_eraseP hd) (fun _ _ hd => hd)
        fun _ hd => hd) (fun _ => rfl) rfl rfl
  | @again p q hfound =>
    exact h.goes hold ⟨rfl, rfl⟩ [.erase p] (by simp [Frame.light, Frame.carries, Frame.reads])
      hadmitted (Keeps.same rfl rfl rfl rfl) (fun _ => rfl)
      rfl rfl
  | @removed p hnone =>
    exact h.goes hold ⟨rfl, rfl⟩ [.emit (.onDisconnected p)]
      (by simp [Frame.light, Frame.carries, Frame.reads]) hadmitted
      (Keeps.same rfl rfl rfl rfl) (fun _ => rfl) rfl rfl
  | emit event =>
    by_cases hlight : (Frame.emit (U := U) event).light
    · have hquiet : ∀ c msg, event ≠ .onReadMessage c msg := by
        rintro c msg rfl
        cases hlight.1
      exact h.goes hold hlight [.listening event] (by simp [Frame.light, Frame.carries, Frame.reads])
        hadmitted (Keeps.same (accepted_append_other (h.admitted.not_accepted hold) w.server.raised) rfl rfl rfl)
        (fun c => messagesOf_other (hquiet c) w.server.raised) rfl rfl
    · obtain rfl := h.loop_of_heavy hold hlight
      cases event with
      | onReadMessage c msg => exact h.raises hold rfl hadmitted
      | _ => exact absurd ⟨rfl, rfl⟩ hlight
  | read c =>
    obtain rfl := h.loop_of_heavy hold (by simp [Frame.light, Frame.reads])
    have hlayered := h.layered
    rw [hold] at hlayered
    obtain rfl := hlayered.alone (by simp [Frame.reads])
    exact h.rereads hold hadmitted
  | register c hsync => exact h.registers hold hadmitted
  | finishAccept =>
    exact h.goes hold ⟨rfl, rfl⟩ [] (by simp) hadmitted
      (Keeps.same rfl rfl rfl rfl) (fun _ => rfl) rfl rfl

omit [DecidableEq U] in
/-- A read completes with the messages of its data. -/
theorem Passing.arrives {loop : T} {w : IncomingServer T U} (h : Passing loop w) {c : Connection}
    (messages : List Bytes) (hrunning : w.server.running = true) (hidle : w.server.stack loop = [])
    (hread : w.server.reading c = true) {s' : TcpServer T U}
    (hs : s' = { w.server with
      reading := Function.update w.server.reading c false }.setStack loop [.reading c messages])
    (hadmitted : Admitted loop s') :
    Passing loop ⟨s', fun d => w.arrived d ++ if c = d then messages else []⟩ := by
  have hc := h.reading c hread
  have hstack : s'.stack loop = [.reading c messages] := by rw [hs, TcpServer.setStack_self]
  have hraised : s'.raised = w.server.raised := by rw [hs]; rfl
  have hkeeps : Keeps w.server s' := by
    subst hs
    refine Keeps.quiet rfl (fun _ hd => hd) (fun _ _ hd => hd) fun d hd => ?_
    by_cases heq : d = c
    · exact heq ▸ hread
    · exact (Function.update_of_ne heq _ _).symm.trans hd
  refine h.loops [.reading c messages] hadmitted hkeeps (by rw [hs]; rfl) ⟨by simp, by simp⟩ ?_ ?_
  · intro frame hframe d hd
    rw [List.mem_singleton.mp hframe] at hd
    have heq : c = d := by simpa [Frame.carries, Frame.reads] using hd
    exact heq ▸ hc
  · intro d
    rcases h.order d with hintact | ⟨hinitial, hdeaf⟩
    · refine Or.inl ?_
      simp only [hraised, hstack, ← hintact, hidle]
      simp [unraised, Frame.messages]
    · refine Or.inr ⟨?_, hdeaf.next hkeeps ?_ ?_ ?_⟩
      · simp only [hraised]
        exact hinitial.trans (List.prefix_append _ _)
      · simp [hstack, Frame.carries]
      · simp [hstack]
      · intro hended
        rw [hended] at hrunning
        cases hrunning

omit [DecidableEq U] in
theorem Passing.dispatch {loop : T} {w : IncomingServer T U} (h : Passing loop w) {s' : TcpServer T U}
    {completion : Completion} (hrunning : w.server.running = true)
    (hidle : w.server.stack loop = []) (hs : TcpServer.Dispatches loop w.server completion s') :
    Passing loop ⟨s', fun c => w.arrived c ++ readMessages c (.dispatch completion : Action T U)⟩ := by
  have hadmitted := h.admitted.dispatch hs
  have hmoves : ∀ {s' : TcpServer T U} (frames : List (Frame U)), Admitted loop s' →
      Keeps w.server s' → s'.raised = w.server.raised → s'.running = w.server.running →
      s'.stack = Function.update w.server.stack loop frames → (∀ frame ∈ frames, frame.light) →
        Passing loop ⟨s', w.arrived⟩ := by
    intro s' frames hadmitted hkeeps hraised hsame hstack hframes
    exact h.moves frames [] [] hadmitted hkeeps (by rw [hraised]; exact fun _ => rfl)
      (by rw [hstack, List.append_nil]) (by rw [hidle]; rfl) hframes (by simp) (by simp) hsame
      fun _ => Or.inr hrunning
  cases hs with
  | read messages hread => exact h.arrives messages hrunning hidle hread rfl hadmitted
  | accept hc =>
    simp only [readMessages, List.append_nil]
    exact hmoves [.register _] hadmitted (Keeps.same rfl rfl rfl rfl) rfl rfl rfl
      (by simp [Frame.light, Frame.carries, Frame.reads])
  | acceptError error hc =>
    simp only [readMessages, List.append_nil]
    exact hmoves [.emit (.onAcceptError _ error), .register _] hadmitted (Keeps.same rfl rfl rfl rfl)
      rfl rfl rfl (by simp [Frame.light, Frame.carries, Frame.reads])
  | @readError c error n hread =>
    simp only [readMessages, List.append_nil]
    refine hmoves (w.server.handleReadError c error n) hadmitted ?_ rfl rfl rfl fun frame hframe => ?_
    · refine Keeps.quiet rfl (fun _ hd => hd) (fun _ _ hd => hd) fun d hd => ?_
      by_cases heq : d = c
      · exact heq ▸ hread
      · exact (Function.update_of_ne heq _ _).symm.trans hd
    · rcases TcpServer.mem_handleReadError hframe with rfl | rfl <;> exact ⟨rfl, rfl⟩
  | writeError c error n =>
    simp only [readMessages, List.append_nil]
    refine hmoves _ hadmitted (Keeps.same rfl rfl rfl rfl) rfl rfl rfl fun frame hframe => ?_
    rcases TcpServer.mem_emission_concat hframe with rfl | rfl <;> exact ⟨rfl, rfl⟩
  | @closure c posted hc =>
    simp only [readMessages, List.append_nil]
    refine hmoves [] hadmitted
      (Keeps.quiet rfl (fun _ hd => hd) (slots_cleared w.server c) fun _ hd => hd) rfl rfl ?_ (by simp)
    rw [← hidle]
    exact (Function.update_eq_self loop w.server.stack).symm

omit [DecidableEq U] in
/-- An exception leaves all calls of a thread; if it was the event loop, `io_service::run` has ended. -/
theorem Passing.escapes {loop t : T} {w : IncomingServer T U} (h : Passing loop w)
    (hadmitted : Admitted loop ({ w.server with
      running := w.server.running && decide (t ≠ loop) }.setStack t [])) :
    Passing loop ⟨{ w.server with
      running := w.server.running && decide (t ≠ loop) }.setStack t [], w.arrived⟩ := by
  by_cases ht : t = loop
  · subst ht
    refine h.loops [] hadmitted (Keeps.same rfl rfl rfl rfl) rfl (layered_of_all (by simp)) (by simp)
      fun c => Or.inr ⟨(h.order c).initial, Or.inr (Or.inr ⟨?_, TcpServer.setStack_self ..⟩)⟩
    simp [TcpServer.setStack]
  · exact h.moves [] (w.server.stack t) [] hadmitted (Keeps.same rfl rfl rfl rfl) (fun _ => rfl) rfl
      (List.append_nil _).symm (by simp) (h.others t ht) (fun heq => absurd heq ht)
      (by simp [TcpServer.setStack, ht]) fun heq => absurd heq ht

omit [DecidableEq U] in
/-- An exception ends at a call that catches it. -/
theorem Passing.caught {loop t : T} {w : IncomingServer T U} (h : Passing loop w) {event : Event}
    {rest : List (Frame U)} (hold : w.server.stack t = .listening event :: rest)
    (hunwind : TcpServer.unwind rest ≠ [])
    (hadmitted : Admitted loop (w.server.setStack t (TcpServer.unwind rest))) :
    Passing loop ⟨w.server.setStack t (TcpServer.unwind rest), w.arrived⟩ := by
  have hpart : ∀ frame ∈ TcpServer.unwind rest, frame ∈ rest := fun frame hframe =>
    (List.dropWhile_sublist _).subset hframe
  have hlive : t = loop → w.server.stack loop ≠ [] ∨ w.server.running = true := by
    rintro rfl
    rw [hold]
    exact Or.inl (List.cons_ne_nil _ _)
  have hrest : t = loop → ∀ frame ∈ TcpServer.unwind rest, frame.carries = none := by
    rintro rfl frame hframe
    apply h.layered.inner
    rw [hold]
    exact hpart frame hframe
  have hsplit : ∃ left, w.server.stack t = left ++ TcpServer.unwind rest ∧ ∀ f ∈ left, f.light := by
    by_cases ht : t = loop
    · subst ht
      have hlayered := h.layered
      rw [hold] at hlayered ⊢
      exact hlayered.unwound ⟨rfl, rfl⟩ hunwind
    · obtain ⟨left, hleft⟩ := List.dropWhile_suffix (fun frame : Frame U => !frame.catches) (l := rest)
      have hstack : w.server.stack t = (.listening event :: left) ++ TcpServer.unwind rest := by
        rw [hold]
        exact congrArg _ hleft.symm
      refine ⟨.listening event :: left, hstack, fun f hf => h.others t ht f ?_⟩
      rw [hstack]
      exact List.mem_append_left _ hf
  obtain ⟨left, hstack, hleft⟩ := hsplit
  exact h.moves [] left (TcpServer.unwind rest) hadmitted (Keeps.same rfl rfl rfl rfl) (fun _ => rfl)
    rfl hstack (by simp) hleft hrest rfl hlive

theorem incoming_step {loop : T} {w w' : IncomingServer T U} {a : Action T U}
    (hs : IncomingServer.step uuid loop w a = some w') :
    TcpServer.step uuid loop w.server a = some w'.server ∧
      w'.arrived = fun c => w.arrived c ++ readMessages c a := by
  unfold IncomingServer.step at hs
  split at hs
  · rename_i server hserver
    cases hs
    exact ⟨hserver, rfl⟩
  · cases hs

theorem Passing.step {loop : T} {w w' : IncomingServer T U} {a : Action T U} (h : Passing loop w)
    (hdistinct : Distinct uuid w.server.created) (hs : IncomingServer.step uuid loop w a = some w') :
    Passing loop w' := by
  obtain ⟨hserver, harrived⟩ := incoming_step hs
  have hadmitted := h.admitted.step hserver
  obtain ⟨s', arrived⟩ := w'
  subst harrived
  cases TcpServer.steps_of_step uuid hserver with
  | dispatch hrunning hidle hd => exact h.dispatch hrunning hidle hd
  | @call t op hidle hloop =>
    simp only [readMessages, List.append_nil]
    exact h.moves [TcpServer.entry uuid op] [] [] hadmitted (Keeps.same rfl rfl rfl rfl)
      (fun _ => rfl) rfl (by rw [hidle]; rfl) (by simpa using entry_light uuid op) (by simp) (by simp)
      rfl fun ht => Or.inr (hloop ht)
  | @callback t event rest op hold =>
    simp only [readMessages, List.append_nil]
    refine h.goes hold ⟨rfl, rfl⟩ [TcpServer.entry uuid op, .listening event] ?_ hadmitted
      (Keeps.same rfl rfl rfl rfl) (fun _ => rfl) rfl rfl
    simpa [Frame.light, Frame.carries, Frame.reads] using entry_light uuid op
  | returns hold =>
    simp only [readMessages, List.append_nil]
    exact h.goes hold ⟨rfl, rfl⟩ [] (by simp) hadmitted (Keeps.same rfl rfl rfl rfl) (fun _ => rfl)
      rfl rfl
  | caught hold hunwind =>
    simp only [readMessages, List.append_nil]
    exact h.caught hold hunwind hadmitted
  | escapes hold hunwind =>
    simp only [readMessages, List.append_nil]
    exact h.escapes hadmitted
  | advance hold hadvance =>
    simp only [readMessages, List.append_nil]
    exact h.advance hdistinct hold hadvance

/-! ## Whole runs -/

omit [DecidableEq T] [DecidableEq U] in
/-- Nothing is lost for a connection that is registered and has its handler. -/
theorem Passing.complete {loop : T} {w : IncomingServer T U} (h : Passing loop w) {c : Connection}
    (hidle : w.server.stack loop = []) (hrunning : w.server.running = true)
    (hmem : c ∈ w.server.connections) (hslot : w.server.slots c .onReadMessage = true) :
    messagesOf c w.server.raised = w.arrived c := by
  rcases h.order c with hintact | ⟨-, hdeaf⟩
  · rw [← hintact, hidle]
    exact (List.append_nil _).symm
  · rcases hdeaf with ⟨-, hlost, -⟩ | ⟨-, hgone, -⟩ | ⟨hended, -⟩
    · rw [hslot] at hlost
      cases hlost
    · exact absurd hmem hgone
    · rw [hrunning] at hended
      cases hended

/-- **Messages are passed on in order, and up to the first that is lost.** In every run, whatever the
threads call and the listeners throw, the `onReadMessage` that the server has raised for a connection
are the first messages that have arrived on it. They are all of them when the event loop is idle and
the connection is registered with its handler. -/
theorem messages_passed_on (uuid : Connection → U) (loop : T) (as : List (Action T U))
    (w : IncomingServer T U)
    (hrun : run (IncomingServer.step uuid loop) IncomingServer.started as = some w)
    (hdistinct : Distinct uuid w.server.created) (c : Connection) :
    messagesOf c w.server.raised <+: w.arrived c ∧
      (w.server.stack loop = [] → w.server.running = true → c ∈ w.server.connections →
        w.server.slots c .onReadMessage = true → messagesOf c w.server.raised = w.arrived c) := by
  have hcreated : ∀ (w : IncomingServer T U) (a : Action T U) (w' : IncomingServer T U),
      IncomingServer.step uuid loop w a = some w' → Distinct uuid w'.server.created →
        Distinct uuid w.server.created := by
    intro w a w' hs hlater c d hc hd
    have hle := step_created (incoming_step hs).1
    exact hlater c d (Nat.lt_of_lt_of_le hc hle) (Nat.lt_of_lt_of_le hd hle)
  have hpassing : Passing loop w := run_invariant_to hcreated
    (fun w a w' hI hlater hs => hI.step (hcreated w a w' hs hlater) hs) (started_passing loop) hrun
    hdistinct
  exact ⟨(hpassing.order c).initial, fun hidle hrunning hmem hslot =>
    hpassing.complete hidle hrunning hmem hslot⟩

/-- Of the messages on the first connection one is passed on; then another thread disconnects it. The
message on the second connection is passed on. -/
def oneOfTwo : List (Action Bool ℕ) :=
  acceptOne ++ acceptOne ++ [.dispatch (.read 0 [[65], [66]]), .advance true, .advance true,
    .advance true, .call false (.disconnect 0), .advance false, .advance false, .advance false,
    .advance false, .advance false, .advance false, .advance false, .returns false, .advance false,
    .returns true, .advance true, .advance true, .dispatch (.read 1 [[67]]), .advance true,
    .advance true, .advance true, .returns true, .advance true]

theorem messages_passed_on_oneOfTwo : ∃ w,
    run (IncomingServer.step id true) IncomingServer.started oneOfTwo = some w ∧
      w.arrived 0 = [[65], [66]] ∧ w.arrived 1 = [[67]] ∧ messagesOf 0 w.server.raised = [[65]] ∧
      messagesOf 0 w.server.raised <+: w.arrived 0 ∧ messagesOf 1 w.server.raised = w.arrived 1 := by
  have hraised : ((run (IncomingServer.step id true) IncomingServer.started oneOfTwo).map fun w =>
      (w.arrived 0, w.arrived 1, messagesOf 0 w.server.raised)) =
      some ([[65], [66]], [[67]], [[65]]) := by decide +kernel
  have hleft : ((run (IncomingServer.step id true) IncomingServer.started oneOfTwo).map fun w =>
      (w.server.stack true, w.server.running, w.server.connections,
        w.server.slots 1 .onReadMessage)) = some ([], true, [1], true) := by decide +kernel
  obtain ⟨w, hw, hfields⟩ := Option.map_eq_some_iff.mp hraised
  rw [hw] at hleft
  simp only [Option.map_some, Option.some.injEq, Prod.mk.injEq] at hleft hfields
  obtain ⟨hzero, hone, hraised⟩ := hfields
  obtain ⟨hidle, hrunning, hconnections, hslot⟩ := hleft
  have hdistinct : Distinct (id : Connection → ℕ) w.server.created := fun c d _ _ h => h
  have hmem : 1 ∈ w.server.connections := by simp [hconnections]
  exact ⟨w, hw, hzero, hone, hraised, (messages_passed_on id true oneOfTwo w hw hdistinct 0).1,
    (messages_passed_on id true oneOfTwo w hw hdistinct 1).2 hidle hrunning hmem hslot⟩

end Diginext.Server
