import Diginext.Foundations.Cpp
import Mathlib.Logic.Function.Basic

/-! # The threads of `tcp_server`

`core/src/TCP/TCPServer.cpp`, with what it uses of `TCPConnection.cpp`: the registry `connections`, the
signals of the connections and of the server, and the handlers between them. Any number of threads `T`
run code of the server; one of them, `loop`, runs the event loop.

Every thread has a stack of activation records (`Frame`), the innermost first. A step of a thread goes
up to the next critical section of `server_sync`, or to the next emission of a signal, so that all
other threads can run in between. While a thread is in a listener of the server's signals it may call
the server again, return or throw. `uuid` gives the identifier that the constructor generates.
-/
namespace Diginext.Server
open Cpp
set_option autoImplicit false

/-! ## Connections and signals

Connections are numbered in the order in which `tcp_connection::create` makes them. `Signal` are the
signals of a connection that the server listens to, `Event` the emissions of the server's own signals,
and a `Notice` is what the handlers of a connection's signals pass on, `onDisconnected` apart.
-/

abbrev Connection := ℕ

inductive ErrorCode where
  | eof
  | connection_reset
  | other (value : ℕ)
  deriving DecidableEq

inductive Signal where
  | onDisconnected
  | onReadMessage
  | onReadError
  | onSendError
  deriving DecidableEq

inductive Event where
  | onAccepted (c : Connection)
  | onAcceptError (c : Connection) (error : ErrorCode)
  | onDisconnected (c : Connection)
  | onReadMessage (c : Connection) (msg : Bytes)
  | onReadError (c : Connection) (error : ErrorCode) (bytes_transferred : ℕ)
  | onSendError (c : Connection) (error : ErrorCode) (bytes_transferred : ℕ)
  deriving DecidableEq

def Event.connection : Event → Connection
  | onAccepted c | onAcceptError c _ | onDisconnected c | onReadMessage c _ | onReadError c _ _
  | onSendError c _ _ => c

inductive Notice where
  | message (msg : Bytes)
  | readError (error : ErrorCode) (bytes_transferred : ℕ)
  | sendError (error : ErrorCode) (bytes_transferred : ℕ)
  deriving DecidableEq

def Notice.event : Notice → Connection → Event
  | message msg, c => .onReadMessage c msg
  | readError error n, c => .onReadError c error n
  | sendError error n, c => .onSendError c error n

/-! ## Activation records

A frame says where a call stands:

* `disconnectByUUID`, `disconnectAll`: before the look-up with which these functions begin;
  `disconnectEach`: in the loop of `disconnectAll`;
* `stop`: `tcp_connection::stop` before it emits `onDisconnected`; `post`: from the end of its first
  `try` on;
* `disconnected`: `handle_tcp_connection_disconnected` before its `getConnectionByUUID`;
  `dropSlots c p`: once it has found `p`; `erase p`: in the `removeConnectionByUUID` it calls;
  `recheck p`: there, before `getConnectionByUUID`;
* `received`: a handler of a connection's other signals, before its `getConnectionByUUID`;
* `emit`: a handler that is about to emit a signal of the server; `listening`: in the listeners;
* `reading`: the loop of `handle_read` over the messages of a read; `writing`: `handle_write` from the
  end of its `try` on;
* `register`: `handle_accept` before its `try`; `finishAccept`: from the end of its `try` on.
-/

inductive Frame (U : Type) where
  | disconnectByUUID (uuid : U)
  | disconnectAll
  | disconnectEach (connections : List Connection)
  | stop (c : Connection)
  | post (c : Connection)
  | disconnected (c : Connection)
  | dropSlots (c p : Connection)
  | erase (p : Connection)
  | recheck (p : Connection)
  | received (c : Connection) (notice : Notice)
  | emit (event : Event)
  | listening (event : Event)
  | reading (c : Connection) (messages : List Bytes)
  | writing (c : Connection)
  | register (c : Connection)
  | finishAccept
  deriving DecidableEq

/-- The calls around which an exception is caught. -/
def Frame.catches {U : Type} : Frame U → Bool
  | post _ | writing _ | finishAccept => true
  | _ => false

section Handlers
variable {U : Type}

def handleTcpConnectionDisconnected (c : Connection) : Frame U := .disconnected c
def handleTcpConnectionReadMessage (c : Connection) (msg : Bytes) : Frame U :=
  .received c (.message msg)
def handleTcpConnectionReadError (c : Connection) (error : ErrorCode) (n : ℕ) : Frame U :=
  .received c (.readError error n)
def handleTcpConnectionSendError (c : Connection) (error : ErrorCode) (n : ℕ) : Frame U :=
  .received c (.sendError error n)

end Handlers

/-! ## The state

`server_sync` is the thread that holds the mutex, `slots` whether the server's handler is connected to
a signal of a connection, `reading` whether a read of the connection is outstanding, `accepting` the
connection of the outstanding accept and `created` how many connections there are. `posted` are the
closures of `tcp_connection::stop` and `raised` the emissions of the server, both oldest first.
`running` is false once `io_service::run` has ended.

How long a connection object lives is left out: what is bound to a raw `this`, as the posted closures
are, runs here whether or not the last `shared_ptr` has been given up before. -/

structure TcpServer (T U : Type) where
  connections : List Connection
  server_sync : Option T
  slots : Connection → Signal → Bool
  reading : Connection → Bool
  accepting : Option Connection
  created : ℕ
  posted : List Connection
  running : Bool
  stack : T → List (Frame U)
  raised : List Event

/-- A started server: the constructor has called `start_accept`. -/
def TcpServer.started {T U : Type} : TcpServer T U where
  connections := []
  server_sync := none
  slots := fun _ _ => false
  reading := fun _ => false
  accepting := some 0
  created := 1
  posted := []
  running := true
  stack := fun _ => []
  raised := []

/-! ## What can happen

A thread calls an operation (`connectionDisconnect` is `connection->disconnect()`), the listener it is
in returns or throws, or it goes on to its next stop. The event loop dispatches completions: an accept,
a read with the messages that `decode_message` finds in its data, failed reads and writes, and the
closures posted by `tcp_connection::stop`.
-/

inductive Operation (U : Type) where
  | disconnectByUUID (uuid : U)
  | disconnect (connection : Connection)
  | disconnectAll
  | connectionDisconnect (connection : Connection)

inductive Completion where
  | accept (error : Option ErrorCode)
  | read (c : Connection) (messages : List Bytes)
  | readError (c : Connection) (error : ErrorCode) (bytes_transferred : ℕ)
  | writeError (c : Connection) (error : ErrorCode) (bytes_transferred : ℕ)
  | closure

inductive Action (T U : Type) where
  | dispatch (completion : Completion)
  | call (t : T) (op : Operation U)
  | returns (t : T)
  | throws (t : T)
  | advance (t : T)

namespace TcpServer
variable {T U : Type}

/-- The emission of a signal of a connection: the server's handler runs if it is connected. -/
def emission (s : TcpServer T U) (c : Connection) (signal : Signal) (handler : Frame U) :
    List (Frame U) :=
  if s.slots c signal then [handler] else []

theorem mem_emission {s : TcpServer T U} {c : Connection} {signal : Signal} {handler frame : Frame U}
    (h : frame ∈ s.emission c signal handler) : frame = handler := by
  unfold emission at h
  split at h
  · exact List.mem_singleton.mp h
  · cases h

theorem mem_emission_concat {s : TcpServer T U} {c : Connection} {signal : Signal}
    {handler last frame : Frame U} (h : frame ∈ s.emission c signal handler ++ [last]) :
    frame = handler ∨ frame = last :=
  (List.mem_append.mp h).imp mem_emission List.mem_singleton.mp

section Loop
variable [DecidableEq T]

def setStack (s : TcpServer T U) (t : T) (frames : List (Frame U)) : TcpServer T U :=
  { s with stack := Function.update s.stack t frames }

@[simp] theorem setStack_self (s : TcpServer T U) (t : T) (frames : List (Frame U)) :
    (s.setStack t frames).stack t = frames := by
  simp [setStack]

theorem setStack_of_ne (s : TcpServer T U) {t u : T} (h : u ≠ t) (frames : List (Frame U)) :
    (s.setStack t frames).stack u = s.stack u := by
  simp [setStack, h]

def handleReadError (s : TcpServer T U) (c : Connection) (error : ErrorCode) (n : ℕ) :
    List (Frame U) :=
  if error = .eof ∨ error = .connection_reset then
    s.emission c .onDisconnected (handleTcpConnectionDisconnected c)
  else s.emission c .onReadError (handleTcpConnectionReadError c error n)

omit [DecidableEq T] in
theorem mem_handleReadError {s : TcpServer T U} {c : Connection} {error : ErrorCode} {n : ℕ}
    {frame : Frame U} (h : frame ∈ s.handleReadError c error n) :
    frame = handleTcpConnectionDisconnected c ∨ frame = handleTcpConnectionReadError c error n := by
  unfold handleReadError at h
  split at h
  · exact Or.inl (mem_emission h)
  · exact Or.inr (mem_emission h)

def dispatch (s : TcpServer T U) (loop : T) : Completion → Option (TcpServer T U)
  | .accept error =>
    match s.accepting with
    | none => none
    | some c =>
      let s := { s with accepting := none }
      match error with
      | some error => some (s.setStack loop [.emit (.onAcceptError c error), .register c])
      | none => some (s.setStack loop [.register c])
  | .read c messages =>
    if s.reading c then
      let s := { s with reading := Function.update s.reading c false }
      some (s.setStack loop [.reading c messages])
    else none
  | .readError c error n =>
    if s.reading c then
      let s := { s with reading := Function.update s.reading c false }
      some (s.setStack loop (s.handleReadError c error n))
    else none
  | .writeError c error n =>
    some (s.setStack loop
      (s.emission c .onSendError (handleTcpConnectionSendError c error n) ++ [.writing c]))
  | .closure =>
    match s.posted with
    | [] => none
    | c :: posted =>
      some { s with posted := posted, slots := Function.update s.slots c fun _ => false }

end Loop

section Steps
variable [DecidableEq T] [DecidableEq U] (uuid : Connection → U)

def getConnectionByUUID (s : TcpServer T U) (u : U) : Option Connection :=
  s.connections.find? fun c => uuid c = u

omit [DecidableEq T] in
variable {uuid} in
theorem getConnectionByUUID_some {s : TcpServer T U} {u : U} {c : Connection}
    (h : s.getConnectionByUUID uuid u = some c) : c ∈ s.connections ∧ uuid c = u := by
  unfold getConnectionByUUID at h
  exact ⟨List.mem_of_find?_eq_some h, by simpa using List.find?_some h⟩

omit [DecidableEq T] in
variable {uuid} in
theorem not_registered_of_lookup {s : TcpServer T U} {c : Connection}
    (hnone : s.getConnectionByUUID uuid (uuid c) = none) : c ∉ s.connections := by
  intro hmem
  have hnot := List.find?_eq_none.mp hnone c hmem
  simp at hnot

/-- The locked loop of `removeConnectionByUUID`. -/
def removeFirst (s : TcpServer T U) (u : U) : TcpServer T U :=
  { s with connections := s.connections.eraseP fun c => uuid c = u }

/-- The locked part of `handle_accept`, up to the listeners of `onAccepted`. -/
def handleAccept (s : TcpServer T U) (t : T) (c : Connection) : TcpServer T U :=
  { s with
    server_sync := some t
    connections := s.connections ++ [c]
    slots := Function.update s.slots c fun _ => true
    reading := Function.update s.reading c true
    raised := s.raised ++ [.onAccepted c] }

/-- The end of `handle_accept`: the guard is released, and `start_accept`. -/
def startAccept (s : TcpServer T U) : TcpServer T U :=
  { s with server_sync := none, accepting := some s.created, created := s.created + 1 }

/-- `server_sync` is not recursive: whoever holds it, the next to lock it waits. -/
def locked (s : TcpServer T U) (result : TcpServer T U) : Option (TcpServer T U) :=
  if s.server_sync.isSome then none else some result

omit [DecidableEq T] [DecidableEq U] in
theorem locked_eq {s result s' : TcpServer T U} (h : s.locked result = some s') :
    s.server_sync = none ∧ s' = result := by
  unfold locked at h
  split at h
  · cases h
  · rename_i hsync
    exact ⟨by simpa using hsync, (Option.some.inj h).symm⟩

def advance (s : TcpServer T U) (t : T) (rest : List (Frame U)) : Frame U → Option (TcpServer T U)
  | .disconnectByUUID u =>
    s.locked <|
      match s.getConnectionByUUID uuid u with
      | some c => s.setStack t (.stop c :: rest)
      | none => s.setStack t rest
  | .disconnectAll => s.locked <| s.setStack t (.disconnectEach s.connections :: rest)
  | .disconnectEach [] => some (s.setStack t rest)
  | .disconnectEach (c :: cs) =>
    some (s.setStack t (.disconnectByUUID (uuid c) :: .disconnectEach cs :: rest))
  | .stop c =>
    some (s.setStack t
      (s.emission c .onDisconnected (handleTcpConnectionDisconnected c) ++ .post c :: rest))
  | .post c => some ({ s with posted := s.posted ++ [c] }.setStack t rest)
  | .disconnected c =>
    s.locked <|
      match s.getConnectionByUUID uuid (uuid c) with
      | some p => s.setStack t (.dropSlots c p :: rest)
      | none => s.setStack t rest
  | .dropSlots c p =>
    some ({ s with slots := Function.update s.slots c fun _ => false }.setStack t (.erase p :: rest))
  | .erase p => s.locked <| (s.removeFirst uuid (uuid p)).setStack t (.recheck p :: rest)
  | .recheck p =>
    s.locked <|
      match s.getConnectionByUUID uuid (uuid p) with
      | some _ => s.setStack t (.erase p :: rest)
      | none => s.setStack t (.emit (.onDisconnected p) :: rest)
  | .received c notice =>
    s.locked <|
      match s.getConnectionByUUID uuid (uuid c) with
      | some p => s.setStack t (.emit (notice.event p) :: rest)
      | none => s.setStack t rest
  | .emit event =>
    some ({ s with raised := s.raised ++ [event] }.setStack t (.listening event :: rest))
  | .listening _ => none
  | .reading c [] =>
    some ({ s with reading := Function.update s.reading c true }.setStack t rest)
  | .reading c (msg :: messages) =>
    some (s.setStack t (s.emission c .onReadMessage (handleTcpConnectionReadMessage c msg) ++
      .reading c messages :: rest))
  | .writing _ => some (s.setStack t rest)
  | .register c =>
    s.locked <| (s.handleAccept t c).setStack t (.listening (.onAccepted c) :: .finishAccept :: rest)
  | .finishAccept => some (s.startAccept.setStack t rest)

def entry : Operation U → Frame U
  | .disconnectByUUID u => .disconnectByUUID u
  | .disconnect c => .disconnectByUUID (uuid c)
  | .disconnectAll => .disconnectAll
  | .connectionDisconnect c => .stop c

/-- An exception leaves the calls up to the first that catches it. -/
def unwind (rest : List (Frame U)) : List (Frame U) := rest.dropWhile fun frame => !frame.catches

def step (loop : T) (s : TcpServer T U) : Action T U → Option (TcpServer T U)
  | .dispatch completion =>
    if s.running ∧ s.stack loop = [] then s.dispatch loop completion else none
  | .call t op =>
    match s.stack t with
    | [] => if t = loop ∧ ¬ s.running then none else some (s.setStack t [entry uuid op])
    | .listening event :: rest => some (s.setStack t (entry uuid op :: .listening event :: rest))
    | _ => none
  | .returns t =>
    match s.stack t with
    | .listening _ :: rest => some (s.setStack t rest)
    | _ => none
  | .throws t =>
    match s.stack t with
    | .listening _ :: rest =>
      match unwind rest with
      -- out of `io_service::run`
      | [] => some ({ s with running := s.running && decide (t ≠ loop) }.setStack t [])
      | frames => some (s.setStack t frames)
    | _ => none
  | .advance t =>
    match s.stack t with
    | [] => none
    | frame :: rest => s.advance uuid t rest frame

/-! ## What a step can do -/

/-- The cases of `dispatch`. -/
inductive Dispatches (loop : T) (s : TcpServer T U) : Completion → TcpServer T U → Prop where
  | accept {c : Connection} (h : s.accepting = some c) :
    Dispatches loop s (.accept none) ({ s with accepting := none }.setStack loop [.register c])
  | acceptError {c : Connection} (error : ErrorCode) (h : s.accepting = some c) :
    Dispatches loop s (.accept (some error)) ({ s with accepting := none }.setStack loop
      [.emit (.onAcceptError c error), .register c])
  | read {c : Connection} (messages : List Bytes) (h : s.reading c = true) :
    Dispatches loop s (.read c messages)
      ({ s with reading := Function.update s.reading c false }.setStack loop [.reading c messages])
  | readError {c : Connection} (error : ErrorCode) (n : ℕ) (h : s.reading c = true) :
    Dispatches loop s (.readError c error n)
      ({ s with reading := Function.update s.reading c false }.setStack loop
        (s.handleReadError c error n))
  | writeError (c : Connection) (error : ErrorCode) (n : ℕ) :
    Dispatches loop s (.writeError c error n) (s.setStack loop
      (s.emission c .onSendError (handleTcpConnectionSendError c error n) ++ [.writing c]))
  | closure {c : Connection} {posted : List Connection} (h : s.posted = c :: posted) :
    Dispatches loop s .closure
      { s with posted := posted, slots := Function.update s.slots c fun _ => false }

omit [DecidableEq U] in
theorem dispatches_of_dispatch {loop : T} {s s' : TcpServer T U} {completion : Completion}
    (h : s.dispatch loop completion = some s') : Dispatches loop s completion s' := by
  cases completion with
  | accept error =>
    cases hc : s.accepting with
    | none => simp [dispatch, hc] at h
    | some c =>
      simp only [dispatch, hc] at h
      cases error with
      | none =>
        cases h
        exact .accept hc
      | some error =>
        cases h
        exact .acceptError error hc
  | read c messages =>
    simp only [dispatch] at h
    split at h
    · rename_i hc
      cases h
      exact .read messages hc
    · cases h
  | readError c error n =>
    simp only [dispatch] at h
    split at h
    · rename_i hc
      cases h
      exact .readError error n hc
    · cases h
  | writeError c error n =>
    cases h
    exact .writeError c error n
  | closure =>
    cases hc : s.posted with
    | nil => simp [dispatch, hc] at h
    | cons c posted =>
      simp only [dispatch, hc] at h
      cases h
      exact .closure hc

/-- What a call that only makes other calls goes on to. -/
inductive Follows (s : TcpServer T U) : Frame U → List (Frame U) → Prop where
  | found {u : U} {c : Connection} (h : s.getConnectionByUUID uuid u = some c) :
    Follows s (.disconnectByUUID u) [.stop c]
  | notFound {u : U} (h : s.getConnectionByUUID uuid u = none) : Follows s (.disconnectByUUID u) []
  | copied : Follows s .disconnectAll [.disconnectEach s.connections]
  | noneLeft : Follows s (.disconnectEach []) []
  | each (c : Connection) (cs : List Connection) :
    Follows s (.disconnectEach (c :: cs)) [.disconnectByUUID (uuid c), .disconnectEach cs]
  | stop (c : Connection) :
    Follows s (.stop c)
      (s.emission c .onDisconnected (handleTcpConnectionDisconnected c) ++ [.post c])
  | passed {c p : Connection} {notice : Notice} (h : s.getConnectionByUUID uuid (uuid c) = some p) :
    Follows s (.received c notice) [.emit (notice.event p)]
  | ignored {c : Connection} {notice : Notice} (h : s.getConnectionByUUID uuid (uuid c) = none) :
    Follows s (.received c notice) []
  | message (c : Connection) (msg : Bytes) (messages : List Bytes) :
    Follows s (.reading c (msg :: messages))
      (s.emission c .onReadMessage (handleTcpConnectionReadMessage c msg) ++ [.reading c messages])
  | written (c : Connection) : Follows s (.writing c) []

/-- The cases of `advance`. -/
inductive Advances (s : TcpServer T U) (t : T) (rest : List (Frame U)) :
    Frame U → TcpServer T U → Prop where
  | follows {frame : Frame U} {new : List (Frame U)} (h : Follows uuid s frame new) :
    Advances s t rest frame (s.setStack t (new ++ rest))
  | post (c : Connection) :
    Advances s t rest (.post c) ({ s with posted := s.posted ++ [c] }.setStack t rest)
  | found {c p : Connection} (h : s.getConnectionByUUID uuid (uuid c) = some p) :
    Advances s t rest (.disconnected c) (s.setStack t (.dropSlots c p :: rest))
  | notFound {c : Connection} (h : s.getConnectionByUUID uuid (uuid c) = none) :
    Advances s t rest (.disconnected c) (s.setStack t rest)
  | dropSlots (c p : Connection) :
    Advances s t rest (.dropSlots c p)
      ({ s with slots := Function.update s.slots c fun _ => false }.setStack t (.erase p :: rest))
  | erase (p : Connection) :
    Advances s t rest (.erase p) ((s.removeFirst uuid (uuid p)).setStack t (.recheck p :: rest))
  | again {p q : Connection} (h : s.getConnectionByUUID uuid (uuid p) = some q) :
    Advances s t rest (.recheck p) (s.setStack t (.erase p :: rest))
  | removed {p : Connection} (h : s.getConnectionByUUID uuid (uuid p) = none) :
    Advances s t rest (.recheck p) (s.setStack t (.emit (.onDisconnected p) :: rest))
  | emit (event : Event) :
    Advances s t rest (.emit event)
      ({ s with raised := s.raised ++ [event] }.setStack t (.listening event :: rest))
  | read (c : Connection) :
    Advances s t rest (.reading c [])
      ({ s with reading := Function.update s.reading c true }.setStack t rest)
  | register (c : Connection) (hsync : s.server_sync = none) :
    Advances s t rest (.register c)
      ((s.handleAccept t c).setStack t (.listening (.onAccepted c) :: .finishAccept :: rest))
  | finishAccept : Advances s t rest .finishAccept (s.startAccept.setStack t rest)

theorem advances_of_advance {s s' : TcpServer T U} {t : T} {frame : Frame U} {rest : List (Frame U)}
    (h : s.advance uuid t rest frame = some s') : Advances uuid s t rest frame s' := by
  cases frame with
  | disconnectByUUID u =>
    obtain ⟨-, rfl⟩ := locked_eq h
    split
    · rename_i c hfound
      exact .follows (.found hfound)
    · rename_i hnone
      exact .follows (.notFound hnone)
  | disconnectAll =>
    obtain ⟨-, rfl⟩ := locked_eq h
    exact .follows .copied
  | disconnectEach connections =>
    cases connections with
    | nil =>
      cases h
      exact .follows .noneLeft
    | cons c cs =>
      cases h
      exact .follows (.each c cs)
  | stop c =>
    cases h
    rw [List.append_cons]
    exact .follows (.stop c)
  | post c =>
    cases h
    exact .post c
  | disconnected c =>
    obtain ⟨-, rfl⟩ := locked_eq h
    split
    · rename_i p hfound
      exact .found hfound
    · rename_i hnone
      exact .notFound hnone
  | dropSlots c p =>
    cases h
    exact .dropSlots c p
  | erase p =>
    obtain ⟨-, rfl⟩ := locked_eq h
    exact .erase p
  | recheck p =>
    obtain ⟨-, rfl⟩ := locked_eq h
    split
    · rename_i q hfound
      exact .again hfound
    · rename_i hnone
      exact .removed hnone
  | received c notice =>
    obtain ⟨-, rfl⟩ := locked_eq h
    split
    · rename_i p hfound
      exact .follows (.passed hfound)
    · rename_i hnone
      exact .follows (.ignored hnone)
  | emit event =>
    cases h
    exact .emit event
  | listening event => cases h
  | reading c messages =>
    cases messages with
    | nil =>
      cases h
      exact .read c
    | cons msg messages =>
      cases h
      rw [List.append_cons]
      exact .follows (.message c msg messages)
  | writing c =>
    cases h
    exact .follows (.written c)
  | register c =>
    obtain ⟨hsync, rfl⟩ := locked_eq h
    exact .register c hsync
  | finishAccept =>
    cases h
    exact .finishAccept

/-- The cases of `step`. An exception is caught by a call further out, or escapes from all calls of the
thread. -/
inductive Steps (loop : T) (s : TcpServer T U) : Action T U → TcpServer T U → Prop where
  | dispatch {completion : Completion} {s' : TcpServer T U} (hrunning : s.running = true)
      (hidle : s.stack loop = []) (h : Dispatches loop s completion s') :
    Steps loop s (.dispatch completion) s'
  | call {t : T} (op : Operation U) (hidle : s.stack t = []) (hloop : t = loop → s.running = true) :
    Steps loop s (.call t op) (s.setStack t [entry uuid op])
  | callback {t : T} {event : Event} {rest : List (Frame U)} (op : Operation U)
      (hstack : s.stack t = .listening event :: rest) :
    Steps loop s (.call t op) (s.setStack t (entry uuid op :: .listening event :: rest))
  | returns {t : T} {event : Event} {rest : List (Frame U)}
      (hstack : s.stack t = .listening event :: rest) :
    Steps loop s (.returns t) (s.setStack t rest)
  | caught {t : T} {event : Event} {rest : List (Frame U)}
      (hstack : s.stack t = .listening event :: rest) (h : unwind rest ≠ []) :
    Steps loop s (.throws t) (s.setStack t (unwind rest))
  | escapes {t : T} {event : Event} {rest : List (Frame U)}
      (hstack : s.stack t = .listening event :: rest) (h : unwind rest = []) :
    Steps loop s (.throws t) ({ s with running := s.running && decide (t ≠ loop) }.setStack t [])
  | advance {t : T} {frame : Frame U} {rest : List (Frame U)} {s' : TcpServer T U}
      (hstack : s.stack t = frame :: rest) (h : s.advance uuid t rest frame = some s') :
    Steps loop s (.advance t) s'

theorem steps_of_step {loop : T} {s s' : TcpServer T U} {a : Action T U}
    (h : step uuid loop s a = some s') : Steps uuid loop s a s' := by
  cases a with
  | dispatch completion =>
    simp only [step] at h
    split at h
    · rename_i hloop
      exact .dispatch hloop.1 hloop.2 (dispatches_of_dispatch h)
    · cases h
  | call t op =>
    simp only [step] at h
    split at h
    · rename_i hidle
      split at h
      · cases h
      · rename_i hloop
        cases h
        exact .call op hidle fun ht => by simpa [ht] using hloop
    · rename_i event rest hstack
      cases h
      exact .callback op hstack
    · cases h
  | returns t =>
    simp only [step] at h
    split at h
    · rename_i event rest hstack
      cases h
      exact .returns hstack
    · cases h
  | throws t =>
    simp only [step] at h
    split at h
    · rename_i event rest hstack
      split at h
      · rename_i hnil
        cases h
        exact .escapes hstack hnil
      · rename_i hne
        cases h
        exact .caught hstack hne
    · cases h
  | advance t =>
    simp only [step] at h
    split at h
    · cases h
    · rename_i frame rest hstack
      exact .advance hstack h

end Steps

end TcpServer

end Diginext.Server
