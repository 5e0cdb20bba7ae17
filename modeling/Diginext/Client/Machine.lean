import Diginext.Server.Machine

/-! # The client of one connection

`core/src/TCP/TCPClient.cpp` and `StorageClient::Disconnect` after `connect` and `start`: any threads
call the operations, one of them runs the event loop. A thread stops between any two things that another
can see. A signal of the connection is emitted in two steps: the handler of `tcp_client` is found
connected, and it raises the client's own signal, whose listeners may call the client again.

Of the connection it is kept what decides which signals are emitted: the outstanding connect and read,
whether the socket has been closed, and the close routines posted. The handlers are connected by
`connect` and disconnected by a close routine, all at once, and on one connection their check of the uuid
holds.
-/
namespace Diginext.Client
open Cpp
open Server (ErrorCode)
set_option autoImplicit false

inductive Event where
  | onConnectionTimedOut
  | onConnectionError (error : ErrorCode)
  | onConnectionSuccess
  | onDisconnected
  | onReadMessage (msg : Bytes)
  | onReadError (error : ErrorCode) (bytes_transferred : ℕ)
  | onSendError (error : ErrorCode) (bytes_transferred : ℕ)
  deriving DecidableEq

/-! The calls a thread is in: `storageDisconnect` is `StorageClient::Disconnect`, `disconnect` is
`tcp_connection::stop` up to its emission and `post` the rest of it. `stop` is `tcp_client::stop`,
`ioStop` and `join` what follows its `disconnect()`: `join` waits (`waitStop`) and looks at the handle of
the thread, `joining` is the call of `std::thread::join`. `handler` is a handler of `tcp_client` that is
to raise its signal, `listening` its listeners, `reading` the loop of `handle_read`. -/

inductive Frame where
  | storageDisconnect
  | disconnect
  | post
  | stop
  | ioStop
  | join
  | joining
  | handler (event : Event)
  | listening (event : Event)
  | reading (messages : List Bytes)
  | writing
  deriving DecidableEq

/-- The calls around which an exception is caught. -/
def Frame.catches : Frame → Bool
  | post | writing => true
  | _ => false

/-- An exception leaves the calls up to the first that catches it. -/
def unwind (rest : List Frame) : List Frame := rest.dropWhile fun frame => !frame.catches

/-- `joinable` is that of the handle `server_thread`. -/
structure TcpClient (T : Type) where
  slots : Bool
  connecting : Bool
  reading : Bool
  closed : Bool
  posted : ℕ
  stopped : Bool
  running : Bool
  started_status : Bool
  joinable : Bool
  stack : T → List Frame
  raised : List Event

/-- `connect` has been called and the event loop runs. -/
def TcpClient.connected {T : Type} : TcpClient T where
  slots := true
  connecting := true
  reading := false
  closed := false
  posted := 0
  stopped := false
  running := true
  started_status := true
  joinable := true
  stack := fun _ => []
  raised := []

/-! ## What can happen -/

inductive Operation where
  | disconnect
  | stop
  | storageDisconnect

inductive Completion where
  | connect (error : Option ErrorCode)
  | read (messages : List Bytes)
  | readError (error : ErrorCode) (bytes_transferred : ℕ)
  | writeError (error : ErrorCode) (bytes_transferred : ℕ)
  | closure

/-- `leave` is the return of `run()`, `finish` the end of the loop's thread. -/
inductive Action (T : Type) where
  | dispatch (completion : Completion)
  | call (t : T) (op : Operation)
  | returns (t : T)
  | throws (t : T)
  | advance (t : T)
  | leave
  | finish

def entry : Operation → Frame
  | .disconnect => .disconnect
  | .stop => .stop
  | .storageDisconnect => .storageDisconnect

namespace TcpClient
variable {T : Type}

/-- The emission of a signal of the connection. -/
def emission (s : TcpClient T) (event : Event) : List Frame := if s.slots then [.handler event] else []

variable [DecidableEq T]

def setStack (s : TcpClient T) (t : T) (frames : List Frame) : TcpClient T :=
  { s with stack := Function.update s.stack t frames }

@[simp] theorem setStack_self (s : TcpClient T) (t : T) (frames : List Frame) :
    (s.setStack t frames).stack t = frames := by
  simp [setStack]

theorem setStack_of_ne (s : TcpClient T) {t u : T} (h : u ≠ t) (frames : List Frame) :
    (s.setStack t frames).stack u = s.stack u := by
  simp [setStack, h]

def handleConnect (s : TcpClient T) (loop : T) (error : Option ErrorCode) : TcpClient T :=
  if s.closed then s.setStack loop (s.emission .onConnectionTimedOut)
  else
    match error with
    | some error => { s with closed := true }.setStack loop (s.emission (.onConnectionError error))
    | none => { s with reading := true }.setStack loop (s.emission .onConnectionSuccess)

def handleReadError (s : TcpClient T) (error : ErrorCode) (n : ℕ) : List Frame :=
  if error = .eof ∨ error = .connection_reset then s.emission .onDisconnected
  else s.emission (.onReadError error n)

def dispatch (s : TcpClient T) (loop : T) : Completion → Option (TcpClient T)
  | .connect error =>
    if s.connecting then some ({ s with connecting := false }.handleConnect loop error) else none
  | .read messages =>
    if s.reading then some ({ s with reading := false }.setStack loop [.reading messages]) else none
  | .readError error n =>
    if s.reading then some ({ s with reading := false }.setStack loop (s.handleReadError error n))
    else none
  | .writeError error n => some (s.setStack loop (s.emission (.onSendError error n) ++ [.writing]))
  | .closure =>
    match s.posted with
    | 0 => none
    | n + 1 => some { s with posted := n, closed := true, slots := false }

/-- `std::thread::join`. It waits for the thread of the loop. In that thread itself it throws: to the
listener that has called `stop`, who may throw on, or out of `io_service::run`. Where another thread has
joined since the handle was looked at, what it does is undefined. -/
def join (s : TcpClient T) (loop t : T) (rest : List Frame) : Option (TcpClient T) :=
  if t = loop then some ({ s with running := s.running && !rest.isEmpty }.setStack t rest)
  else if s.started_status = false ∧ s.joinable then some ({ s with joinable := false }.setStack t rest)
  else none

/-- The next step of a call. `waitStop` gives up after a while, so `join` always goes on. -/
def advance (s : TcpClient T) (loop t : T) (rest : List Frame) : Frame → Option (TcpClient T)
  | .storageDisconnect =>
    some (s.setStack t (if s.started_status then .disconnect :: .stop :: rest else rest))
  | .disconnect => some (s.setStack t (s.emission .onDisconnected ++ .post :: rest))
  | .post => some ({ s with posted := s.posted + 1 }.setStack t rest)
  | .stop =>
    some (s.setStack t (if s.started_status then .disconnect :: .ioStop :: .join :: rest else rest))
  | .ioStop => some ({ s with stopped := true }.setStack t rest)
  | .join => some (s.setStack t (if s.joinable then .joining :: rest else rest))
  | .joining => s.join loop t rest
  | .handler event =>
    some ({ s with raised := s.raised ++ [event] }.setStack t (.listening event :: rest))
  | .listening _ => none
  | .reading [] => some ({ s with reading := true }.setStack t rest)
  | .reading (msg :: messages) =>
    some (s.setStack t (s.emission (.onReadMessage msg) ++ .reading messages :: rest))
  | .writing => some (s.setStack t rest)

def step (loop : T) (s : TcpClient T) : Action T → Option (TcpClient T)
  | .dispatch completion =>
    if s.running ∧ s.stack loop = [] then s.dispatch loop completion else none
  | .call t op =>
    match s.stack t with
    | [] => if t = loop ∧ ¬ s.running then none else some (s.setStack t [entry op])
    | .listening event :: rest => some (s.setStack t (entry op :: .listening event :: rest))
    | _ => none
  | .returns t =>
    match s.stack t with
    | .listening _ :: rest => some (s.setStack t rest)
    | _ => none
  | .throws t =>
    match s.stack t with
    | .listening _ :: rest =>
      match unwind rest with
      -- out of `io_service::run`
      | [] => some ({ s with running := s.running && decide (t ≠ loop) }.setStack t [])
      | frames => some (s.setStack t frames)
    | _ => none
  | .advance t =>
    match s.stack t with
    | [] => none
    | frame :: rest => s.advance loop t rest frame
  | .leave =>
    if s.running ∧ s.stack loop = [] ∧
        (s.stopped ∨ s.connecting = false ∧ s.reading = false ∧ s.posted = 0) then
      some { s with running := false }
    else none
  | .finish => if s.running = false then some { s with started_status := false } else none

/-! ## What a step can do -/

/-- The cases of `join`. -/
inductive Joins (loop : T) (s : TcpClient T) (t : T) (rest : List Frame) : TcpClient T → Prop where
  | throws (h : t = loop) :
    Joins loop s t rest ({ s with running := s.running && !rest.isEmpty }.setStack t rest)
  | joined (h : t ≠ loop) (hended : s.started_status = false) (hjoinable : s.joinable = true) :
    Joins loop s t rest ({ s with joinable := false }.setStack t rest)

theorem joins_of_join {loop t : T} {s s' : TcpClient T} {rest : List Frame}
    (h : s.join loop t rest = some s') : Joins loop s t rest s' := by
  simp only [join] at h
  split at h
  · rename_i hloop
    cases h
    exact .throws hloop
  · rename_i hother
    split at h
    · rename_i hjoins
      cases h
      exact .joined hother hjoins.1 hjoins.2
    · cases h

/-- The cases of `dispatch`. -/
inductive Dispatches (loop : T) (s : TcpClient T) : Completion → TcpClient T → Prop where
  | timedOut (error : Option ErrorCode) (h : s.connecting = true) (hclosed : s.closed = true) :
    Dispatches loop s (.connect error)
      ({ s with connecting := false }.setStack loop (s.emission .onConnectionTimedOut))
  | connectError (error : ErrorCode) (h : s.connecting = true) (hopen : s.closed = false) :
    Dispatches loop s (.connect (some error))
      ({ s with connecting := false, closed := true }.setStack loop
        (s.emission (.onConnectionError error)))
  | connected (h : s.connecting = true) (hopen : s.closed = false) :
    Dispatches loop s (.connect none)
      ({ s with connecting := false, reading := true }.setStack loop (s.emission .onConnectionSuccess))
  | read (messages : List Bytes) (h : s.reading = true) :
    Dispatches loop s (.read messages)
      ({ s with reading := false }.setStack loop [.reading messages])
  | readError (error : ErrorCode) (n : ℕ) (h : s.reading = true) :
    Dispatches loop s (.readError error n)
      ({ s with reading := false }.setStack loop (s.handleReadError error n))
  | writeError (error : ErrorCode) (n : ℕ) :
    Dispatches loop s (.writeError error n)
      (s.setStack loop (s.emission (.onSendError error n) ++ [.writing]))
  | closure {n : ℕ} (h : s.posted = n + 1) :
    Dispatches loop s .closure { s with posted := n, closed := true, slots := false }

theorem dispatches_connect {loop : T} {s : TcpClient T} (h : s.connecting = true)
    (error : Option ErrorCode) :
    Dispatches loop s (.connect error) ({ s with connecting := false }.handleConnect loop error) := by
  unfold handleConnect
  split
  · rename_i hclosed
    exact .timedOut error h hclosed
  · rename_i hopen
    have hopen' : s.closed = false := by simpa using hopen
    cases error with
    | some error => exact .connectError error h hopen'
    | none => exact .connected h hopen'

theorem dispatches_of_dispatch {loop : T} {s s' : TcpClient T} {completion : Completion}
    (h : s.dispatch loop completion = some s') : Dispatches loop s completion s' := by
  cases completion with
  | connect error =>
    simp only [dispatch] at h
    split at h
    · rename_i hconnecting
      cases h
      exact dispatches_connect hconnecting error
    · cases h
  | read messages =>
    simp only [dispatch] at h
    split at h
    · rename_i hreading
      cases h
      exact .read messages hreading
    · cases h
  | readError error n =>
    simp only [dispatch] at h
    split at h
    · rename_i hreading
      cases h
      exact .readError error n hreading
    · cases h
  | writeError error n =>
    cases h
    exact .writeError error n
  | closure =>
    cases hposted : s.posted with
    | zero => simp [dispatch, hposted] at h
    | succ n =>
      simp only [dispatch, hposted] at h
      cases h
      exact .closure hposted

/-- The cases of `step`. -/
inductive Steps (loop : T) (s : TcpClient T) : Action T → TcpClient T → Prop where
  | dispatch {completion : Completion} {s' : TcpClient T} (hrunning : s.running = true)
      (hidle : s.stack loop = []) (h : Dispatches loop s completion s') :
    Steps loop s (.dispatch completion) s'
  | call {t : T} (op : Operation) (hidle : s.stack t = []) (hloop : t = loop → s.running = true) :
    Steps loop s (.call t op) (s.setStack t [entry op])
  | callback {t : T} {event : Event} {rest : List Frame} (op : Operation)
      (hstack : s.stack t = .listening event :: rest) :
    Steps loop s (.call t op) (s.setStack t (entry op :: .listening event :: rest))
  | returns {t : T} {event : Event} {rest : List Frame} (hstack : s.stack t = .listening event :: rest) :
    Steps loop s (.returns t) (s.setStack t rest)
  | caught {t : T} {event : Event} {rest : List Frame} (hstack : s.stack t = .listening event :: rest)
      (h : unwind rest ≠ []) :
    Steps loop s (.throws t) (s.setStack t (unwind rest))
  | escapes {t : T} {event : Event} {rest : List Frame} (hstack : s.stack t = .listening event :: rest)
      (h : unwind rest = []) :
    Steps loop s (.throws t) ({ s with running := s.running && decide (t ≠ loop) }.setStack t [])
  | advance {t : T} {frame : Frame} {rest : List Frame} {s' : TcpClient T}
      (hstack : s.stack t = frame :: rest) (h : s.advance loop t rest frame = some s') :
    Steps loop s (.advance t) s'
  | leave (hidle : s.stack loop = []) : Steps loop s .leave { s with running := false }
  | finish (hrunning : s.running = false) : Steps loop s .finish { s with started_status := false }

theorem steps_of_step {loop : T} {s s' : TcpClient T} {a : Action T}
    (h : step loop s a = some s') : Steps loop s a s' := by
  cases a with
  | dispatch completion =>
    simp only [step] at h
    split at h
    · rename_i hloop
      exact .dispatch hloop.1 hloop.2 (dispatches_of_dispatch h)
    · cases h
  | call t op =>
    simp only [step] at h
    split at h
    · rename_i hidle
      split at h
      · cases h
      · rename_i hloop
        cases h
        exact .call op hidle fun ht => by simpa [ht] using hloop
    · rename_i event rest hstack
      cases h
      exact .callback op hstack
    · cases h
  | returns t =>
    simp only [step] at h
    split at h
    · rename_i event rest hstack
      cases h
      exact .returns hstack
    · cases h
  | throws t =>
    simp only [step] at h
    split at h
    · rename_i event rest hstack
      split at h
      · rename_i hnil
        cases h
        exact .escapes hstack hnil
      · rename_i hne
        cases h
        exact .caught hstack hne
    · cases h
  | advance t =>
    simp only [step] at h
    split at h
    · cases h
    · rename_i frame rest hstack
      exact .advance hstack h
  | leave =>
    simp only [step] at h
    split at h
    · rename_i hleaves
      cases h
      exact .leave hleaves.2.1
    · cases h
  | finish =>
    simp only [step] at h
    split at h
    · rename_i hrunning
      cases h
      exact .finish hrunning
    · cases h

end TcpClient

end Diginext.Client
