import Diginext.Base64.Encode
import Diginext.Tcp.Receive

/-! # The send path of `tcp_connection`

`core/src/TCP/TCPConnection.cpp`: `send`, `async_write` and `handle_write`. The critical sections of
`sendSync` are the atomic steps: `send` is a locked push followed by a locked `async_write(true)`, and
a completed write runs `handle_write`, whose last act is a locked `async_write(false)`. Between the two
steps of a `send`, and between the completion of a write and its `async_write(false)` (where
`onSendError` is raised, whose listeners may call `send`), any other step can happen. `T` are the
callers of `send`.
-/
namespace Diginext.Tcp
open Outcomes Cpp
set_option autoImplicit false

/-- `socket_msg` of `tcp_connection::send`: the encoded message and the delimiter. -/
def socketMsg (msg : StdString) : Result Bytes := do
  concat (← Base64.encode msg) [delimetr]

/-- A node of the list `sendBuffer`; `id` tells apart nodes of equal content. -/
structure Element where
  id : ℕ
  bytes : Bytes
  deriving DecidableEq

/-- A write that has been handed to the socket and whose completion has not yet run to its
`async_write(false)`: the list node that its buffer points into, and whether the socket has `completed`
it, so that `handle_write` is running. -/
structure Write where
  element : Element
  completed : Bool
  deriving DecidableEq

/-- How the socket completes a write: with the whole buffer, or with an error after a part of it. -/
inductive WriteResult where
  | transmitted
  | failed (bytes_transferred : ℕ)
  deriving DecidableEq

def WriteResult.sent : WriteResult → Bytes → Bytes
  | transmitted, buffer => buffer
  | failed n, buffer => buffer.take n

/-- The sending half of a connection: the queue and its flag, the outstanding writes, oldest first, and
the callers that are between the two steps of a `send`. The fields from `pushed` on record everything
ever put into `sendBuffer`, handed to the socket, taken off `sendBuffer` and completed by the socket,
and the bytes that completed writes have put on the wire. -/
structure Sender (T : Type) where
  sendBuffer : List Element
  sendStart : Bool
  writes : List Write
  calling : T → Bool
  pushed : List Element
  handed : List Element
  popped : List Element
  finished : List Element
  wire : Bytes

variable {T : Type} [DecidableEq T]

namespace Sender

/-- A new connection; the constructor leaves `sendStart` at whatever the memory held. -/
def fresh (sendStart : Bool) : Sender T where
  sendBuffer := []
  sendStart := sendStart
  writes := []
  calling := fun _ => false
  pushed := []
  handed := []
  popped := []
  finished := []
  wire := []

def start (s : Sender T) : Sender T := { s with sendStart := false }

/-- The end of `async_write`: a write of the first element is handed to the socket, if there is one. -/
def writeFront (s : Sender T) : Sender T :=
  match s.sendBuffer with
  | [] => { s with sendStart := false }
  | msg :: _ => { s with writes := s.writes ++ [⟨msg, false⟩], handed := s.handed ++ [msg] }

def asyncWrite (init : Bool) (s : Sender T) : Sender T :=
  if init then
    if s.sendStart then s else writeFront { s with sendStart := true }
  else
    writeFront
      { s with sendBuffer := s.sendBuffer.tail, popped := s.popped ++ s.sendBuffer.take 1 }

/-- The locked part of `send` that queues a message. An exception of the encoder is caught there and
nothing is queued. -/
def push (s : Sender T) (t : T) (msg : StdString) : Option (Sender T) :=
  match socketMsg msg with
  | .ok bytes =>
    let element : Element := ⟨s.pushed.length, bytes⟩
    some { s with
      sendBuffer := s.sendBuffer ++ [element]
      calling := Function.update s.calling t true
      pushed := s.pushed ++ [element] }
  | .throws _ => some { s with calling := Function.update s.calling t true }
  | .undefined => none

def complete (s : Sender T) (k : ℕ) (w : Write) (result : WriteResult) : Sender T :=
  { s with
    writes := s.writes.set k ⟨w.element, true⟩
    finished := s.finished ++ [w.element]
    wire := s.wire ++ result.sent w.element.bytes }

def handled (s : Sender T) (k : ℕ) : Sender T :=
  asyncWrite false { s with writes := s.writes.eraseIdx k }

end Sender

/-! ## The atomic steps

`push` and `pump` are the two steps of a `send` by `t`. `complete` is the completion of the k-th
outstanding write by the socket, `resume` the `async_write(false)` of its `handle_write`.
-/

inductive SendAction (T : Type) where
  | push (t : T) (msg : StdString)
  | pump (t : T)
  | complete (k : ℕ) (result : WriteResult)
  | resume (k : ℕ)

def SendAction.transmits {T : Type} : SendAction T → Bool
  | .complete _ (.failed _) => false
  | _ => true

def sentMessages {T : Type} : List (SendAction T) → List StdString
  | [] => []
  | .push _ msg :: as => msg :: sentMessages as
  | _ :: as => sentMessages as

def sendStep (s : Sender T) : SendAction T → Option (Sender T)
  | .push t msg => if s.calling t then none else s.push t msg
  | .pump t =>
    if s.calling t then
      some (Sender.asyncWrite true { s with calling := Function.update s.calling t false })
    else none
  | .complete k result =>
    match s.writes[k]? with
    | some w => if w.completed then none else some (s.complete k w result)
    | none => none
  | .resume k =>
    match s.writes[k]? with
    | some w => if w.completed then some (s.handled k) else none
    | none => none

/-- What a step of the send path can do. -/
theorem sendStep_cases {s s' : Sender T} {a : SendAction T} (h : sendStep s a = some s') :
    (∃ t msg, a = .push t msg ∧ s.push t msg = some s') ∨
    (∃ t, a = .pump t ∧
      s' = Sender.asyncWrite true { s with calling := Function.update s.calling t false }) ∨
    (∃ k w result, a = .complete k result ∧ s.writes[k]? = some w ∧ w.completed = false ∧
      s' = s.complete k w result) ∨
    (∃ k w, a = .resume k ∧ s.writes[k]? = some w ∧ w.completed = true ∧ s' = s.handled k) := by
  cases a with
  | push t msg =>
    simp only [sendStep] at h
    split at h
    · cases h
    · exact Or.inl ⟨t, msg, rfl, h⟩
  | pump t =>
    simp only [sendStep] at h
    split at h
    · exact Or.inr (Or.inl ⟨t, rfl, (Option.some.inj h).symm⟩)
    · cases h
  | complete k result =>
    simp only [sendStep] at h
    split at h
    · rename_i w hw
      split at h
      · cases h
      · rename_i hnot
        have hfalse : w.completed = false := by simpa using hnot
        exact Or.inr (Or.inr (Or.inl
          ⟨k, w, result, rfl, hw, hfalse, (Option.some.inj h).symm⟩))
    · cases h
  | resume k =>
    simp only [sendStep] at h
    split at h
    · rename_i w hw
      split at h
      · rename_i hdone
        exact Or.inr (Or.inr (Or.inr ⟨k, w, rfl, hw, hdone, (Option.some.inj h).symm⟩))
      · cases h
    · cases h

end Diginext.Tcp
