import Diginext.Foundations.Cpp

/-! # The receive path of `tcp_connection`

`core/src/TCP/TCPConnection.cpp`: `decode_message` and the part of `handle_read` that runs when a read
has delivered bytes. `Base64::Decode` is a parameter here. The listeners of `onReadMessage` are seen
through `throwsAt`: whether they throw on the k-th message of the read. The result of a read is what it
raised, the new `partMessage`, whether another `async_read_until` has been started (`rearmed`), and
whether an exception of a listener has left the handler (`escaped`). Log lines are left out.
-/
namespace Diginext.Tcp
open Outcomes Cpp
set_option autoImplicit false

def delimetr : UInt8 := Char.toUInt8 '\n'

/-- `s.find_last_of(ch)`, `none` for `npos`. -/
def findLastOf (ch : UInt8) : Bytes → Option ℕ
  | [] => none
  | x :: xs =>
    match findLastOf ch xs with
    | some p => some (p + 1)
    | none => if x = ch then some 0 else none

/-- `lastPos + 1`; for `npos` the sum wraps to zero. -/
def afterPos : Option ℕ → ℕ
  | some p => p + 1
  | none => 0

/-- One round of the loop over `message_vector`: an exception of the decoder drops the line. -/
def decodeElement (decode : Bytes → Result Bytes) (messages : List Bytes) (msg : Bytes) :
    Result (List Bytes) :=
  if msg = [] then .ok messages
  else Outcome.catchAll (do return messages ++ [← decode msg]) fun _ => .ok messages

/-- `decode_message`: the messages, and `message_unreceived_part` as it is left. -/
def decodeMessage (decode : Bytes → Result Bytes) (message message_unreceived_part : Bytes) :
    Result (List Bytes × Bytes) :=
  if message = [] then .ok ([], message_unreceived_part)
  else do
    let (messageFull, message_unreceived_part) :=
      if message.getLast? ≠ some delimetr then
        let lastPos := findLastOf delimetr message
        (message.take (afterPos lastPos), message.drop (afterPos lastPos))
      else (message, message_unreceived_part)
    let message_vector := messageFull.splitOn delimetr
    let messages ← message_vector.foldlM (decodeElement decode) []
    return (messages, message_unreceived_part)

structure ReadResult where
  raised : List Bytes
  partMessage : Bytes
  rearmed : Bool
  escaped : Bool
  deriving DecidableEq

def raiseMessages (throwsAt : ℕ → Bool) : ℕ → List Bytes → List Bytes × Bool
  | _, [] => ([], false)
  | k, msg :: messages =>
    if throwsAt k then ([msg], true)
    else
      let rest := raiseMessages throwsAt (k + 1) messages
      (msg :: rest.1, rest.2)

/-- `tcp_connection::handle_read` without an error; `chunk` is the content of the stream buffer. -/
def handleRead (decode : Bytes → Result Bytes) (throwsAt : ℕ → Bool) (partMessage chunk : Bytes) :
    Result ReadResult := do
  let msg := partMessage ++ chunk
  if msg = [] then return ⟨[], [], true, false⟩
  let (messages, unreceived_part) ← decodeMessage decode msg []
  let (raised, escaped) := raiseMessages throwsAt 0 messages
  -- `partMessage` was emptied before the loop and is set after it
  if escaped then return ⟨raised, [], false, true⟩
  return ⟨raised, unreceived_part, true, false⟩

def quiet : ℕ → Bool := fun _ => false

/-- The reads of a connection, one after the other: everything raised, and the last `partMessage`. -/
def receive (decode : Bytes → Result Bytes) : Bytes → List Bytes → Result (List Bytes × Bytes)
  | partMessage, [] => .ok ([], partMessage)
  | partMessage, chunk :: chunks => do
    let r ← handleRead decode quiet partMessage chunk
    let (raised, partMessage) ← receive decode r.partMessage chunks
    return (r.raised ++ raised, partMessage)

end Diginext.Tcp
