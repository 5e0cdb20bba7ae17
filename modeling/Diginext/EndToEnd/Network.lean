import Diginext.Storage.Semantics
import Diginext.Tcp.Link

/-! # Clients and the storage server

The client program and the storage server with the connections between them, from the moment when both
ends of a connection have been started. A connection `i` is a `Link` each way: the threads `T` of the
client call `send` on the one, the event loop of the server on the other. `tcp_server` passes a message
on to `StorageServer` as long as it finds the connection it came on
(`handle_tcp_connection_read_message`), and `StorageServer::handle_read_message` runs on the event loop
from beginning to end. What it gives to `connection->send` goes out in that order, while the clients go
on.

Both ends find their connection by its UUID, which stands here for the connection itself. A connection in
`connections` is one that is listed with the handlers of `tcp_server` connected: of the two steps of its
removal, `leave` is the one that comes first for its messages, the disconnection of the handlers.

A socket may send something after a write that failed. `SocketsStop` says that a step is none in which
one does.
-/
namespace Diginext.EndToEnd
open Cpp Outcomes Storage Tcp Transition
set_option autoImplicit false

/-- The event loop of the server: `handle_read` of a connection raises its messages one by one, and
`outbox` is what `handle_read_message` still has to send for the last one raised. -/
inductive Loop (I : Type) where
  | idle
  | reading (i : I) (outbox : List Bytes)
  deriving DecidableEq

/-- `connections` is the list of `tcp_server`, `accepted` are the connections ever added to it. `answer`
is the last message of a `StorageClient`. -/
structure Network (I T : Type) where
  server : StorageServer I
  connections : List I
  accepted : I → Bool
  loop : Loop I
  up : I → Link T
  down : I → Link Unit
  answer : I → Bytes

/-- The constructor of a connection leaves `sendStart` at whatever the memory held. -/
def Network.started {I T : Type} (sendStart : Bool) : Network I T where
  server := .empty
  connections := []
  accepted := fun _ => false
  loop := .idle
  up := fun _ => .started sendStart
  down := fun _ => .started sendStart
  answer := fun _ => []

/-- `leave` is the disconnection of the handlers of a connection, with which its removal begins, on any
thread and for any reason. `handle` raises the next
message, `send` and `pump` are the two steps of a `connection->send`. `written` is the socket's
completion of a write of the server, `handleWrite` the handler of the completion. -/
inductive Action (I T : Type) where
  | client (i : I) (a : SendAction T)
  | accept (i : I)
  | leave (i : I)
  | serverRead (i : I) (chunk : Bytes)
  | handle
  | send
  | pump
  | finish
  | written (i : I) (k : ℕ) (result : WriteResult)
  | handleWrite (i : I) (k : ℕ)
  | clientRead (i : I) (chunk : Bytes)
  | clientMessage (i : I)

namespace Network
variable {I T : Type} [DecidableEq I] [DecidableEq T]

def onUp (t : Network I T) (i : I) (a : LinkAction T) : Option (Network I T) :=
  (Link.step (t.up i) a).map fun link => { t with up := Function.update t.up i link }

def onDown (t : Network I T) (i : I) (a : LinkAction Unit) : Option (Network I T) :=
  (Link.step (t.down i) a).map fun link => { t with down := Function.update t.down i link }

/-- `handle_tcp_connection_read_message`, and `handle_read_message` up to its sends. -/
def handleReadMessage (lib : JsonLib) (t : Network I T) (i : I) (msg : Bytes) :
    Option (Network I T) :=
  if i ∈ t.connections then
    (serve lib t.server (i, msg)).map fun server =>
      { t with
        server := server
        loop := .reading i ((server.sent.drop t.server.sent.length).map Prod.snd) }
  else some t

def step (lib : JsonLib) (t : Network I T) : Action I T → Option (Network I T)
  | .client i a => t.onUp i (.send a)
  | .accept i =>
    if t.loop = .idle ∧ t.accepted i = false then
      some { t with
        connections := t.connections ++ [i]
        accepted := Function.update t.accepted i true }
    else none
  | .leave i =>
    if i ∈ t.connections then some { t with connections := t.connections.filter (· ≠ i) } else none
  | .serverRead i chunk =>
    if t.loop = .idle ∧ t.accepted i = true then
      (t.onUp i (.read chunk)).map fun t => { t with loop := .reading i [] }
    else none
  | .handle =>
    match t.loop with
    | .reading i [] =>
      match (t.up i).messages with
      | msg :: _ =>
        if (t.down i).sender.calling () then none
        else (t.onUp i .raise).bind fun t => t.handleReadMessage lib i msg
      | [] => none
    | _ => none
  | .send =>
    match t.loop with
    | .reading i (text :: outbox) =>
      if h : text.length ≤ maxSize then
        (t.onDown i (.send (.push () ⟨text, h⟩))).map fun t => { t with loop := .reading i outbox }
      -- no `std::string` is that long
      else some { t with loop := .reading i outbox }
    | _ => none
  | .pump =>
    match t.loop with
    | .reading i _ => t.onDown i (.send (.pump ()))
    | .idle => none
  | .finish =>
    match t.loop with
    | .reading i [] =>
      if (t.up i).messages = [] ∧ (t.down i).sender.calling () = false then
        some { t with loop := .idle }
      else none
    | _ => none
  | .written i k result => t.onDown i (.send (.complete k result))
  | .handleWrite i k => if t.loop = .idle then t.onDown i (.send (.resume k)) else none
  | .clientRead i chunk => t.onDown i (.read chunk)
  | .clientMessage i =>
    match (t.down i).messages with
    | msg :: _ =>
      (t.onDown i .raise).map fun t => { t with answer := Function.update t.answer i msg }
    | [] => none

/-- The step is none in which a socket sends something after a write that failed. -/
def SocketsStop (t : Network I T) : Action I T → Prop
  | .client i a => Link.SocketStops (t.up i) (.send a)
  | .written i k result => Link.SocketStops (t.down i) (.send (.complete k result))
  | _ => True

instance (t : Network I T) (a : Action I T) : Decidable (SocketsStop t a) :=
  match a with
  | .client i a => inferInstanceAs (Decidable (Link.SocketStops (t.up i) (.send a)))
  | .written i k result =>
    inferInstanceAs (Decidable (Link.SocketStops (t.down i) (.send (.complete k result))))
  | .accept _ | .leave _ | .serverRead _ _ | .handle | .send | .pump | .finish | .handleWrite _ _
  | .clientRead _ _ | .clientMessage _ => isTrue trivial

/-! ## What a step can do -/

inductive Steps (lib : JsonLib) (t : Network I T) : Action I T → Network I T → Prop where
  | client {i : I} {a : SendAction T} {link : Link T} (h : Link.step (t.up i) (.send a) = some link) :
      Steps lib t (.client i a) { t with up := Function.update t.up i link }
  | accept {i : I} (hidle : t.loop = .idle) (hnew : t.accepted i = false) :
      Steps lib t (.accept i) { t with
        connections := t.connections ++ [i]
        accepted := Function.update t.accepted i true }
  | leave {i : I} (hmem : i ∈ t.connections) :
      Steps lib t (.leave i) { t with connections := t.connections.filter (· ≠ i) }
  | serverRead {i : I} {chunk : Bytes} {link : Link T} (hidle : t.loop = .idle)
      (haccepted : t.accepted i = true) (h : Link.step (t.up i) (.read chunk) = some link) :
      Steps lib t (.serverRead i chunk)
        { t with up := Function.update t.up i link, loop := .reading i [] }
  | handle {i : I} {msg : Bytes} {messages : List Bytes} {link : Link T} {server : StorageServer I}
      (hloop : t.loop = .reading i []) (hmessages : (t.up i).messages = msg :: messages)
      (hdone : (t.down i).sender.calling () = false) (h : Link.step (t.up i) .raise = some link)
      (hmem : i ∈ t.connections) (hserve : serve lib t.server (i, msg) = some server) :
      Steps lib t .handle { t with
        server := server
        up := Function.update t.up i link
        loop := .reading i ((server.sent.drop t.server.sent.length).map Prod.snd) }
  | drop {i : I} {msg : Bytes} {messages : List Bytes} {link : Link T}
      (hloop : t.loop = .reading i []) (hmessages : (t.up i).messages = msg :: messages)
      (hdone : (t.down i).sender.calling () = false) (h : Link.step (t.up i) .raise = some link)
      (hmem : i ∉ t.connections) :
      Steps lib t .handle { t with up := Function.update t.up i link }
  | send {i : I} {text : Bytes} {outbox : List Bytes} {link : Link Unit}
      (hloop : t.loop = .reading i (text :: outbox)) (hsize : text.length ≤ maxSize)
      (h : Link.step (t.down i) (.send (.push () ⟨text, hsize⟩)) = some link) :
      Steps lib t .send { t with down := Function.update t.down i link, loop := .reading i outbox }
  | tooLong {i : I} {text : Bytes} {outbox : List Bytes} (hloop : t.loop = .reading i (text :: outbox))
      (hsize : ¬ text.length ≤ maxSize) : Steps lib t .send { t with loop := .reading i outbox }
  | pump {i : I} {outbox : List Bytes} {link : Link Unit} (hloop : t.loop = .reading i outbox)
      (h : Link.step (t.down i) (.send (.pump ())) = some link) :
      Steps lib t .pump { t with down := Function.update t.down i link }
  | finish {i : I} (hloop : t.loop = .reading i []) (hmessages : (t.up i).messages = [])
      (hdone : (t.down i).sender.calling () = false) :
      Steps lib t .finish { t with loop := .idle }
  | written {i : I} {k : ℕ} {result : WriteResult} {link : Link Unit}
      (h : Link.step (t.down i) (.send (.complete k result)) = some link) :
      Steps lib t (.written i k result) { t with down := Function.update t.down i link }
  | handleWrite {i : I} {k : ℕ} {link : Link Unit} (hidle : t.loop = .idle)
      (h : Link.step (t.down i) (.send (.resume k)) = some link) :
      Steps lib t (.handleWrite i k) { t with down := Function.update t.down i link }
  | clientRead {i : I} {chunk : Bytes} {link : Link Unit}
      (h : Link.step (t.down i) (.read chunk) = some link) :
      Steps lib t (.clientRead i chunk) { t with down := Function.update t.down i link }
  | clientMessage {i : I} {msg : Bytes} {messages : List Bytes} {link : Link Unit}
      (hmessages : (t.down i).messages = msg :: messages)
      (h : Link.step (t.down i) .raise = some link) :
      Steps lib t (.clientMessage i) { t with
        down := Function.update t.down i link
        answer := Function.update t.answer i msg }

theorem onUp_eq {t t' : Network I T} {i : I} {a : LinkAction T} (h : t.onUp i a = some t') :
    ∃ link, Link.step (t.up i) a = some link ∧ t' = { t with up := Function.update t.up i link } := by
  obtain ⟨link, hlink, ht⟩ := Option.map_eq_some_iff.mp h
  exact ⟨link, hlink, ht.symm⟩

omit [DecidableEq T] in
theorem onDown_eq {t t' : Network I T} {i : I} {a : LinkAction Unit} (h : t.onDown i a = some t') :
    ∃ link, Link.step (t.down i) a = some link ∧
      t' = { t with down := Function.update t.down i link } := by
  obtain ⟨link, hlink, ht⟩ := Option.map_eq_some_iff.mp h
  exact ⟨link, hlink, ht.symm⟩

theorem steps_of_step {lib : JsonLib} {t t' : Network I T} {a : Action I T}
    (h : step lib t a = some t') : Steps lib t a t' := by
  cases a with
  | client i a =>
    obtain ⟨link, hlink, rfl⟩ := onUp_eq h
    exact .client hlink
  | accept i =>
    simp only [step] at h
    split at h
    · rename_i hnew
      cases h
      exact .accept hnew.1 hnew.2
    · cases h
  | leave i =>
    simp only [step] at h
    split at h
    · rename_i hmem
      cases h
      exact .leave hmem
    · cases h
  | serverRead i chunk =>
    simp only [step] at h
    split at h
    · rename_i hready
      obtain ⟨t₁, hup, rfl⟩ := Option.map_eq_some_iff.mp h
      obtain ⟨link, hlink, rfl⟩ := onUp_eq hup
      exact .serverRead hready.1 hready.2 hlink
    · cases h
  | handle =>
    simp only [step] at h
    split at h
    · rename_i i hloop
      split at h
      · rename_i msg messages hmessages
        split at h
        · cases h
        · rename_i hdone
          have hnot : (t.down i).sender.calling () = false := by simpa using hdone
          obtain ⟨t₁, hup, hhandle⟩ := Option.bind_eq_some_iff.mp h
          obtain ⟨link, hlink, rfl⟩ := onUp_eq hup
          unfold handleReadMessage at hhandle
          split at hhandle
          · rename_i hmem
            obtain ⟨server, hserve, rfl⟩ := Option.map_eq_some_iff.mp hhandle
            exact .handle hloop hmessages hnot hlink hmem hserve
          · rename_i hmem
            cases hhandle
            exact .drop hloop hmessages hnot hlink hmem
      · cases h
    · cases h
  | send =>
    simp only [step] at h
    split at h
    · rename_i i text outbox hloop
      split at h
      · rename_i hsize
        obtain ⟨t₁, hdown, rfl⟩ := Option.map_eq_some_iff.mp h
        obtain ⟨link, hlink, rfl⟩ := onDown_eq hdown
        exact .send hloop hsize hlink
      · rename_i hsize
        cases h
        exact .tooLong hloop hsize
    · cases h
  | pump =>
    simp only [step] at h
    split at h
    · rename_i i outbox hloop
      obtain ⟨link, hlink, rfl⟩ := onDown_eq h
      exact .pump hloop hlink
    · cases h
  | finish =>
    simp only [step] at h
    split at h
    · rename_i i hloop
      split at h
      · rename_i hover
        cases h
        exact .finish hloop hover.1 hover.2
      · cases h
    · cases h
  | written i k result =>
    obtain ⟨link, hlink, rfl⟩ := onDown_eq h
    exact .written hlink
  | handleWrite i k =>
    simp only [step] at h
    split at h
    · rename_i hidle
      obtain ⟨link, hlink, rfl⟩ := onDown_eq h
      exact .handleWrite hidle hlink
    · cases h
  | clientRead i chunk =>
    obtain ⟨link, hlink, rfl⟩ := onDown_eq h
    exact .clientRead hlink
  | clientMessage i =>
    simp only [step] at h
    split at h
    · rename_i msg messages hmessages
      obtain ⟨t₁, hdown, rfl⟩ := Option.map_eq_some_iff.mp h
      obtain ⟨link, hlink, rfl⟩ := onDown_eq hdown
      exact .clientMessage hmessages hlink
    · cases h

end Network

end Diginext.EndToEnd
