import Diginext.Foundations.Linearizability
import Diginext.Storage.Replies

/-! # Calls of the message handler that overlap

`handle_read_message` again, cut where other calls can come in between: each of `keyExists`,
`readValue` and `writeValue` holds `dataSync` for itself, and so does `connection->send` its own lock.
A call that runs alone is the handler (`handleReadMessage_alone`). What is sent is logged under the
call that sent it, so that two calls on one connection are told apart.
-/
namespace Diginext.Storage.Interleaved
open Cpp Effects
set_option autoImplicit false

abbrev Calls (C : Type) := Resumption (StorageServer C) JsonException

variable {C : Type}

def keyExists (key : Bytes) : Calls C Bool :=
  Resumption.read fun s => (s.dataStorage key).isSome

def readValue (key : Bytes) : Calls C Bytes := Resumption.read fun s =>
  match s.dataStorage key with
  | some value => value
  | none => []

def writeValue (key value : Bytes) : Calls C Unit := Resumption.modify fun s =>
  { s with dataStorage := Function.update s.dataStorage key (some value) }

def send (connection : C) (msg : Bytes) : Calls C Unit := Resumption.modify fun s =>
  { s with sent := s.sent ++ [(connection, msg)] }

def sendErrorStatus (lib : JsonLib) (connection : C) (description : Bytes) : Calls C Unit := do
  let json ← Resumption.lift (Json.null.assign keyStatus (.string statusError))
  let json ← Resumption.lift (json.assign keyDescription (.string description))
  let jsonString ← Resumption.lift (lib.dump json)
  send connection jsonString

def sendOkRead (lib : JsonLib) (connection : C) (value : Bytes) : Calls C Unit := do
  let json ← Resumption.lift (Json.null.assign keyStatus (.string statusOk))
  let json ← Resumption.lift (json.assign keyValue (.string value))
  let jsonString ← Resumption.lift (lib.dump json)
  send connection jsonString

def sendOkWrite (lib : JsonLib) (connection : C) : Calls C Unit := do
  let json ← Resumption.lift (Json.null.assign keyStatus (.string statusOk))
  let jsonString ← Resumption.lift (lib.dump json)
  send connection jsonString

def handleRequest (lib : JsonLib) (connection : C) (json : Json) (request key : Bytes) :
    Calls C Unit :=
  if request = requestRead then do
    if ← keyExists key then
      let value ← readValue key
      sendOkRead lib connection value
    else
      sendErrorStatus lib connection (ascii "key not found in storage")
  else if request = requestWrite then do
    Resumption.when (!json.contains keyValue) (sendErrorStatus lib connection (notFound keyKey))
    let (value, _) ← Resumption.lift (json.stringAt keyValue)
    writeValue key value
    sendOkWrite lib connection
  else
    sendErrorStatus lib connection (ascii "request must be read/write")

def handleJson (lib : JsonLib) (connection : C) (msg : Bytes) : Calls C Unit := do
  let json ← Resumption.lift (lib.parse msg)
  Resumption.when (!json.contains keyRequest) (sendErrorStatus lib connection (notFound keyRequest))
  Resumption.when (!json.contains keyKey) (sendErrorStatus lib connection (notFound keyKey))
  let (request, json) ← Resumption.lift (json.stringAt keyRequest)
  let (key, json) ← Resumption.lift (json.stringAt keyKey)
  handleRequest lib connection json request key

def handleReadMessage (lib : JsonLib) (connection : C) (msg : Bytes) : Calls C Unit :=
  Resumption.attempt (handleJson lib connection msg)
    (sendErrorStatus lib connection (ascii "json parse error"))

/-! ## A call alone -/

theorem send_alone (connection : C) (msg : Bytes) :
    (send connection msg).alone = Storage.send connection msg := rfl

theorem sendErrorStatus_alone (lib : JsonLib) (connection : C) (description : Bytes) :
    (sendErrorStatus lib connection description).alone =
      Storage.sendErrorStatus lib connection description := by
  simp only [sendErrorStatus, Resumption.alone_bind, Resumption.alone_lift, send_alone]
  rfl

theorem sendOkRead_alone (lib : JsonLib) (connection : C) (value : Bytes) :
    (sendOkRead lib connection value).alone = Storage.sendOkRead lib connection value := by
  simp only [sendOkRead, Resumption.alone_bind, Resumption.alone_lift, send_alone]
  rfl

theorem sendOkWrite_alone (lib : JsonLib) (connection : C) :
    (sendOkWrite lib connection).alone = Storage.sendOkWrite lib connection := by
  simp only [sendOkWrite, Resumption.alone_bind, Resumption.alone_lift, send_alone]
  rfl

theorem handleRequest_alone (lib : JsonLib) (connection : C) (json : Json) (request key : Bytes) :
    (handleRequest lib connection json request key).alone =
      Storage.handleRequest lib connection json request key := by
  unfold handleRequest Storage.handleRequest
  rw [Resumption.alone_ite, Resumption.alone_ite]
  simp only [Resumption.alone_bind, Resumption.alone_ite, Resumption.alone_when,
    Resumption.alone_lift, sendErrorStatus_alone, sendOkRead_alone, sendOkWrite_alone]
  rfl

theorem handleJson_alone (lib : JsonLib) (connection : C) (msg : Bytes) :
    (handleJson lib connection msg).alone = Storage.handleJson lib connection msg := by
  simp only [handleJson, Resumption.alone_bind, Resumption.alone_when, Resumption.alone_lift,
    sendErrorStatus_alone, handleRequest_alone]
  rfl

/-- **A call that nothing interrupts is the handler.** -/
theorem handleReadMessage_alone (lib : JsonLib) (connection : C) (msg : Bytes) :
    (handleReadMessage lib connection msg).alone = Storage.handleReadMessage lib connection msg := by
  rw [handleReadMessage, Resumption.alone_attempt, handleJson_alone, sendErrorStatus_alone]
  rfl

/-! ## The atomic actions of a request

A read looks twice, in `checking` whether the key is there and in `fetching` for its value; a write is
one action; then the reply is sent.
-/

def sending (connection : C) : List Bytes → Calls C Unit
  | [] => Resumption.pure ()
  | msg :: msgs => Resumption.act
      (fun s => { s with sent := s.sent ++ [(connection, msg)] }) fun _ => sending connection msgs

def fetching (lib : JsonLib) (connection : C) (key : Bytes) : Calls C Unit :=
  Resumption.act id fun s =>
    Resumption.attempt
      (sendOkRead lib connection (match s.dataStorage key with
        | some value => value
        | none => []))
      (sendErrorStatus lib connection (ascii "json parse error"))

def checking (lib : JsonLib) (connection : C) (key : Bytes) : Calls C Unit :=
  Resumption.act id fun s =>
    if (s.dataStorage key).isSome then fetching lib connection key
    else sending connection [text lib keyNotFound]

def writing (lib : JsonLib) (connection : C) (key value : Bytes) : Calls C Unit :=
  Resumption.act
    (fun s => { s with dataStorage := Function.update s.dataStorage key (some value) })
    fun _ => sending connection [text lib okWrite]

section Requests
variable {lib : JsonLib}

theorem sendErrorStatus_steps (laws : JsonLaws lib) (connection : C) {description : Bytes}
    (h : validUtf8 description = true) :
    sendErrorStatus lib connection description =
      sending connection [text lib (errorStatus description)] := by
  have hbuilt : (Json.object [(keyStatus, .string statusError)]).assign keyDescription
      (.string description) = .ok (errorStatus description) := by
    rw [Json.assign, insertMember, if_neg (by decide), if_pos (by decide), errorStatus]
  have hstatus : Json.null.assign keyStatus (.string statusError) =
      .ok (.object [(keyStatus, .string statusError)]) := rfl
  rw [sendErrorStatus, hstatus, Resumption.lift_ok_bind, hbuilt, Resumption.lift_ok_bind,
    laws.dump_eq (errorStatus_valid h), Resumption.lift_ok_bind]
  rfl

theorem sendOkRead_steps (laws : JsonLaws lib) (connection : C) {value : Bytes}
    (h : validUtf8 value = true) :
    sendOkRead lib connection value = sending connection [text lib (okRead value)] := by
  have hstatus : Json.null.assign keyStatus (.string statusOk) =
      .ok (.object [(keyStatus, .string statusOk)]) := rfl
  have hbuilt : (Json.object [(keyStatus, .string statusOk)]).assign keyValue
      (.string value) = .ok (okRead value) := by
    rw [Json.assign, insertMember, if_neg (by decide), if_neg (by decide), insertMember, okRead]
  rw [sendOkRead, hstatus, Resumption.lift_ok_bind, hbuilt, Resumption.lift_ok_bind,
    laws.dump_eq (okRead_valid h), Resumption.lift_ok_bind]
  rfl

theorem sendOkWrite_steps (laws : JsonLaws lib) (connection : C) :
    sendOkWrite lib connection = sending connection [text lib okWrite] := by
  have hstatus : Json.null.assign keyStatus (.string statusOk) = .ok okWrite := rfl
  rw [sendOkWrite, hstatus, Resumption.lift_ok_bind, laws.dump_eq okWrite_valid,
    Resumption.lift_ok_bind]
  rfl

theorem attempt_sending (connection : C) (msgs : List Bytes) (handler : Calls C Unit) :
    (sending connection msgs).attempt handler = sending connection msgs := by
  induction msgs with
  | nil => rfl
  | cons msg msgs ih =>
    rw [sending, Resumption.attempt]
    congr
    funext s
    exact ih

/-- Up to its first look at the storage a request only reads fields that are there. -/
theorem handleJson_fields (connection : C) {msg request key : Bytes} {json : Json}
    (hjson : lib.parse msg = .ok json) (hrequest : json.field keyRequest = some request)
    (hkey : json.field keyKey = some key) :
    handleJson lib connection msg = handleRequest lib connection json request key := by
  rw [handleJson, hjson, Resumption.lift_ok_bind, Json.contains_of_field hrequest,
    Json.contains_of_field hkey, Bool.not_true, Resumption.when_false_bind,
    Resumption.when_false_bind, Json.stringAt_of_field hrequest, Resumption.lift_ok_bind]
  simp only [Json.stringAt_of_field hkey, Resumption.lift_ok_bind]

theorem handleReadMessage_read (laws : JsonLaws lib) (connection : C) {msg key : Bytes}
    (h : ReadRequest lib msg key) :
    handleReadMessage lib connection msg = checking lib connection key := by
  obtain ⟨json, hjson, hrequest, hkey⟩ := h
  rw [handleReadMessage, handleJson_fields connection hjson hrequest hkey, handleRequest, if_pos rfl,
    keyExists, Resumption.read_bind, Resumption.attempt, checking]
  congr
  funext s
  by_cases hexists : (s.dataStorage key).isSome = true
  · rw [if_pos hexists, if_pos hexists, readValue, Resumption.read_bind, Resumption.attempt, fetching]
  · rw [if_neg hexists, if_neg hexists, sendErrorStatus_steps laws connection (by decide),
      attempt_sending]
    rfl

theorem handleReadMessage_write (laws : JsonLaws lib) (connection : C) {msg key value : Bytes}
    (h : WriteRequest lib msg key value) :
    handleReadMessage lib connection msg = writing lib connection key value := by
  obtain ⟨json, hjson, hrequest, hkey, hvalue⟩ := h
  rw [handleReadMessage, handleJson_fields connection hjson hrequest hkey, handleRequest,
    if_neg (by decide), if_pos rfl, Json.contains_of_field hvalue, Bool.not_true,
    Resumption.when_false_bind, Json.stringAt_of_field hvalue, Resumption.lift_ok_bind]
  simp only [writeValue, Resumption.modify_bind, Resumption.attempt]
  rw [sendOkWrite_steps laws connection, attempt_sending, writing]

end Requests

end Diginext.Storage.Interleaved
