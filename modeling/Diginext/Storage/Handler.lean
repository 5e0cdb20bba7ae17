import Diginext.Foundations.Effect
import Diginext.Storage.Json
import Mathlib.Logic.Function.Basic

/-! # The message handler of `StorageServer`

`core/src/Storage/StorageServer.cpp`, with the constants of `StorageCommon.h`. `C` are the
connections; `connection->send` is recorded in `sent`. Log lines are left out.
-/
namespace Diginext.Storage
open Cpp Effects
set_option autoImplicit false

/-! ## `StorageCommon.h` -/

def keyRequest : Bytes := ascii "request"
def keyKey : Bytes := ascii "key"
def keyValue : Bytes := ascii "value"
def keyStatus : Bytes := ascii "status"
def keyDescription : Bytes := ascii "description"

def statusOk : Bytes := ascii "ok"
def statusError : Bytes := ascii "error"
def requestRead : Bytes := ascii "read"
def requestWrite : Bytes := ascii "write"

/-! ## The server -/

structure StorageServer (C : Type) where
  dataStorage : Bytes → Option Bytes
  sent : List (C × Bytes)

def StorageServer.empty {C : Type} : StorageServer C := ⟨fun _ => none, []⟩

abbrev Handler (C : Type) := Effect (StorageServer C) JsonException

variable {C : Type}

def keyExists (key : Bytes) : Handler C Bool := Effect.read fun s => (s.dataStorage key).isSome

def readValue (key : Bytes) : Handler C Bytes := Effect.read fun s =>
  match s.dataStorage key with
  | some value => value
  | none => []

def writeValue (key value : Bytes) : Handler C Unit := Effect.modify fun s =>
  { s with dataStorage := Function.update s.dataStorage key (some value) }

def send (connection : C) (msg : Bytes) : Handler C Unit := Effect.modify fun s =>
  { s with sent := s.sent ++ [(connection, msg)] }

def sendErrorStatus (lib : JsonLib) (connection : C) (description : Bytes) : Handler C Unit := do
  let json ← Effect.lift (Json.null.assign keyStatus (.string statusError))
  let json ← Effect.lift (json.assign keyDescription (.string description))
  let jsonString ← Effect.lift (lib.dump json)
  send connection jsonString

def sendOkRead (lib : JsonLib) (connection : C) (value : Bytes) : Handler C Unit := do
  let json ← Effect.lift (Json.null.assign keyStatus (.string statusOk))
  let json ← Effect.lift (json.assign keyValue (.string value))
  let jsonString ← Effect.lift (lib.dump json)
  send connection jsonString

def sendOkWrite (lib : JsonLib) (connection : C) : Handler C Unit := do
  let json ← Effect.lift (Json.null.assign keyStatus (.string statusOk))
  let jsonString ← Effect.lift (lib.dump json)
  send connection jsonString

def notFound (key : Bytes) : Bytes := ascii "field" ++ key ++ ascii " not found"

/-- The branches of `handle_read_message` once `request` and `key` have been read. -/
def handleRequest (lib : JsonLib) (connection : C) (json : Json) (request key : Bytes) :
    Handler C Unit :=
  if request = requestRead then do
    if ← keyExists key then
      let value ← readValue key
      sendOkRead lib connection value
    else
      sendErrorStatus lib connection (ascii "key not found in storage")
  else if request = requestWrite then do
    -- the report names the key, not the value
    Effect.when (!json.contains keyValue) (sendErrorStatus lib connection (notFound keyKey))
    let (value, _) ← Effect.lift (json.stringAt keyValue)
    writeValue key value
    sendOkWrite lib connection
  else
    sendErrorStatus lib connection (ascii "request must be read/write")

/-- The `try` block of `handle_read_message`. A report of a missing field does not leave it. -/
def handleJson (lib : JsonLib) (connection : C) (msg : Bytes) : Handler C Unit := do
  let json ← Effect.lift (lib.parse msg)
  Effect.when (!json.contains keyRequest) (sendErrorStatus lib connection (notFound keyRequest))
  Effect.when (!json.contains keyKey) (sendErrorStatus lib connection (notFound keyKey))
  let (request, json) ← Effect.lift (json.stringAt keyRequest)
  let (key, json) ← Effect.lift (json.stringAt keyKey)
  handleRequest lib connection json request key

def handleReadMessage (lib : JsonLib) (connection : C) (msg : Bytes) : Handler C Unit :=
  Effect.attempt (handleJson lib connection msg)
    (sendErrorStatus lib connection (ascii "json parse error"))

/-- The next message is handled. An exception that left the handler would end the event loop. -/
def serve (lib : JsonLib) (s : StorageServer C) (message : C × Bytes) : Option (StorageServer C) :=
  match (handleReadMessage lib message.1 message.2).run s with
  | (.ok (), s') => some s'
  | (.error _, _) => none

end Diginext.Storage
