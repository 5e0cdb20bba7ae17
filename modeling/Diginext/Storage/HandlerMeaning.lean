import Diginext.Storage.Handler

/-! # What the message handler does

`respond` says without exceptions what a message does to `dataStorage` and which replies are sent for
it, in order. `serve_eq` shows that `handle_read_message` does just that and lets no exception out, as
long as all stored values are valid UTF-8 (`Servable`), so that every reply can be dumped.
-/
namespace Diginext.Storage
open Cpp Effects
set_option autoImplicit false

/-! ## Replies -/

def errorStatus (description : Bytes) : Json :=
  .object [(keyDescription, .string description), (keyStatus, .string statusError)]

def okRead (value : Bytes) : Json :=
  .object [(keyStatus, .string statusOk), (keyValue, .string value)]

def okWrite : Json := .object [(keyStatus, .string statusOk)]

def parseError : Json := errorStatus (ascii "json parse error")
def keyNotFound : Json := errorStatus (ascii "key not found in storage")
def requestUnknown : Json := errorStatus (ascii "request must be read/write")

/-- The member of a value, if it is a string. -/
def Json.field (json : Json) (key : Bytes) : Option Bytes :=
  match json with
  | object members =>
    match members.lookup key with
    | some (string s) => some s
    | _ => none
  | _ => none

def report (json : Json) (key named : Bytes) : List Json :=
  if json.contains key then [] else [errorStatus (notFound named)]

/-- The contents of the storage after a message and the replies to it. -/
def respond (data : Bytes → Option Bytes) :
    Except JsonException Json → (Bytes → Option Bytes) × List Json
  | .error _ => (data, [parseError])
  | .ok json =>
    let reports := report json keyRequest keyRequest ++ report json keyKey keyKey
    match json.field keyRequest, json.field keyKey with
    | some request, some key =>
      if request = requestRead then
        match data key with
        | some value => (data, reports ++ [okRead value])
        | none => (data, reports ++ [keyNotFound])
      else if request = requestWrite then
        match json.field keyValue with
        | some value => (Function.update data key (some value), reports ++ [okWrite])
        | none => (data, reports ++ report json keyValue keyKey ++ [parseError])
      else (data, reports ++ [requestUnknown])
    | _, _ => (data, reports ++ [parseError])

/-! ## Fields -/

theorem Json.contains_of_field {json : Json} {key s : Bytes} (h : json.field key = some s) :
    json.contains key = true := by
  match json with
  | object members =>
    simp only [field] at h
    split at h
    · rename_i hs
      simp [contains, hs]
    · cases h
  | null | boolean _ | integer _ | float _ | string _ | array _ => cases h

theorem Json.stringAt_of_field {json : Json} {key s : Bytes} (h : json.field key = some s) :
    json.stringAt key = .ok (s, json) := by
  match json with
  | object members =>
    simp only [field] at h
    split at h
    · rename_i hs
      cases h
      simp only [stringAt, index, hs]
      rfl
    · cases h
  | null | boolean _ | integer _ | float _ | string _ | array _ => cases h

theorem Json.stringAt_of_no_field {json : Json} {key : Bytes} (h : json.field key = none) :
    ∃ e, json.stringAt key = .error e := by
  match json with
  | object members =>
    cases hm : members.lookup key with
    | none =>
      refine ⟨.type_error 302, ?_⟩
      simp only [stringAt, index, hm]
      rfl
    | some value =>
      refine ⟨.type_error 302, ?_⟩
      simp only [stringAt, index, hm]
      cases value with
      | string s => simp [field, hm] at h
      | null | boolean _ | integer _ | float _ | array _ | object _ => rfl
  | null => exact ⟨.type_error 302, rfl⟩
  | boolean _ | integer _ | float _ | string _ | array _ => exact ⟨.type_error 305, rfl⟩

theorem Json.Valid.field {json : Json} (h : json.Valid) {key s : Bytes}
    (hs : json.field key = some s) : validUtf8 s = true := by
  cases h with
  | object hkeys hvalues =>
    rename_i members
    simp only [Json.field] at hs
    split at hs
    · rename_i hm
      cases hs
      obtain ⟨before, after, hmembers, -⟩ := List.lookup_eq_some_iff.mp hm
      have hvalue := hvalues (key, .string s) (by simp [hmembers])
      cases hvalue with
      | string hs => exact hs
    · cases hs
  | null | boolean _ | integer _ | float _ | string _ | array _ => cases hs

/-! ## Sending -/

section Sending
variable {C : Type} {lib : JsonLib}

def text (lib : JsonLib) (json : Json) : Bytes :=
  match lib.dump json with
  | .ok text => text
  | .error _ => []

def StorageServer.reply (s : StorageServer C) (lib : JsonLib) (connection : C) (replies : List Json) :
    StorageServer C :=
  { s with sent := s.sent ++ replies.map fun json => (connection, text lib json) }

@[simp] theorem reply_nil (s : StorageServer C) (connection : C) : s.reply lib connection [] = s := by
  simp [StorageServer.reply]

@[simp] theorem reply_reply (s : StorageServer C) (connection : C) (rs ss : List Json) :
    (s.reply lib connection rs).reply lib connection ss = s.reply lib connection (rs ++ ss) := by
  simp [StorageServer.reply]

@[simp] theorem reply_dataStorage (s : StorageServer C) (connection : C) (rs : List Json) :
    (s.reply lib connection rs).dataStorage = s.dataStorage := rfl

theorem JsonLaws.dump_eq (laws : JsonLaws lib) {json : Json} (h : json.Valid) :
    lib.dump json = .ok (text lib json) := by
  obtain ⟨t, ht⟩ := laws.dump_valid h
  rw [text, ht]

theorem errorStatus_valid {description : Bytes} (h : validUtf8 description = true) :
    (errorStatus description).Valid := by
  apply Json.Valid.object
  · simp only [List.mem_cons, List.not_mem_nil, or_false, forall_eq_or_imp, forall_eq]
    exact ⟨by decide, by decide⟩
  · simp only [List.mem_cons, List.not_mem_nil, or_false, forall_eq_or_imp, forall_eq]
    exact ⟨.string h, .string (by decide)⟩

theorem okRead_valid {value : Bytes} (h : validUtf8 value = true) : (okRead value).Valid := by
  apply Json.Valid.object
  · simp only [List.mem_cons, List.not_mem_nil, or_false, forall_eq_or_imp, forall_eq]
    exact ⟨by decide, by decide⟩
  · simp only [List.mem_cons, List.not_mem_nil, or_false, forall_eq_or_imp, forall_eq]
    exact ⟨.string (by decide), .string h⟩

theorem okWrite_valid : okWrite.Valid := by
  apply Json.Valid.object
  · simp only [List.mem_singleton, forall_eq]
    decide
  · simp only [List.mem_singleton, forall_eq]
    exact .string (by decide)

theorem sendErrorStatus_eq (laws : JsonLaws lib) (connection : C) {description : Bytes}
    (h : validUtf8 description = true) (s : StorageServer C) :
    (sendErrorStatus lib connection description).run s =
      (.ok (), s.reply lib connection [errorStatus description]) := by
  have hstatus : Json.null.assign keyStatus (.string statusError) =
      .ok (.object [(keyStatus, .string statusError)]) := rfl
  have hbuilt : (Json.object [(keyStatus, .string statusError)]).assign keyDescription
      (.string description) = .ok (errorStatus description) := by
    rw [Json.assign, insertMember, if_neg (by decide), if_pos (by decide), errorStatus]
  rw [sendErrorStatus, Effect.bind_of_ok (Effect.lift_of_ok hstatus s),
    Effect.bind_of_ok (Effect.lift_of_ok hbuilt s),
    Effect.bind_of_ok (Effect.lift_of_ok (laws.dump_eq (errorStatus_valid h)) s)]
  rfl

theorem sendOkRead_eq (laws : JsonLaws lib) (connection : C) {value : Bytes}
    (h : validUtf8 value = true) (s : StorageServer C) :
    (sendOkRead lib connection value).run s = (.ok (), s.reply lib connection [okRead value]) := by
  have hstatus : Json.null.assign keyStatus (.string statusOk) =
      .ok (.object [(keyStatus, .string statusOk)]) := rfl
  have hbuilt : (Json.object [(keyStatus, .string statusOk)]).assign keyValue
      (.string value) = .ok (okRead value) := by
    rw [Json.assign, insertMember, if_neg (by decide), if_neg (by decide), insertMember, okRead]
  rw [sendOkRead, Effect.bind_of_ok (Effect.lift_of_ok hstatus s),
    Effect.bind_of_ok (Effect.lift_of_ok hbuilt s),
    Effect.bind_of_ok (Effect.lift_of_ok (laws.dump_eq (okRead_valid h)) s)]
  rfl

theorem sendOkWrite_eq (laws : JsonLaws lib) (connection : C) (s : StorageServer C) :
    (sendOkWrite lib connection).run s = (.ok (), s.reply lib connection [okWrite]) := by
  have hstatus : Json.null.assign keyStatus (.string statusOk) = .ok okWrite := rfl
  rw [sendOkWrite, Effect.bind_of_ok (Effect.lift_of_ok hstatus s),
    Effect.bind_of_ok (Effect.lift_of_ok (laws.dump_eq okWrite_valid) s)]
  rfl

theorem report_eq (laws : JsonLaws lib) (connection : C) (json : Json) (key : Bytes) {named : Bytes}
    (h : validUtf8 (notFound named) = true) (s : StorageServer C) :
    (Effect.when (!json.contains key)
      (sendErrorStatus lib connection (notFound named))).run s =
      (.ok (), s.reply lib connection (report json key named)) := by
  cases hc : json.contains key with
  | true => simp [report, hc, Effect.when_of_false]
  | false => simp [report, hc, Effect.when_of_true, sendErrorStatus_eq laws connection h]

/-! ## The handler -/

def Servable (data : Bytes → Option Bytes) : Prop :=
  ∀ key value, data key = some value → validUtf8 value = true

theorem handleRequest_read (laws : JsonLaws lib) (connection : C) (json : Json) (key : Bytes)
    {s : StorageServer C} (hs : Servable s.dataStorage) :
    (handleRequest lib connection json requestRead key).run s = (.ok (), s.reply lib connection
      [match s.dataStorage key with
        | some value => okRead value
        | none => keyNotFound]) := by
  have hexists : (keyExists key : Handler C Bool).run s =
      (.ok (s.dataStorage key).isSome, s) := Effect.read_run _ s
  rw [handleRequest, if_pos rfl, Effect.bind_of_ok hexists]
  cases hkey : s.dataStorage key with
  | none =>
    simp only [Option.isSome_none, Bool.false_eq_true, if_false]
    exact sendErrorStatus_eq laws connection (by decide) s
  | some value =>
    have hread : (readValue key : Handler C Bytes).run s = (.ok value, s) := by
      rw [readValue, Effect.read_run, hkey]
    simp only [Option.isSome_some, if_true]
    rw [Effect.bind_of_ok hread]
    exact sendOkRead_eq laws connection (hs key value hkey) s

theorem handleRequest_write (laws : JsonLaws lib) (connection : C) {json : Json} (key : Bytes)
    {value : Bytes} (hvalue : json.field keyValue = some value) (s : StorageServer C) :
    (handleRequest lib connection json requestWrite key).run s = (.ok (), StorageServer.reply
      { s with dataStorage := Function.update s.dataStorage key (some value) } lib connection
      [okWrite]) := by
  have hreport : report json keyValue keyKey = [] := by
    simp [report, Json.contains_of_field hvalue]
  have hwrite : (writeValue key value : Handler C Unit).run s =
      (.ok (), { s with dataStorage := Function.update s.dataStorage key (some value) }) :=
    Effect.modify_run _ s
  rw [handleRequest, if_neg (by decide), if_pos rfl,
    Effect.bind_of_ok (report_eq laws connection json keyValue (by decide) s), hreport, reply_nil,
    Effect.bind_of_ok (Effect.lift_of_ok (Json.stringAt_of_field hvalue) s)]
  simp only
  rw [Effect.bind_of_ok hwrite, sendOkWrite_eq laws connection]

theorem handleRequest_write_throws (laws : JsonLaws lib) (connection : C) {json : Json} (key : Bytes)
    (hvalue : json.field keyValue = none) (s : StorageServer C) :
    ∃ e, (handleRequest lib connection json requestWrite key).run s =
      (.error e, s.reply lib connection (report json keyValue keyKey)) := by
  obtain ⟨e, he⟩ := Json.stringAt_of_no_field hvalue
  refine ⟨e, ?_⟩
  rw [handleRequest, if_neg (by decide), if_pos rfl,
    Effect.bind_of_ok (report_eq laws connection json keyValue (by decide) s),
    Effect.bind_of_error (Effect.lift_of_error he _)]

theorem handleRequest_unknown (laws : JsonLaws lib) (connection : C) (json : Json)
    {request : Bytes} (key : Bytes) (hread : request ≠ requestRead) (hwrite : request ≠ requestWrite)
    (s : StorageServer C) :
    (handleRequest lib connection json request key).run s =
      (.ok (), s.reply lib connection [requestUnknown]) := by
  rw [handleRequest, if_neg hread, if_neg hwrite]
  exact sendErrorStatus_eq laws connection (by decide) s

def StorageServer.responded (s : StorageServer C) (lib : JsonLib) (message : C × Bytes) :
    StorageServer C :=
  let answer := respond s.dataStorage (lib.parse message.2)
  StorageServer.reply { s with dataStorage := answer.1 } lib message.1 answer.2

theorem handleJson_reports (laws : JsonLaws lib) (connection : C) {msg : Bytes} {json : Json}
    (hjson : lib.parse msg = .ok json) (s : StorageServer C) :
    (handleJson lib connection msg).run s = (do
      let (request, json) ← Effect.lift (json.stringAt keyRequest)
      let (key, json) ← Effect.lift (json.stringAt keyKey)
      handleRequest lib connection json request key : Handler C Unit).run
      (s.reply lib connection (report json keyRequest keyRequest ++ report json keyKey keyKey)) := by
  rw [handleJson, Effect.bind_of_ok (Effect.lift_of_ok hjson s),
    Effect.bind_of_ok (report_eq laws connection json keyRequest (by decide) s),
    Effect.bind_of_ok (report_eq laws connection json keyKey (by decide) _), reply_reply]

theorem handled_of_throws (laws : JsonLaws lib) (connection : C) {msg : Bytes}
    {s s' : StorageServer C} {e : JsonException}
    (h : (handleJson lib connection msg).run s = (.error e, s')) :
    (handleReadMessage lib connection msg).run s = (.ok (), s'.reply lib connection [parseError]) := by
  rw [handleReadMessage, Effect.attempt_of_error h]
  exact sendErrorStatus_eq laws connection (by decide) s'

/-- **The handler does what `respond` says.** -/
theorem handleReadMessage_eq (laws : JsonLaws lib) (connection : C) (msg : Bytes)
    {s : StorageServer C} (hs : Servable s.dataStorage) :
    (handleReadMessage lib connection msg).run s = (.ok (), s.responded lib (connection, msg)) := by
  unfold StorageServer.responded
  cases hjson : lib.parse msg with
  | error e =>
    have hthrows : (handleJson lib connection msg).run s = (.error e, s) := by
      rw [handleJson, Effect.bind_of_error (Effect.lift_of_error hjson s)]
    exact handled_of_throws laws connection hthrows
  | ok json =>
    have hfields := handleJson_reports laws connection hjson s
    have hserved : Servable (s.reply lib connection
        (report json keyRequest keyRequest ++ report json keyKey keyKey)).dataStorage := hs
    cases hrequest : json.field keyRequest with
    | none =>
      obtain ⟨e, he⟩ := Json.stringAt_of_no_field hrequest
      rw [Effect.bind_of_error (Effect.lift_of_error he _)] at hfields
      rw [handled_of_throws laws connection hfields]
      simp [respond, hrequest]
    | some request =>
      rw [Effect.bind_of_ok (Effect.lift_of_ok (Json.stringAt_of_field hrequest) _)] at hfields
      cases hkey : json.field keyKey with
      | none =>
        obtain ⟨e, he⟩ := Json.stringAt_of_no_field hkey
        simp only at hfields
        rw [Effect.bind_of_error (Effect.lift_of_error he _)] at hfields
        rw [handled_of_throws laws connection hfields]
        simp [respond, hrequest, hkey]
      | some key =>
        simp only at hfields
        rw [Effect.bind_of_ok (Effect.lift_of_ok (Json.stringAt_of_field hkey) _)] at hfields
        simp only at hfields
        by_cases hread : request = requestRead
        · subst hread
          rw [handleRequest_read laws connection json key hserved] at hfields
          rw [handleReadMessage, Effect.attempt_of_ok hfields]
          cases hvalue : s.dataStorage key <;> simp [respond, hrequest, hkey, hvalue]
        by_cases hwrite : request = requestWrite
        · subst hwrite
          cases hvalue : json.field keyValue with
          | none =>
            obtain ⟨e, he⟩ := handleRequest_write_throws laws connection key hvalue _
            rw [handled_of_throws laws connection (hfields.trans he)]
            simp [respond, hrequest, hkey, hread, hvalue]
          | some value =>
            rw [handleRequest_write laws connection key hvalue] at hfields
            rw [handleReadMessage, Effect.attempt_of_ok hfields]
            simp [respond, hrequest, hkey, hread, hvalue, StorageServer.reply]
        · rw [handleRequest_unknown laws connection json key hread hwrite] at hfields
          rw [handleReadMessage, Effect.attempt_of_ok hfields]
          simp [respond, hrequest, hkey, hread, hwrite]

/-- No exception leaves the handler. -/
theorem serve_eq (laws : JsonLaws lib) (message : C × Bytes) {s : StorageServer C}
    (hs : Servable s.dataStorage) : serve lib s message = some (s.responded lib message) := by
  rw [serve, handleReadMessage_eq laws message.1 message.2 hs]

end Sending

end Diginext.Storage
