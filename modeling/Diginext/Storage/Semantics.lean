import Diginext.Foundations.KeyValue
import Diginext.Foundations.Transition
import Diginext.Storage.HandlerMeaning

/-! # The storage server as a key-value store

A message is a command of the store (`commandOf`) or nothing at all, and `dataStorage` is what the
commands so far have made of an empty store (`serve_run`). So a write that is answered with status ok
has changed its entry and no other, every other message has changed nothing, and a read is answered
with the last write to its key. That no answer fails needs the invariant that stored values are valid
UTF-8.
-/
namespace Diginext.Storage
open Cpp Effects KeyValue Transition
set_option autoImplicit false

variable {C : Type} {lib : JsonLib}

/-- The message parses to an object that asks to write `value` under `key`. -/
def WriteRequest (lib : JsonLib) (msg key value : Bytes) : Prop :=
  ∃ json, lib.parse msg = .ok json ∧ json.field keyRequest = some requestWrite ∧
    json.field keyKey = some key ∧ json.field keyValue = some value

def ReadRequest (lib : JsonLib) (msg key : Bytes) : Prop :=
  ∃ json, lib.parse msg = .ok json ∧ json.field keyRequest = some requestRead ∧
    json.field keyKey = some key

def commandOf : Except JsonException Json → Option (Command Bytes Bytes)
  | .error _ => none
  | .ok json =>
    match json.field keyRequest, json.field keyKey with
    | some request, some key =>
      if request = requestRead then some (.read key)
      else if request = requestWrite then (json.field keyValue).map (.write key)
      else none
    | _, _ => none

def commands (lib : JsonLib) (messages : List (C × Bytes)) : List (Command Bytes Bytes) :=
  messages.filterMap fun message => commandOf (lib.parse message.2)

/-- Exactly one reply has been sent, the text of `json`. -/
def Replied (lib : JsonLib) (connection : C) (s s' : StorageServer C) (json : Json) : Prop :=
  ∃ text, lib.dump json = .ok text ∧ s'.sent = s.sent ++ [(connection, text)]

theorem commandOf_write {msg key value : Bytes} (h : WriteRequest lib msg key value) :
    commandOf (lib.parse msg) = some (.write key value) := by
  obtain ⟨json, hjson, hrequest, hkey, hvalue⟩ := h
  have hne : requestWrite ≠ requestRead := by decide
  simp [commandOf, hjson, hrequest, hkey, hvalue, hne]

theorem write_of_commandOf {msg key value : Bytes}
    (h : commandOf (lib.parse msg) = some (.write key value)) : WriteRequest lib msg key value := by
  cases hjson : lib.parse msg with
  | error e => simp [commandOf, hjson] at h
  | ok json =>
    simp only [commandOf, hjson] at h
    split at h
    · rename_i request key' hrequest hkey
      split at h
      · cases h
      · split at h
        · rename_i hwrite
          obtain ⟨value', hvalue, hcommand⟩ := Option.map_eq_some_iff.mp h
          cases hcommand
          exact ⟨json, hjson, by rw [hrequest, hwrite], hkey, hvalue⟩
        · cases h
    · cases h

/-! ## One message -/

theorem respond_data (data : Bytes → Option Bytes) (parsed : Except JsonException Json) :
    (respond data parsed).1 =
      match commandOf parsed with
      | some command => command.apply data
      | none => data := by
  cases parsed with
  | error e => rfl
  | ok json =>
    cases hrequest : json.field keyRequest with
    | none => simp [respond, commandOf, hrequest]
    | some request =>
      cases hkey : json.field keyKey with
      | none => simp [respond, commandOf, hrequest, hkey]
      | some key =>
        by_cases hread : request = requestRead
        · cases hdata : data key <;>
            simp [respond, commandOf, hrequest, hkey, hread, hdata, Command.apply]
        by_cases hwrite : request = requestWrite
        · have hne : requestWrite ≠ requestRead := by decide
          cases hvalue : json.field keyValue <;>
            simp [respond, commandOf, hrequest, hkey, hwrite, hne, hvalue, Command.apply]
        · simp [respond, commandOf, hrequest, hkey, hread, hwrite]

theorem servable_respond (laws : JsonLaws lib) {data : Bytes → Option Bytes} (h : Servable data)
    (msg : Bytes) : Servable (respond data (lib.parse msg)).1 := by
  rw [respond_data]
  cases hcommand : commandOf (lib.parse msg) with
  | none => exact h
  | some command =>
    cases command with
    | read key => exact h
    | write key value =>
      obtain ⟨json, hjson, -, -, hvalue⟩ := write_of_commandOf hcommand
      intro k v hv
      simp only [Command.apply] at hv
      by_cases hk : k = key
      · rw [hk, Function.update_self, Option.some.injEq] at hv
        rw [← hv]
        exact (laws.parse_valid hjson).field hvalue
      · rw [Function.update_of_ne hk] at hv
        exact h k v hv

theorem respond_write (data : Bytes → Option Bytes) {msg key value : Bytes}
    (h : WriteRequest lib msg key value) : (respond data (lib.parse msg)).2 = [okWrite] := by
  obtain ⟨json, hjson, hrequest, hkey, hvalue⟩ := h
  have hne : requestWrite ≠ requestRead := by decide
  simp [respond, report, hjson, hrequest, hkey, hvalue, hne, Json.contains_of_field hrequest,
    Json.contains_of_field hkey]

theorem respond_read (data : Bytes → Option Bytes) {msg key : Bytes} (h : ReadRequest lib msg key) :
    (respond data (lib.parse msg)).2 =
      [match data key with
        | some value => okRead value
        | none => keyNotFound] := by
  obtain ⟨json, hjson, hrequest, hkey⟩ := h
  cases hdata : data key <;>
    simp [respond, report, hjson, hrequest, hkey, hdata, Json.contains_of_field hrequest,
      Json.contains_of_field hkey]

theorem replied_of_respond {s : StorageServer C} {connection : C} {msg : Bytes} {json : Json}
    (laws : JsonLaws lib) (hvalid : json.Valid)
    (h : (respond s.dataStorage (lib.parse msg)).2 = [json]) :
    Replied lib connection s (s.responded lib (connection, msg)) json := by
  refine ⟨text lib json, laws.dump_eq hvalid, ?_⟩
  simp [StorageServer.responded, StorageServer.reply, h]

/-! ## Whole runs -/

/-- **The server refines the store.** It answers every message of a history, and its storage is what
the commands of the history make of the contents it began with. -/
theorem serve_run (laws : JsonLaws lib) (history : List (C × Bytes)) {s : StorageServer C}
    (hs : Servable s.dataStorage) :
    ∃ s', run (serve lib) s history = some s' ∧ Servable s'.dataStorage ∧
      s'.dataStorage = (commands lib history).foldl (fun data command => command.apply data)
        s.dataStorage := by
  induction history generalizing s with
  | nil => exact ⟨s, rfl, hs, rfl⟩
  | cons message history ih =>
    have hstep := serve_eq laws message hs
    obtain ⟨s', hrun, hs', hdata⟩ := ih (s := s.responded lib message)
      (servable_respond laws hs message.2)
    refine ⟨s', ?_, hs', ?_⟩
    · rw [run_cons hstep, hrun]
    · have hfirst : (s.responded lib message).dataStorage =
          (respond s.dataStorage (lib.parse message.2)).1 := rfl
      rw [hdata, hfirst, respond_data, commands, commands, List.filterMap_cons]
      cases commandOf (lib.parse message.2) <;> rfl

theorem empty_servable : Servable (StorageServer.empty : StorageServer C).dataStorage := by
  intro key value h
  cases h

theorem serve_empty (laws : JsonLaws lib) (history : List (C × Bytes)) :
    ∃ s, run (serve lib) (.empty : StorageServer C) history = some s ∧ Servable s.dataStorage ∧
      s.dataStorage = lastWrite (commands lib history) := by
  obtain ⟨s, hrun, hservable, hdata⟩ := serve_run laws history empty_servable
  refine ⟨s, hrun, hservable, ?_⟩
  rw [hdata, ← contents_eq_lastWrite]
  rfl

/-- **Store semantics over whole runs.** After any history from any connections, the next message is
handled: a write changes its entry, and only it, and is answered with status ok; any other message
leaves the storage alone; and a read is answered with the value of the last write to its key, or with
status error if there was none. -/
theorem store_semantics (laws : JsonLaws lib) (history : List (C × Bytes)) (connection : C)
    (msg : Bytes) :
    ∃ s s', run (serve lib) StorageServer.empty history = some s ∧
      serve lib s (connection, msg) = some s' ∧
      (∀ key value, WriteRequest lib msg key value →
        s'.dataStorage = Function.update s.dataStorage key (some value) ∧
          Replied lib connection s s' okWrite) ∧
      ((∀ key value, ¬ WriteRequest lib msg key value) → s'.dataStorage = s.dataStorage) ∧
      ∀ key, ReadRequest lib msg key → Replied lib connection s s'
        (match lastWrite (commands lib history) key with
          | some value => okRead value
          | none => keyNotFound) := by
  obtain ⟨s, hrun, hservable, hlast⟩ := serve_empty laws history
  have hafter : (s.responded lib (connection, msg)).dataStorage =
      match commandOf (lib.parse msg) with
      | some command => command.apply s.dataStorage
      | none => s.dataStorage := respond_data s.dataStorage (lib.parse msg)
  refine ⟨s, s.responded lib (connection, msg), hrun, serve_eq laws _ hservable, ?_, ?_, ?_⟩
  · intro key value hwrite
    rw [commandOf_write hwrite] at hafter
    exact ⟨hafter, replied_of_respond laws okWrite_valid (respond_write _ hwrite)⟩
  · intro hnone
    cases hcommand : commandOf (lib.parse msg) with
    | none => rw [hafter, hcommand]
    | some command =>
      cases command with
      | read key =>
        rw [hafter, hcommand]
        rfl
      | write key value => exact absurd (write_of_commandOf hcommand) (hnone key value)
  · intro key hread
    rw [← hlast]
    apply replied_of_respond laws _ (respond_read _ hread)
    cases hkey : s.dataStorage key with
    | none => exact errorStatus_valid (by decide)
    | some value => exact okRead_valid (hservable key value hkey)

/-! ## A run -/

def quoted (s : Bytes) : Bytes := ascii "\"" ++ s ++ ascii "\""

def writeText : Bytes := ascii "\x7b\"key\":\"a\",\"request\":\"write\",\"value\":\"b\"\x7d"
def readText : Bytes := ascii "\x7b\"key\":\"a\",\"request\":\"read\"\x7d"

def writeJson : Json := .object [(keyKey, .string (ascii "a")), (keyRequest, .string requestWrite),
  (keyValue, .string (ascii "b"))]
def readJson : Json := .object [(keyKey, .string (ascii "a")), (keyRequest, .string requestRead)]

/-- A library that reads a few texts, and prints flat objects of plain strings. -/
def sampleLib : JsonLib where
  parse msg :=
    if msg = writeText then .ok writeJson
    else if msg = readText then .ok readJson
    else if msg = ascii "\x7b\x7d" then .ok (.object [])
    else .error .parse_error
  dump json :=
    match json with
    | .object members => .ok (ascii "\x7b" ++ (ascii ",").intercalate (members.map fun p =>
        quoted p.1 ++ ascii ":" ++ match p.2 with
          | .string s => quoted s
          | _ => ascii "null") ++ ascii "\x7d")
    | _ => .ok (ascii "null")

theorem sampleLib_laws : JsonLaws sampleLib where
  parse_valid := by
    intro msg json h
    simp only [sampleLib] at h
    split at h
    · cases h
      apply Json.Valid.object
      · decide
      · simp only [List.mem_cons, List.not_mem_nil, or_false, forall_eq_or_imp, forall_eq]
        exact ⟨.string (by decide), .string (by decide), .string (by decide)⟩
    · split at h
      · cases h
        apply Json.Valid.object
        · decide
        · simp only [List.mem_cons, List.not_mem_nil, or_false, forall_eq_or_imp, forall_eq]
          exact ⟨.string (by decide), .string (by decide)⟩
      · split at h
        · cases h
          exact .object (by simp) (by simp)
        · cases h
  dump_valid := by
    intro json _
    cases json <;> exact ⟨_, rfl⟩

theorem store_semantics_sample : ∃ s s' : StorageServer ℕ,
    run (serve sampleLib) StorageServer.empty [(1, writeText), (2, ascii "\x7b\x7d")] = some s ∧
      serve sampleLib s (2, readText) = some s' ∧
      Replied sampleLib 2 s s' (okRead (ascii "b")) := by
  obtain ⟨s, s', hrun, hserve, -, -, hread⟩ :=
    store_semantics sampleLib_laws [(1, writeText), (2, ascii "\x7b\x7d")] 2 readText
  have hne : readText ≠ writeText := by decide
  have hrequest : ReadRequest sampleLib readText (ascii "a") :=
    ⟨readJson, by simp [sampleLib, hne], by decide, by decide⟩
  exact ⟨s, s', hrun, hserve, hread (ascii "a") hrequest⟩

end Diginext.Storage
