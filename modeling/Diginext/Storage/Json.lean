import Diginext.Foundations.Cpp

/-! # JSON values

The part of `nlohmann::json` that `StorageServer` uses. Its source is not in the repository: the
member access below follows its documentation, and `parse` and `dump` are parameters (`JsonLib`) of
which only what `JsonLaws` names is used.
-/
namespace Diginext.Storage
open Cpp
set_option autoImplicit false

inductive Json where
  | null
  | boolean (b : Bool)
  | integer (n : Int)
  | float (bits : UInt64)
  | string (s : Bytes)
  | array (elements : List Json)
  | object (members : List (Bytes × Json))

inductive JsonException where
  | parse_error
  | type_error (id : ℕ)
  deriving DecidableEq

/-- `std::map::operator[]` followed by an assignment. -/
def insertMember (key : Bytes) (value : Json) : List (Bytes × Json) → List (Bytes × Json)
  | [] => [(key, value)]
  | (k, v) :: members =>
    if k = key then (key, value) :: members
    else if key < k then (key, value) :: (k, v) :: members
    else (k, v) :: insertMember key value members

/-! ## Member access

`contains`, `getString` and `assign` are `json.contains(key)`, `json.get<string>()` and
`json[key] = value`. The members of an object stand in the order of their keys.
-/

namespace Json

def contains (json : Json) (key : Bytes) : Bool :=
  match json with
  | object members => (members.lookup key).isSome
  | _ => false

/-- `json[key]` on a value that is not constant: the member, and what has become of the value. A
missing member is created, with the value null. -/
def index (json : Json) (key : Bytes) : Except JsonException (Json × Json) :=
  match json with
  | null => .ok (null, object [(key, null)])
  | object members =>
    match members.lookup key with
    | some value => .ok (value, object members)
    | none => .ok (null, object (insertMember key null members))
  | _ => .error (.type_error 305)

def assign (json : Json) (key : Bytes) (value : Json) : Except JsonException Json :=
  match json with
  | null => .ok (object [(key, value)])
  | object members => .ok (object (insertMember key value members))
  | _ => .error (.type_error 305)

def getString : Json → Except JsonException Bytes
  | string s => .ok s
  | _ => .error (.type_error 302)

/-- `json[key].get<string>()`, with what has become of the value. -/
def stringAt (json : Json) (key : Bytes) : Except JsonException (Bytes × Json) := do
  let (value, json) ← json.index key
  let s ← value.getString
  return (s, json)

end Json

/-! ## UTF-8 -/

/-- The ranges of the bytes that have to follow a first byte. -/
def followers (b : UInt8) : Option (List (UInt8 × UInt8)) :=
  if b ≤ 0x7F then some []
  else if 0xC2 ≤ b ∧ b ≤ 0xDF then some [(0x80, 0xBF)]
  else if b = 0xE0 then some [(0xA0, 0xBF), (0x80, 0xBF)]
  else if b = 0xED then some [(0x80, 0x9F), (0x80, 0xBF)]
  else if 0xE1 ≤ b ∧ b ≤ 0xEF then some [(0x80, 0xBF), (0x80, 0xBF)]
  else if b = 0xF0 then some [(0x90, 0xBF), (0x80, 0xBF), (0x80, 0xBF)]
  else if 0xF1 ≤ b ∧ b ≤ 0xF3 then some [(0x80, 0xBF), (0x80, 0xBF), (0x80, 0xBF)]
  else if b = 0xF4 then some [(0x80, 0x8F), (0x80, 0xBF), (0x80, 0xBF)]
  else none

def utf8Step : List (UInt8 × UInt8) → UInt8 → Option (List (UInt8 × UInt8))
  | [], b => followers b
  | (low, high) :: rest, b => if low ≤ b ∧ b ≤ high then some rest else none

def validUtf8 (s : Bytes) : Bool := s.foldlM utf8Step [] == some []

/-- Every string of the value, the keys of its objects included, is valid UTF-8. -/
inductive Json.Valid : Json → Prop where
  | null : Valid null
  | boolean (b : Bool) : Valid (boolean b)
  | integer (n : Int) : Valid (integer n)
  | float (bits : UInt64) : Valid (float bits)
  | string {s : Bytes} (h : validUtf8 s = true) : Valid (string s)
  | array {elements : List Json} (h : ∀ json ∈ elements, Valid json) : Valid (array elements)
  | object {members : List (Bytes × Json)} (hkeys : ∀ p ∈ members, validUtf8 p.1 = true)
      (h : ∀ p ∈ members, Valid p.2) : Valid (object members)

/-! ## The library -/

structure JsonLib where
  parse : Bytes → Except JsonException Json
  dump : Json → Except JsonException Bytes

/-- What is relied on: a parsed value holds valid UTF-8 only, and such a value can be dumped. -/
structure JsonLaws (lib : JsonLib) : Prop where
  parse_valid : ∀ {msg : Bytes} {json : Json}, lib.parse msg = .ok json → json.Valid
  dump_valid : ∀ {json : Json}, json.Valid → ∃ text, lib.dump json = .ok text

end Diginext.Storage
