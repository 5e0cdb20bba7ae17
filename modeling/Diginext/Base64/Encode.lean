import Diginext.Foundations.Cpp

/-! # `Base64::Encode`

`core/src/Base64/Base64.cpp`, the encoding half. `encodeBuffer` is
`Encode(const char *data, size_t dataLength)`: `data` is the object the pointer points into, and every
access outside it, or outside the result, is `undefined`. The loop bound `in_len - 2` is unsigned, so
it wraps for a length below two.
-/
namespace Diginext.Base64
open Outcomes Cpp
set_option autoImplicit false

def sEncodingTable : Bytes :=
  ['A', 'B', 'C', 'D', 'E', 'F', 'G', 'H',
   'I', 'J', 'K', 'L', 'M', 'N', 'O', 'P',
   'Q', 'R', 'S', 'T', 'U', 'V', 'W', 'X',
   'Y', 'Z', 'a', 'b', 'c', 'd', 'e', 'f',
   'g', 'h', 'i', 'j', 'k', 'l', 'm', 'n',
   'o', 'p', 'q', 'r', 's', 't', 'u', 'v',
   'w', 'x', 'y', 'z', '0', '1', '2', '3',
   '4', '5', '6', '7', '8', '9', '+', '/'].map Char.toUInt8

def pad : UInt8 := Char.toUInt8 '='

def tableAt (index : Int32) : Result UInt8 :=
  if 0 ≤ index.toInt then .ofOption sEncodingTable[index.toInt.toNat]? else .undefined

def dataAt (data : Bytes) (i : ℕ) : Result UInt8 := .ofOption data[i]?

/-! ## The index expressions

`index0 a` is `(a >> 2) & 0x3F`, `high1 a` and `low1 b` are the operands of
`((a & 0x3) << 4) | ((int)(b & 0xF0) >> 4)`, `high2 b` and `low2 c` those of
`((b & 0xF) << 2) | ((int)(c & 0xC0) >> 6)`, and `index3 c` is `c & 0x3F`.
-/

def index0 (a : UInt8) : Int32 := (toInt a >>> 2) &&& 0x3F
def high1 (a : UInt8) : Int32 := (toInt a &&& 0x3) <<< 4
def low1 (b : UInt8) : Int32 := (toInt b &&& 0xF0) >>> 4
def high2 (b : UInt8) : Int32 := (toInt b &&& 0xF) <<< 2
def low2 (c : UInt8) : Int32 := (toInt c &&& 0xC0) >>> 6
def index3 (c : UInt8) : Int32 := toInt c &&& 0x3F

/-! ## The encoding

`encodeStep` is the body of the main loop, `encodeTail` what follows the loop.
-/

def encodeStep (data : Bytes) (i : ℕ) (k : Cursor) : Result Cursor := do
  let a ← dataAt data i
  let k ← k.put (← tableAt (index0 a))
  let b ← dataAt data (i + 1)
  let k ← k.put (← tableAt (high1 a ||| low1 b))
  let c ← dataAt data (i + 2)
  let k ← k.put (← tableAt (high2 b ||| low2 c))
  k.put (← tableAt (index3 c))

/-- `for (i = 0; i < in_len - 2; i += 3)` from index `i` on: the index it ends with and the buffer.
An iteration reads `data[i]`, so no more than `data.length` of them can be begun. -/
def encodeLoop (data : Bytes) (in_len : ℕ) : ℕ → ℕ → Cursor → Result (ℕ × Cursor)
  | 0, _, _ => .undefined
  | fuel + 1, i, k =>
    if i < sizeSub in_len 2 then do
      let k ← encodeStep data i k
      encodeLoop data in_len fuel (sizeT (i + 3)) k
    else .ok (i, k)

def encodeTail (data : Bytes) (in_len i : ℕ) (k : Cursor) : Result Cursor :=
  if i < in_len then do
    let a ← dataAt data i
    let k ← k.put (← tableAt (index0 a))
    let k ← if i = sizeSub in_len 1 then do
        let k ← k.put (← tableAt (high1 a))
        k.put pad
      else do
        let b ← dataAt data (i + 1)
        let k ← k.put (← tableAt (high1 a ||| low1 b))
        k.put (← tableAt (high2 b))
    k.put pad
  else .ok k

/-- `Base64::Encode(const char *data, size_t dataLength)` -/
def encodeBuffer (data : Bytes) (dataLength : ℕ) : Result Bytes := do
  let in_len := dataLength
  let out_len := sizeT (4 * (sizeT (in_len + 2) / 3))
  let ret ← stringOf out_len 0
  let (i, k) ← encodeLoop data in_len (data.length + 1) 0 ⟨ret, 0⟩
  let k ← encodeTail data in_len i k
  return k.ret

/-- `Base64::Encode(const std::string &data)`; the array behind `c_str()` ends with a NUL. -/
def encode (data : StdString) : Result Bytes :=
  if data.bytes = [] then .ok [] else encodeBuffer (data.bytes ++ [0]) data.bytes.length

end Diginext.Base64
