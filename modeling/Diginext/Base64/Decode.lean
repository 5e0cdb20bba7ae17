import Diginext.Base64.Encode

/-! # `Base64::Decode`

`core/src/Base64/Base64.cpp`, the decoding half. A byte of the output array is `none` until it has
been written. The table is indexed with a signed byte converted to `int`: a byte from `0x80` on is a
negative index, and the access is `undefined`. Positions never pass the end of the input or of the
output, so their increments do not wrap. Memory for the output is taken to be available.
-/
namespace Diginext.Base64
open Outcomes Cpp
set_option autoImplicit false

def kDecodingTable : Bytes :=
  [64, 64, 64, 64, 64, 64, 64, 64, 64, 64, 64, 64, 64, 64, 64, 64,
   64, 64, 64, 64, 64, 64, 64, 64, 64, 64, 64, 64, 64, 64, 64, 64,
   64, 64, 64, 64, 64, 64, 64, 64, 64, 64, 64, 62, 64, 64, 64, 63,
   52, 53, 54, 55, 56, 57, 58, 59, 60, 61, 64, 64, 64, 64, 64, 64,
   64, 0, 1, 2, 3, 4, 5, 6, 7, 8, 9, 10, 11, 12, 13, 14,
   15, 16, 17, 18, 19, 20, 21, 22, 23, 24, 25, 64, 64, 64, 64, 64,
   64, 26, 27, 28, 29, 30, 31, 32, 33, 34, 35, 36, 37, 38, 39, 40,
   41, 42, 43, 44, 45, 46, 47, 48, 49, 50, 51, 64, 64, 64, 64, 64,
   64, 64, 64, 64, 64, 64, 64, 64, 64, 64, 64, 64, 64, 64, 64, 64,
   64, 64, 64, 64, 64, 64, 64, 64, 64, 64, 64, 64, 64, 64, 64, 64,
   64, 64, 64, 64, 64, 64, 64, 64, 64, 64, 64, 64, 64, 64, 64, 64,
   64, 64, 64, 64, 64, 64, 64, 64, 64, 64, 64, 64, 64, 64, 64, 64,
   64, 64, 64, 64, 64, 64, 64, 64, 64, 64, 64, 64, 64, 64, 64, 64,
   64, 64, 64, 64, 64, 64, 64, 64, 64, 64, 64, 64, 64, 64, 64, 64,
   64, 64, 64, 64, 64, 64, 64, 64, 64, 64, 64, 64, 64, 64, 64, 64,
   64, 64, 64, 64, 64, 64, 64, 64, 64, 64, 64, 64, 64, 64, 64, 64]

def decodingAt (index : Int32) : Result UInt8 :=
  if 0 ≤ index.toInt then .ofOption kDecodingTable[index.toInt.toNat]? else .undefined

/-- `base64[pos]`: the position behind the last byte holds a NUL. -/
def charAt (base64 : Bytes) (pos : ℕ) : Result UInt8 := .ofOption (base64 ++ [0])[pos]?

/-- `base64[i] == '=' ? 0 & i++ : kDecodingTable[static_cast<int>(base64[i++])]`: the value, and the
position afterwards. -/
def sextetAt (base64 : Bytes) (i : ℕ) : Result (UInt32 × ℕ) := do
  let c ← charAt base64 i
  if c = pad then return (0, i + 1)
  return ((← decodingAt (toInt c)).toUInt32, i + 1)

/-- `if (j < out_len) (*out)[j++] = value` -/
def store (out_len : ℕ) (value : UInt32) (j : ℕ) (out : List (Option UInt8)) :
    Result (ℕ × List (Option UInt8)) :=
  if j < out_len then
    if j < out.length then .ok (j + 1, out.set j (some (value &&& 0xFF).toUInt8))
    else .undefined
  else .ok (j, out)

def decodeStep (base64 : Bytes) (out_len i j : ℕ) (out : List (Option UInt8)) :
    Result (ℕ × ℕ × List (Option UInt8)) := do
  let (a, i) ← sextetAt base64 i
  let (b, i) ← sextetAt base64 i
  let (c, i) ← sextetAt base64 i
  let (d, i) ← sextetAt base64 i
  let triple := (a <<< (3 * 6)) + (b <<< (2 * 6)) + (c <<< (1 * 6)) + (d <<< (0 * 6))
  let (j, out) ← store out_len (triple >>> (2 * 8)) j out
  let (j, out) ← store out_len (triple >>> (1 * 8)) j out
  let (j, out) ← store out_len (triple >>> (0 * 8)) j out
  return (i, j, out)

/-- `for (size_t i = 0, j = 0; i < in_len;)` from positions `i` and `j` on. An iteration reads
`base64[i]`, so no more than `in_len` of them can be begun. -/
def decodeLoop (base64 : Bytes) (in_len out_len : ℕ) :
    ℕ → ℕ → ℕ → List (Option UInt8) → Result (List (Option UInt8))
  | 0, _, _, _ => .undefined
  | fuel + 1, i, j, out =>
    if i < in_len then do
      let (i, j, out) ← decodeStep base64 out_len i j out
      decodeLoop base64 in_len out_len fuel i j out
    else .ok out

/-- `Base64::Decode(const std::string &base64, char **out, size_t *outLength)`: the array it
allocates, whose length is `*outLength`. -/
def decodeBuffer (base64 : Bytes) : Result (List (Option UInt8)) :=
  let in_len := base64.length
  if in_len % 4 ≠ 0 then .throws (.runtime_error "Input data size is not a multiple of 4")
  else
    Outcome.catchAll (do
      let last ← charAt base64 (sizeSub in_len 1)
      let out_len := if last = pad then sizeSub (in_len / 4 * 3) 1 else in_len / 4 * 3
      let beforeLast ← charAt base64 (sizeSub in_len 2)
      let out_len := if beforeLast = pad then sizeSub out_len 1 else out_len
      decodeLoop base64 in_len out_len (in_len + 1) 0 0 (List.replicate out_len none))
    fun _ => .throws (.runtime_error "decode error")

/-- `Base64::Decode(const std::string &base64)`; a byte never written has no value. -/
def decode (base64 : Bytes) : Result Bytes :=
  if base64 = [] then .ok []
  else do
    let out ← decodeBuffer base64
    .ofOption (out.mapM id)

end Diginext.Base64
