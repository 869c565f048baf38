/-
# Base64

What an attached image is sent as, and how it is read back.
-/
import SimpleCoder.Util.Text

namespace SimpleCoder

/-- `kAlphabet`. -/
def base64Alphabet : Bytes :=
  bytes "ABCDEFGHIJKLMNOPQRSTUVWXYZabcdefghijklmnopqrstuvwxyz0123456789+/"

/-- `kAlphabet[i]`. -/
def base64Digit (i : UInt8) : UInt8 := base64Alphabet.getD i.toNat 0

/-- `base64_encode`. -/
def base64Encode : Bytes → Bytes
  | b0 :: b1 :: b2 :: rest =>
    [base64Digit (b0 >>> 2), base64Digit (((b0 &&& 0x03) <<< 4) ||| (b1 >>> 4)),
      base64Digit (((b1 &&& 0x0F) <<< 2) ||| (b2 >>> 6)), base64Digit (b2 &&& 0x3F)] ++
      base64Encode rest
  | [b0, b1] =>
    [base64Digit (b0 >>> 2), base64Digit (((b0 &&& 0x03) <<< 4) ||| (b1 >>> 4)),
      base64Digit ((b1 &&& 0x0F) <<< 2), 0x3D]
  | [b0] => [base64Digit (b0 >>> 2), base64Digit ((b0 &&& 0x03) <<< 4), 0x3D, 0x3D]
  | [] => []

example : base64Encode (bytes "any carnal pleas") = bytes "YW55IGNhcm5hbCBwbGVhcw==" := by
  decide

/-- The table of `make_reverse`: the value of a digit, and 0xFF for what is none. -/
def base64Value (c : UInt8) : UInt8 :=
  if c ∈ base64Alphabet then (base64Alphabet.idxOf c).toUInt8 else 0xFF

/-- The loop of `base64_decode`, with its shift register and the number of bits in it that are still
to be written. -/
def base64DecodeFrom : UInt32 → Nat → Bytes → Bytes
  | _, _, [] => []
  | buf, bits, c :: cs =>
    if c = 0x3D then []
    else if Text.isspace c then base64DecodeFrom buf bits cs
    else if base64Value c = 0xFF then []
    else
      let buf := (buf <<< 6) ||| (base64Value c).toUInt32
      let bits := bits + 6
      if 8 ≤ bits then
        (buf >>> (bits - 8).toUInt32).toUInt8 :: base64DecodeFrom buf (bits - 8) cs
      else base64DecodeFrom buf bits cs

/-- `base64_decode`. -/
def base64Decode (b64 : Bytes) : Bytes := base64DecodeFrom 0 0 b64

example : base64Decode (bytes "Zm9v\nYmFy") = bytes "foobar" := by decide +kernel

end SimpleCoder
