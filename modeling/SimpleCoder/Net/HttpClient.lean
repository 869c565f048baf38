/-
# HTTP requests of the web tools

The web tools reach the network through an `HttpFn`; the real one reports every failure in the
response and never raises.
-/
import SimpleCoder.Bytes

namespace SimpleCoder

/-- `HttpRequest`. -/
structure HttpRequest where
  method : Bytes := bytes "GET"
  url : Bytes
  headers : List Bytes := []
  body : Bytes := []
  timeoutS : Int := 15
  maxBytes : Int := 2 * 1024 * 1024

/-- `HttpResponse`.  A status of 0 is a transport failure. -/
structure HttpResponse where
  status : Int := 0
  body : Bytes := []
  contentType : Bytes := []
  error : Bytes := []
  truncated : Bool := false

/-- `HttpFn`, in the world it acts on. -/
abbrev HttpFn (W : Type) := HttpRequest → W → HttpResponse × W

/-- The unreserved characters of a URL. -/
def isUnreserved (c : UInt8) : Bool :=
  (0x41 ≤ c && c ≤ 0x5A) || (0x61 ≤ c && c ≤ 0x7A) || (0x30 ≤ c && c ≤ 0x39) ||
    c = 0x2D || c = 0x5F || c = 0x2E || c = 0x7E

def upperHexDigit (n : Nat) : UInt8 := if n < 10 then 0x30 + n.toUInt8 else 0x37 + n.toUInt8

/-- `url_encode`. -/
def urlEncode (s : Bytes) : Bytes :=
  s.flatMap fun c =>
    if isUnreserved c then [c]
    else [0x25, upperHexDigit (c.toNat / 16), upperHexDigit (c.toNat % 16)]

end SimpleCoder
