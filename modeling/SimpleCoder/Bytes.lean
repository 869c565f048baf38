/-
# Byte strings

`std::string` is a sequence of bytes with no promise about encoding: `read_file` puts a file's
raw bytes into one, `run_bash` a command's raw output.  So the model's strings are lists of
bytes, and being valid UTF-8 is a property (`Utf8`) that some have.

The string literals of the source are UTF-8; `bytes` gives a literal's bytes.
-/
import Mathlib.Data.UInt
import Mathlib.Tactic.Common

namespace SimpleCoder

/-- A `std::string` or `std::string_view`. -/
abbrev Bytes := List UInt8

/-- The bytes of a string literal of the source. -/
def bytes (s : String) : Bytes := s.toByteArray.data.toList

def newline : UInt8 := 0x0A

def space : UInt8 := 0x20

/-- `std::isdigit`. -/
def isDigit (c : UInt8) : Bool := 0x30 ≤ c && c ≤ 0x39

theorem bytes_append (a b : String) : bytes (a ++ b) = bytes a ++ bytes b := by
  unfold bytes
  rw [String.toByteArray_append, ByteArray.data_append, Array.toList_append]

/-- `starts_with`, also written `s.rfind(start, 0) == 0`. -/
def startsWith (s start : Bytes) : Bool := start.isPrefixOf s

/-- `std::to_string` of an integer. -/
def decimal (i : Int) : Bytes := bytes (toString i)

/-- The text of a number is that of all its digits but the last, and the last. -/
theorem decimal_of_ge {n : Nat} (h : 10 ≤ n) :
    decimal n = decimal (n / 10 : Nat) ++ decimal (n % 10 : Nat) := by
  change bytes n.repr = bytes (n / 10).repr ++ bytes (n % 10).repr
  rw [Nat.repr_eq_repr_append_repr h, bytes_append]

/-- The byte string is the UTF-8 encoding of some sequence of Unicode scalar values. -/
def Utf8 (s : Bytes) : Prop := s.toByteArray.IsValidUTF8

instance (s : Bytes) : Decidable (Utf8 s) := inferInstanceAs (Decidable s.toByteArray.IsValidUTF8)

theorem toByteArray_data_toList (b : ByteArray) : b.data.toList.toByteArray = b := by
  ext1
  simp

@[simp] theorem utf8_nil : Utf8 [] := ByteArray.isValidUTF8_empty

/-- A concatenation of valid strings is valid. -/
@[simp] theorem Utf8.append {s t : Bytes} (hs : Utf8 s) (ht : Utf8 t) : Utf8 (s ++ t) := by
  unfold Utf8 at *
  rw [List.toByteArray_append]
  exact hs.append ht

theorem Utf8.flatten {l : List Bytes} (h : ∀ s ∈ l, Utf8 s) : Utf8 l.flatten := by
  induction l with
  | nil => exact utf8_nil
  | cons s l ih =>
    rw [List.flatten_cons]
    exact (h s List.mem_cons_self).append (ih fun t ht => h t (List.mem_cons_of_mem _ ht))

/-- The literals of the source are valid. -/
@[simp] theorem utf8_bytes (s : String) : Utf8 (bytes s) := by
  unfold Utf8 bytes
  rw [toByteArray_data_toList]
  exact s.isValidUTF8

end SimpleCoder
