/-
The protobuf wire format, as far as strings and messages need it.

A length is a varint of seven bits a byte, and a string or a nested message is a tag, its
length and its bytes.  What matters here is how much longer than its payload a field is:
two bytes and a 128th of the payload are enough for tag and length.
-/
import Mathlib.Algebra.Order.Ring.Nat
import Mathlib.Algebra.BigOperators.Group.List.Basic

namespace Proto

/-! ## Encoding -/

def varint (n : Nat) : List UInt8 :=
  if n < 128 then [n.toUInt8] else (n % 128 + 128).toUInt8 :: varint (n / 128)
termination_by n
decreasing_by omega

/-- A length-delimited field with a number below 16. -/
def field (number : Nat) (payload : List UInt8) : List UInt8 :=
  (8 * number + 2).toUInt8 :: (varint payload.length ++ payload)

def utf8 (s : String) : List UInt8 := s.toByteArray.data.toList

/-- A string without presence: the empty one is left out. -/
def stringField (number : Nat) (s : String) : List UInt8 :=
  if s = "" then [] else field number (utf8 s)

def repeatedField {α : Type} (number : Nat) (encode : α → List UInt8) (l : List α) : List UInt8 :=
  l.flatMap fun a => field number (encode a)

/-! ## Sizes -/

theorem length_varint_le (n : Nat) : (varint n).length ≤ 1 + n / 128 := by
  induction n using Nat.strongRecOn with
  | ind n ih =>
    rw [varint]
    by_cases h : n < 128
    · rw [if_pos h]
      simp
    · rw [if_neg h, List.length_cons]
      have hrest := ih (n / 128) (by omega)
      omega

theorem length_field_le (number : Nat) (payload : List UInt8) :
    128 * (field number payload).length ≤ 129 * payload.length + 256 := by
  have hlength := length_varint_le payload.length
  rw [field, List.length_cons, List.length_append]
  omega

theorem length_utf8 (s : String) : (utf8 s).length = s.utf8ByteSize := by
  rw [utf8, Array.length_toList]
  rfl

theorem length_stringField_le (number : Nat) (s : String) :
    128 * (stringField number s).length ≤ 129 * s.utf8ByteSize + 256 := by
  unfold stringField
  by_cases h : s = ""
  · rw [if_pos h]
    simp
  · rw [if_neg h, ← length_utf8]
    exact length_field_le number _

theorem length_repeatedField_le {α : Type} (number : Nat) (encode : α → List UInt8) (l : List α) :
    128 * (repeatedField number encode l).length ≤
      129 * (l.map fun a => (encode a).length).sum + 256 * l.length := by
  induction l with
  | nil => simp [repeatedField]
  | cons a rest ih =>
    have hfield := length_field_le number (encode a)
    rw [repeatedField] at ih ⊢
    rw [List.flatMap_cons, List.length_append, List.map_cons, List.sum_cons, List.length_cons]
    omega

end Proto
