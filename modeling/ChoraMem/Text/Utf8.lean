/-
Heads of a text in UTF-8.

The first bytes of a text are well formed when they end between two characters, and then
they are the encoding of a head of the text.  The longest head within a number of bytes
leaves at most three of them over, since no character is longer than four.
-/
import Mathlib.Algebra.Order.Ring.Nat
import Mathlib.Data.List.Basic
import Mathlib.Data.List.Infix

namespace Text

/-! ## Length -/

/-- How long a text is in UTF-8. -/
def bytes (text : List Char) : Nat := (text.map Char.utf8Size).sum

theorem utf8ByteSize_ofList (text : List Char) : (String.ofList text).utf8ByteSize = bytes text := by
  induction text with
  | nil => rfl
  | cons c rest ih =>
    rw [String.ofList_cons, String.utf8ByteSize_append, String.utf8ByteSize_singleton, ih]
    rfl

theorem utf8ByteSize_eq (s : String) : s.utf8ByteSize = bytes s.toList := by
  rw [← utf8ByteSize_ofList, String.ofList_toList]

theorem bytes_append (a b : List Char) : bytes (a ++ b) = bytes a + bytes b := by
  rw [bytes, List.map_append, List.sum_append]
  rfl

theorem bytes_cons (c : Char) (rest : List Char) : bytes (c :: rest) = c.utf8Size + bytes rest := rfl

theorem size_utf8Encode (text : List Char) : text.utf8Encode.size = bytes text := by
  rw [← utf8ByteSize_ofList, ← String.size_toByteArray, String.toByteArray_ofList]

/-! ## Heads -/

section

variable {text front other : List Char} {n : Nat}

theorem bytes_le (h : front <+: text) : bytes front ≤ bytes text := by
  obtain ⟨rest, rfl⟩ := h
  rw [bytes_append]
  exact Nat.le_add_right _ _

theorem extract_utf8Encode (h : front <+: text) :
    text.utf8Encode.extract 0 (bytes front) = front.utf8Encode := by
  obtain ⟨rest, rfl⟩ := h
  rw [List.utf8Encode_append]
  exact ByteArray.extract_append_eq_left (size_utf8Encode front).symm

/-- The first bytes are well formed when a head ends there. -/
theorem valid_extract_iff (hn : n ≤ bytes text) :
    (text.utf8Encode.extract 0 n).IsValidUTF8 ↔ ∃ front, front <+: text ∧ bytes front = n := by
  constructor
  · rintro ⟨front, hfront⟩
    refine ⟨front, ?_, ?_⟩
    · refine List.isPrefix_of_utf8Encode_append_eq_utf8Encode
        (text.utf8Encode.extract n text.utf8Encode.size) ?_
      rw [← hfront, ← ByteArray.extract_eq_extract_append_extract _ (Nat.zero_le n),
        ByteArray.extract_zero_size]
      rw [size_utf8Encode]
      exact hn
    · rw [← size_utf8Encode, ← hfront, ByteArray.size_extract, size_utf8Encode, Nat.min_eq_left hn,
        Nat.sub_zero]
  · rintro ⟨front, hfront, rfl⟩
    rw [extract_utf8Encode hfront]
    exact ByteArray.isValidUTF8_utf8Encode

/-- Of two heads the shorter one is a head of the other. -/
theorem head_of_bytes_le (hfront : front <+: text) (hother : other <+: text)
    (h : bytes other ≤ bytes front) : other <+: front := by
  rcases List.prefix_or_prefix_of_prefix hother hfront with hle | hge
  · exact hle
  · obtain ⟨rest, rfl⟩ := hge
    rw [bytes_append] at h
    cases rest with
    | nil =>
      rw [List.append_nil]
    | cons c rest =>
      have hpos := c.utf8Size_pos
      rw [bytes_cons] at h
      omega

/-- A head within a number of bytes that none is longer than. -/
structure LongestHead (n : Nat) (text front : List Char) : Prop where
  head : front <+: text
  within : bytes front ≤ n
  longest : ∀ other, other <+: text → bytes other ≤ n → bytes other ≤ bytes front

theorem LongestHead.slack (h : LongestHead n text front) (hn : n < bytes text) : n ≤ bytes front + 3 := by
  obtain ⟨rest, hrest⟩ := h.head
  cases rest with
  | nil =>
    rw [List.append_nil] at hrest
    have hwithin := h.within
    rw [hrest] at hwithin
    omega
  | cons c rest =>
    have hlonger := h.longest (front ++ [c]) ⟨rest, by rw [List.append_assoc]; exact hrest⟩
    rw [bytes_append, bytes_cons] at hlonger
    have hsize := c.utf8Size_le_four
    have hpos := c.utf8Size_pos
    have hnil : bytes [] = 0 := rfl
    omega

/-- A text that fits is its own longest head. -/
theorem LongestHead.whole (h : LongestHead n text front) (hn : bytes text ≤ n) : front = text := by
  have hle := h.longest text (List.prefix_refl text) hn
  exact h.head.eq_of_length_le (head_of_bytes_le h.head (List.prefix_refl text) hle).length_le

end

end Text
