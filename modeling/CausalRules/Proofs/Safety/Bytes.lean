import CausalRules.Proofs.Safety
import Mathlib.Data.String.Basic

/-!
# The bytes of a text

A text is a list of characters, and also a list of bytes: each character takes from one to four of
them. A character of one byte is that byte, and the first byte of a longer one is none of those.

- `utf8`: the bytes of a text.
- `byteAt`, `slice`: a byte, and the part of a text between two offsets. They crash outside the
  text, and `slice` also inside a character.
- `firstByte`: the first byte of a character; `byteChar_firstByte`, `le_firstByte`.
- `byteAt_append`, `slice_append`: what they give where a text is put together from parts.
-/

namespace CausalRules.Safety

variable {ε : Type}

/-- The bytes of a text. -/
def utf8 (text : String) : List UInt8 :=
  text.toByteArray.data.toList

/-- The byte at an offset, which must be inside the text. -/
def byteAt (text : String) (offset : Nat) : Checked ε UInt8 :=
  match (utf8 text)[offset]? with
  | some byte => return byte
  | none => crash

/-- The part of a text between two offsets. They must be in order, and at each of them a character
must begin or the text end. -/
def slice (text : String) (first last : Nat) : Checked ε String :=
  if first ≤ last ∧ String.Pos.Raw.IsValid text ⟨first⟩ ∧ String.Pos.Raw.IsValid text ⟨last⟩ then
    return String.Pos.Raw.extract text ⟨first⟩ ⟨last⟩
  else crash

/-- A byte as a character. Only the bytes below 128 are characters by themselves. -/
def byteChar (byte : UInt8) : Char :=
  Char.ofNat byte.toNat

/-! ## Bytes -/

theorem utf8_append (s t : String) : utf8 (s ++ t) = utf8 s ++ utf8 t := by
  simp [utf8, String.toByteArray_append]

theorem length_utf8 (text : String) : (utf8 text).length = text.utf8ByteSize := rfl

theorem utf8_singleton (c : Char) : utf8 (String.singleton c) = String.utf8EncodeChar c := by
  simp [utf8, List.utf8Encode_singleton]

theorem utf8_ofList_cons (c : Char) (cs : List Char) :
    utf8 (String.ofList (c :: cs)) = String.utf8EncodeChar c ++ utf8 (String.ofList cs) := by
  rw [String.ofList_cons, utf8_append, utf8_singleton]

/-! ## The first byte of a character -/

/-- The first byte of a character. -/
def firstByte (c : Char) : UInt8 :=
  (String.utf8EncodeChar c).headD 0

theorem utf8EncodeChar_eq_cons (c : Char) :
    String.utf8EncodeChar c = firstByte c :: (String.utf8EncodeChar c).tail := by
  unfold firstByte
  cases h : String.utf8EncodeChar c with
  | nil => exact (String.utf8EncodeChar_ne_nil h).elim
  | cons => rfl

/-- A character below 128 is its only byte. -/
theorem byteChar_firstByte {c : Char} (h : c.toNat < 128) : byteChar (firstByte c) = c := by
  have hle : c.val.toNat ≤ 0x7f := Nat.le_of_lt_succ h
  have hbyte : firstByte c = UInt8.ofNat c.val.toNat := by
    unfold firstByte String.utf8EncodeChar
    rw [if_pos hle]
    rfl
  have hmod : c.val.toNat % 2 ^ 8 = c.toNat := Nat.mod_eq_of_lt (by
    show c.toNat < 256
    omega)
  rw [byteChar, hbyte, UInt8.toNat_ofNat', hmod, Char.ofNat_toNat]

/-- The first byte of any other character is 128 or more. -/
theorem le_firstByte {c : Char} (h : 128 ≤ c.toNat) : 128 ≤ (firstByte c).toNat := by
  have hle : ¬c.val.toNat ≤ 0x7f := Nat.not_le.mpr h
  unfold firstByte String.utf8EncodeChar
  rw [if_neg hle]
  split
  · simp only [List.headD_cons, UInt8.toNat_ofNat']
    omega
  · split
    · simp only [List.headD_cons, UInt8.toNat_ofNat']
      omega
    · simp only [List.headD_cons, UInt8.toNat_ofNat']
      omega

theorem toNat_byteChar (byte : UInt8) : (byteChar byte).toNat = byte.toNat := by
  have hvalid : byte.toNat.isValidChar := .inl (Nat.lt_trans byte.toNat_lt (by decide))
  rw [byteChar, Char.ofNat, dif_pos hvalid]
  rfl

/-! ## Texts put together -/

section Append

variable (before : String) (c : Char) (cs : List Char)

theorem getElem?_utf8_append (text : String) (i : Nat) :
    (utf8 (before ++ text))[before.utf8ByteSize + i]? = (utf8 text)[i]? := by
  rw [utf8_append, ← length_utf8 before, List.getElem?_append_right (Nat.le_add_right ..),
    Nat.add_sub_cancel_left]

/-- The byte at the offset of a character is the first one of that character. -/
theorem byteAt_append : (byteAt (before ++ String.ofList (c :: cs)) before.utf8ByteSize :
    Checked ε UInt8) = pure (firstByte c) := by
  have hbyte := getElem?_utf8_append before (String.ofList (c :: cs)) 0
  rw [Nat.add_zero] at hbyte
  rw [byteAt, hbyte, utf8_ofList_cons, utf8EncodeChar_eq_cons]
  rfl

theorem isValid_append (s t : String) : String.Pos.Raw.IsValid (s ++ t) ⟨s.utf8ByteSize⟩ :=
  String.Pos.Raw.isValid_iff_exists_append.mpr ⟨s, t, rfl, rfl⟩

/-- A text is cut out where it was put in. -/
theorem slice_append (before middle after : String) :
    (slice (before ++ middle ++ after) before.utf8ByteSize
      (before.utf8ByteSize + middle.utf8ByteSize) : Checked ε String) = pure middle := by
  have hfirst : String.Pos.Raw.IsValid (before ++ middle ++ after) ⟨before.utf8ByteSize⟩ := by
    rw [String.append_assoc]
    exact isValid_append ..
  have hlast := isValid_append (before ++ middle) after
  rw [String.utf8ByteSize_append] at hlast
  have hextract := String.extract_of_valid before.toList middle.toList after.toList
  rw [String.ofList_append, String.ofList_append, String.utf8Len_toList, String.utf8Len_toList,
    String.ofList_toList, String.ofList_toList, String.ofList_toList] at hextract
  rw [slice, if_pos ⟨Nat.le_add_right .., hfirst, hlast⟩, hextract]

/-- A text is not cut inside a character. -/
example : (slice "é" 0 1 : Checked String String) = crash := by rfl

end Append

end CausalRules.Safety
