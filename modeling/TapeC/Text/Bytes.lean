/-! Bytes and text. A text is stored on the tape as bytes: a character up to
U+00FF is the byte with its code point, any other is its UTF-8 encoding. -/

namespace TapeC.Text

/-- The bytes that one character of a string literal stands for. -/
def charBytes (c : Char) : List UInt8 :=
  if c.toNat < 256 then [c.toNat.toUInt8] else String.utf8EncodeChar c

/-- The bytes that a string literal stands for. -/
def bytes (cs : List Char) : List UInt8 := cs.flatMap charBytes

/-- The UTF-8 encoding of a text. -/
def utf8 (s : String) : List UInt8 := s.toUTF8.toList

/-- The text that bytes encode, if they are valid UTF-8. -/
def ofUTF8? (bs : List UInt8) : Option String := String.fromUTF8? ⟨bs.toArray⟩

end TapeC.Text
