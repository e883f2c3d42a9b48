/-!
# Bytes of text

All texts are sequences of bytes: part programs, configuration files and messages
arrive in no particular encoding, and a byte outside ASCII belongs to no class below.
This module names the bytes that carry meaning, gives the character classes, and
the operations on whole texts that the readers share: trimming, lower case, and
the cut at the first NUL.
-/

namespace PartProgram

/-- A text, byte by byte. -/
abbrev Bytes := List UInt8

/-- The bytes of an ASCII text. -/
def ascii (s : String) : Bytes := s.toList.map Char.toUInt8

namespace Byte

/-! ### Bytes with a meaning -/

/-- NUL. -/
abbrev nul : UInt8 := 0x00
/-- Horizontal tabulator. -/
abbrev tab : UInt8 := 0x09
/-- Line feed, the end of a line. -/
abbrev lf : UInt8 := 0x0a
/-- Carriage return. -/
abbrev cr : UInt8 := 0x0d
/-- Space. -/
abbrev space : UInt8 := 0x20
/-- The number sign, which starts a configuration comment. -/
abbrev hash : UInt8 := 0x23
/-- The percent sign, which marks the start or end of a program. -/
abbrev percent : UInt8 := 0x25
/-- The opening parenthesis, which starts a comment in a block. -/
abbrev openParen : UInt8 := 0x28
/-- The closing parenthesis, which ends a comment in a block. -/
abbrev closeParen : UInt8 := 0x29
/-- The asterisk, which announces a block's checksum. -/
abbrev star : UInt8 := 0x2a
/-- The plus sign. -/
abbrev plus : UInt8 := 0x2b
/-- The minus sign. -/
abbrev minus : UInt8 := 0x2d
/-- The decimal point. -/
abbrev point : UInt8 := 0x2e
/-- The slash, which marks a block that may be skipped. -/
abbrev slash : UInt8 := 0x2f
/-- The digit zero. -/
abbrev zero : UInt8 := 0x30
/-- The colon, the address of an alignment block's number. -/
abbrev colon : UInt8 := 0x3a
/-- The semicolon, which starts a comment that reaches to the end of the line. -/
abbrev semicolon : UInt8 := 0x3b
/-- The equals sign. -/
abbrev equals : UInt8 := 0x3d
/-- The letter G, the address of preparatory functions. -/
abbrev letterG : UInt8 := 0x47
/-- The letter M, the address of miscellaneous functions. -/
abbrev letterM : UInt8 := 0x4d
/-- The letter N, the address of block numbers. -/
abbrev letterN : UInt8 := 0x4e
/-- The opening bracket, which starts a section line. -/
abbrev openBracket : UInt8 := 0x5b
/-- The closing bracket, which ends a section line. -/
abbrev closeBracket : UInt8 := 0x5d

/-! ### Classes -/

/-- One of the digits `0` to `9`. -/
def isDigit (c : UInt8) : Bool := 0x30 ≤ c && c ≤ 0x39

/-- A small letter of ASCII. -/
def isLower (c : UInt8) : Bool := 0x61 ≤ c && c ≤ 0x7a

/-- A capital letter of ASCII. -/
def isUpper (c : UInt8) : Bool := 0x41 ≤ c && c ≤ 0x5a

/-- Whitespace: space, and the five bytes from the tabulator to the carriage return. -/
def isSpace (c : UInt8) : Bool := c == space || (0x09 ≤ c && c ≤ 0x0d)

/-- The capital form of a small letter; any other byte stays itself. -/
def toUpper (c : UInt8) : UInt8 := if isLower c then c - 0x20 else c

/-- The small form of a capital letter; any other byte stays itself. -/
def toLower (c : UInt8) : UInt8 := if isUpper c then c + 0x20 else c

/-- What a digit stands for. -/
def digitValue (c : UInt8) : Nat := c.toNat - 0x30

end Byte

namespace Text

/-! ### Whole texts -/

/-- The text without the whitespace it starts with. -/
def trimStart (s : Bytes) : Bytes := s.dropWhile Byte.isSpace

/-- The text without the whitespace it ends in. -/
def trimEnd (s : Bytes) : Bytes := (s.reverse.dropWhile Byte.isSpace).reverse

/-- The text without whitespace at either end. -/
def trim (s : Bytes) : Bytes := trimEnd (trimStart s)

/-- The text with small letters for capital ones. -/
def lower (s : Bytes) : Bytes := s.map Byte.toLower

/-- The text up to its first NUL, or all of it. -/
def untilNul (s : Bytes) : Bytes := s.takeWhile (· != Byte.nul)

end Text

end PartProgram
