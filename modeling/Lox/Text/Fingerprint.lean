/-!
# Text fingerprints

The 64-bit FNV-1a hash of the UTF-8 bytes of a text, by which interned strings are found.
-/

namespace Lox

/-- One round of FNV-1a: the byte is mixed in first and the product taken after, modulo
`2 ^ 64`. -/
def mixByte (hash : UInt64) (byte : UInt8) : UInt64 :=
  (hash ^^^ byte.toUInt64) * 0x100000001b3

/-- The FNV-1a hash of a text. -/
def fingerprint (text : String) : UInt64 :=
  text.toUTF8.foldl mixByte 0xcbf29ce484222325

end Lox
