/-!
# The printout

What a program has printed since the host last took it. The printout has a capacity in
bytes. A line that does not fit is dropped as a whole, and a flag remembers that; a later,
shorter line may still fit and is kept.
-/

namespace Lox

/-- The printed lines that the host has not taken yet. -/
structure Printout where
  /-- The lines, each ended by a newline. -/
  text : String := ""
  /-- How many bytes may be held. -/
  capacity : Nat := 1048576
  /-- Whether a line has been dropped. -/
  truncated : Bool := false
  deriving DecidableEq, Repr

namespace Printout

/-- Adds a line, if it still fits with its newline. -/
def writeLine (p : Printout) (line : String) : Printout :=
  if p.capacity < p.text.utf8ByteSize + line.utf8ByteSize + 1 then { p with truncated := true }
  else { p with text := p.text ++ line ++ "\n" }

/-- The printout after its text has been taken. -/
def taken (p : Printout) : Printout := { p with text := "", truncated := false }

end Printout

end Lox
