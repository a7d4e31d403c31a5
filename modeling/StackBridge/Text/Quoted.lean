import StackBridge.Bytes
import StackBridge.Text.Printable

/-!
Quoted texts and byte strings. The quote is the single one unless the
content has a single and no double quote. The quote in use, the backslash,
tab, newline and carriage return are escaped with a backslash; other
characters without a printed form are escaped by number.
-/

namespace StackBridge.Quoted

/-- The quote that surrounds a content. -/
def quoteFor (hasSingle hasDouble : Bool) : Char := if hasSingle && !hasDouble then '"' else '\''

/-- A code point by number, in the shortest of the three escapes. -/
def numericEscape (n : Nat) : List Char :=
  if n < 0x100 then '\\' :: 'x' :: hexPadded 2 n
  else if n < 0x10000 then '\\' :: 'u' :: hexPadded 4 n
  else '\\' :: 'U' :: hexPadded 8 n

/-- One character of a quoted content; `plain` says which stand for
themselves. -/
def escapeChar (plain : Char → Bool) (quote c : Char) : List Char :=
  if c = quote ∨ c = '\\' then ['\\', c]
  else if c = '\t' then ['\\', 't']
  else if c = '\n' then ['\\', 'n']
  else if c = '\r' then ['\\', 'r']
  else if plain c then [c]
  else numericEscape c.toNat

/-- A text in quotes. -/
def text (s : String) : String :=
  let cs := s.toList
  let quote := quoteFor (cs.contains '\'') (cs.contains '"')
  String.ofList (quote :: (cs.flatMap (escapeChar isPrintable quote) ++ [quote]))

def isPlainByte (c : Char) : Bool := decide (32 ≤ c.toNat) && decide (c.toNat < 127)

/-- A byte string in quotes, marked with a `b`. -/
def bytes (b : Bytes) : String :=
  let cs := b.map fun x => Char.ofNat x.toNat
  let quote := quoteFor (cs.contains '\'') (cs.contains '"')
  String.ofList ('b' :: quote :: (cs.flatMap (escapeChar isPlainByte quote) ++ [quote]))

/-- One byte of a byte array: there the single quote is escaped in either
quotes, and the double quote needs no escape in the single ones. -/
def escapeArrayByte (c : Char) : List Char :=
  if c = '"' then [c] else if c = '\'' then ['\\', c] else escapeChar isPlainByte '\'' c

/-- The content of a byte array in quotes, marked with a `b`. -/
def byteArray (b : Bytes) : String :=
  let cs := b.map fun x => Char.ofNat x.toNat
  let quote := quoteFor (cs.contains '\'') (cs.contains '"')
  String.ofList ('b' :: quote :: (cs.flatMap escapeArrayByte ++ [quote]))

end StackBridge.Quoted
