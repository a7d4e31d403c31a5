import StackBridge.Host.Value
import StackBridge.Text.Numeral
import StackBridge.Text.Symbol

/-!
The words of type text: names, literals and marks. A text is one expression,
which ends with its line; line breaks inside brackets do not count. The line of
the first word begins with it, and every character belongs to some word.
-/

namespace StackBridge

inductive TypeToken where
  | name (s : String)
  /-- A number, a text or a byte string as a literal. -/
  | literal (v : HostValue)
  | mark (s : String)
  | lineEnd

namespace TypeText

-- ============================================================ characters

/-- Blanks within a line. -/
def isSpace (c : Char) : Bool := c == ' ' || c == '\t' || c == '\x0c'

/-- Characters that belong to names. -/
def isNameChar (c : Char) : Bool :=
  c.isAlphanum || c == '_' || (decide (128 ≤ c.toNat) && isPrintable c && !isSymbol c)

/-- Characters that names begin with. -/
def isNameStart (c : Char) : Bool := isNameChar c && (decimalValue? c).isNone

def isDigitOrGap (c : Char) : Bool := c.isDigit || c == '_'

/-- Line breaks of all kinds as line feeds. -/
def unifyLines : List Char → List Char
  | '\x0d' :: '\n' :: cs => '\n' :: unifyLines cs
  | '\x0d' :: cs => '\n' :: unifyLines cs
  | c :: cs => c :: unifyLines cs
  | [] => []

-- =============================================================== numbers

/-- Decimal digits as an integer; only zero may begin with a zero. -/
def decimalLiteral? (digits : List Char) : Option Int :=
  match readUnsigned decimalValue? 10 true digits with
  | .ok n => if digits.head? = some '0' ∧ n ≠ 0 then none else some n
  | .error _ => none

/-- The parts of a decimal number in front of a text: digits, a fraction
after a point, an exponent. -/
def decimalParts (cs : List Char) : List Char × List Char × List Char × List Char :=
  let whole := cs.takeWhile isDigitOrGap
  let rest := cs.dropWhile isDigitOrGap
  let (fraction, rest) :=
    match rest with
    | '.' :: r => ('.' :: r.takeWhile isDigitOrGap, r.dropWhile isDigitOrGap)
    | r => ([], r)
  let exponentOf (e : List Char) (r : List Char) : List Char × List Char :=
    if (r.head?.map Char.isDigit).getD false then
      (e ++ r.takeWhile isDigitOrGap, r.dropWhile isDigitOrGap)
    else ([], rest)
  let (exponent, rest) :=
    match rest with
    | 'e' :: '+' :: r | 'E' :: '+' :: r => exponentOf ['e', '+'] r
    | 'e' :: '-' :: r | 'E' :: '-' :: r => exponentOf ['e', '-'] r
    | 'e' :: r | 'E' :: r => exponentOf ['e'] r
    | _ => ([], rest)
  (whole, fraction, exponent, rest)

/-- An imaginary number, which is no type. -/
def imaginary (x : Double) : HostValue :=
  let shown := x.text
  let short := if shown.endsWith ".0" then (shown.dropEnd 2).toString else shown
  .type (.constant (short ++ "j") (short ++ "j"))

/-- The number in front of a text; no letter may follow it. -/
def number? (cs : List Char) : Option (HostValue × List Char) :=
  let ending (v : HostValue) (rest : List Char) : Option (HostValue × List Char) :=
    if (rest.head?.map isNameChar).getD false then none else some (v, rest)
  let decimal : Option (HostValue × List Char) :=
    let (whole, fraction, exponent, rest) := decimalParts cs
    match rest with
    | 'j' :: r | 'J' :: r =>
      (readFloat (whole ++ fraction ++ exponent)).bind fun x => ending (imaginary x) r
    | _ =>
      if fraction.isEmpty && exponent.isEmpty then
        (decimalLiteral? whole).bind fun n => ending (.int n) rest
      else
        (readFloat (whole ++ fraction ++ exponent)).bind fun x => ending (.float .plain x) rest
  match cs with
  | '0' :: c :: body =>
    match radixOfLetter? c with
    | some radix =>
      (readAfterPrefix radix (body.takeWhile isNameChar)).bind fun n =>
        ending (.int n) (body.dropWhile isNameChar)
    | none => decimal
  | _ => decimal

-- ================================================================= texts

/-- The content of a quoted text up to its closing quote, escapes as they are,
and what follows. A text in one quote ends with its line. -/
def quotedContent (quote : Char) (triple : Bool) : List Char → Option (List Char × List Char)
  | [] => none
  | '\\' :: c :: cs =>
    (quotedContent quote triple cs).map fun p => ('\\' :: c :: p.1, p.2)
  | c :: cs =>
    if c = quote ∧ (!triple || [quote, quote].isPrefixOf cs) then
      some ([], if triple then cs.drop 2 else cs)
    else if c = '\n' ∧ !triple then none
    else (quotedContent quote triple cs).map fun p => (c :: p.1, p.2)

def digitsValue? (radix : Nat) (cs : List Char) : Option Nat :=
  readDigits (radixValue? radix) radix cs 0 false

/-- The character with a number. -/
def charOf? (n : Nat) : Option Char := if n.isValidChar then some (Char.ofNat n) else none

/-- The letters of escapes and the characters that they stand for. -/
def simpleEscapes : List (Char × Char) :=
  [('\\', '\\'), ('\'', '\''), ('"', '"'), ('a', '\x07'), ('b', '\x08'), ('f', '\x0c'),
   ('n', '\n'), ('r', '\x0d'), ('t', '\t'), ('v', '\x0b')]

/-- How many hexadecimal digits follow the letter of an escape. -/
def escapeWidth? (wide : Bool) (c : Char) : Option Nat :=
  if c = 'x' then some 2
  else if wide && c == 'u' then some 4
  else if wide && c == 'U' then some 8
  else none

/-- A content with its escapes resolved; `wide` for texts, which know more
escapes than byte strings. The fuel is the content's length. -/
def resolveEscapes (wide : Bool) : Nat → List Char → Option (List Char)
  | 0, _ => some []
  | _, [] => some []
  | fuel + 1, '\\' :: '\n' :: cs => resolveEscapes wide fuel cs
  | fuel + 1, '\\' :: c :: cs =>
    match simpleEscapes.find? (·.1 == c), escapeWidth? wide c with
    | some (_, d), _ => (resolveEscapes wide fuel cs).map (d :: ·)
    | none, some width =>
      if cs.length < width then none
      else do
        let n ← digitsValue? 16 (cs.take width)
        let d ← charOf? n
        return d :: (← resolveEscapes wide fuel (cs.drop width))
    | none, none =>
      let octal := ((c :: cs).take 3).takeWhile fun d => (radixValue? 8 d).isSome
      match digitsValue? 8 octal with
      | some n => do
        let d ← charOf? n
        return d :: (← resolveEscapes wide fuel ((c :: cs).drop octal.length))
      | none => (resolveEscapes wide fuel cs).map fun ds => '\\' :: c :: ds
  | fuel + 1, c :: cs => (resolveEscapes wide fuel cs).map (c :: ·)

/-- The value of a quoted text with the letters in front of it, lower case. -/
def quotedValue? (letters : String) (content : List Char) : Option HostValue :=
  let isRaw := letters.toList.contains 'r'
  let isBytes := letters.toList.contains 'b'
  let isFormat := letters.toList.contains 'f'
  let isBrace (c : Char) : Bool := c == '\x7b' || c == '\x7d'
  if isFormat && content.any isBrace then none
  else if isBytes && content.any (fun c => decide (128 ≤ c.toNat)) then none
  else do
    let cs ← if isRaw then some content else resolveEscapes (!isBytes) content.length content
    return if isBytes then .bytes .plain (cs.map fun c => UInt8.ofNat c.toNat)
      else .str (String.ofList cs)

/-- The letters that may stand in front of a quote. -/
def quoteLetters : List String := ["", "r", "u", "b", "br", "rb", "f", "fr", "rf"]

/-- The text or byte string in front of a text, from its quote on. -/
def quoted? (letters : String) (quote : Char) (cs : List Char) :
    Option (HostValue × List Char) := do
  let triple := [quote, quote].isPrefixOf cs
  let (content, rest) ← quotedContent quote triple (if triple then cs.drop 2 else cs)
  let v ← quotedValue? letters content
  return (v, rest)

-- ================================================================= marks

/-- The marks of several characters, longer ones first. -/
def longMarks : List String := ["...", "**", "//", "<<", ">>", "<=", ">=", "==", "!=", ":="]

/-- The mark in front of a text. -/
def mark? (cs : List Char) : Option (String × List Char) :=
  match longMarks.find? (·.toList.isPrefixOf cs), cs with
  | some m, _ => some (m, cs.drop m.length)
  | none, c :: rest =>
    if "()[]\x7b\x7d,:.@=+-*/%&|^~<>".toList.contains c then some (String.singleton c, rest)
    else none
  | none, [] => none

/-- The depth of brackets after a mark. -/
def depthAfter (depth : Nat) (m : String) : Nat :=
  if ["(", "[", "\x7b"].contains m then depth + 1
  else if [")", "]", "\x7d"].contains m then depth - 1
  else depth

-- ================================================================ tokens

/-- One word in front of a text and what follows it. -/
def word? (cs : List Char) : Option (TypeToken × List Char) :=
  match cs with
  | [] => none
  | c :: rest =>
    let name := cs.takeWhile isNameChar
    let after := cs.dropWhile isNameChar
    let literal (p : HostValue × List Char) := (TypeToken.literal p.1, p.2)
    if c.isDigit || (c == '.' && (rest.head?.map Char.isDigit).getD false) then
      (number? cs).map literal
    else if c == '\'' || c == '"' then (quoted? "" c rest).map literal
    else if isNameStart c then
      let letters := String.ofList (lowerAscii name)
      match after with
      | q :: r =>
        if (q == '\'' || q == '"') && quoteLetters.contains letters then
          (quoted? letters q r).map literal
        else some (.name (String.ofList name), after)
      | [] => some (.name (String.ofList name), after)
    else (mark? cs).map fun p => (.mark p.1, p.2)

/-- The words of a text whose first word has been reached; `depth` counts the
open brackets. The fuel is the text's length. -/
def wordsFrom : Nat → Nat → List Char → Option (List TypeToken)
  | 0, _, _ => some []
  | _, _, [] => some []
  | fuel + 1, depth, c :: cs =>
    if isSpace c then wordsFrom fuel depth cs
    else if c = '#' then wordsFrom fuel depth (cs.dropWhile (· != '\n'))
    else if c = '\n' then
      (wordsFrom fuel depth cs).map fun ts => if depth = 0 then .lineEnd :: ts else ts
    else if c = '\\' ∧ cs.head? = some '\n' then
      if cs.length = 1 then none else wordsFrom fuel depth (cs.drop 1)
    else
      match word? (c :: cs) with
      | none => none
      | some (.mark m, rest) => (wordsFrom fuel (depthAfter depth m) rest).map (.mark m :: ·)
      | some (t, rest) => (wordsFrom fuel depth rest).map (t :: ·)

/-- How many blanks a line begins with, from its last page break on. -/
def indentation (cs : List Char) : Nat :=
  ((cs.takeWhile isSpace).reverse.takeWhile (· != '\x0c')).length

/-- The text from the first line on that has a word; the line begins with
it. The fuel is the text's length. -/
def firstLine? : Nat → List Char → Option (List Char)
  | 0, cs => some cs
  | fuel + 1, cs =>
    match cs.dropWhile isSpace with
    | '\n' :: rest => firstLine? fuel rest
    | '#' :: rest => firstLine? fuel (rest.dropWhile (· != '\n'))
    | rest => if indentation cs = 0 ∨ rest.isEmpty then some rest else none

/-- The words of a type text, unless it has a character that belongs to
none. -/
def tokens? (s : String) : Option (List TypeToken) :=
  let cs := unifyLines s.toList
  (firstLine? cs.length cs).bind fun text => wordsFrom text.length 0 text

end TypeText

end StackBridge
