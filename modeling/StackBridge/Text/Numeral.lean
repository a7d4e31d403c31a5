import StackBridge.Bytes
import StackBridge.Double.Text
import StackBridge.Text.CharClass

/-!
Number texts. Single underscores may stand between digits. `readInteger` and
`readFloat` read a text that has been trimmed; `Numeral.ofBytes?` and
`Numeral.toBytes` are the machine's own conversions between number slots and
byte strings.

Main statements of the theory: an integer's bytes read back as that integer,
and a float's bytes always read back as a float.
-/

namespace StackBridge

-- ================================================================ digits

/-- Digits with single underscores between them. `mayEnd` says whether the
text may stop here, which is after a digit only. -/
def readDigits (value? : Char → Option Nat) (radix : Nat) : List Char → Nat → Bool → Option Nat
  | [], acc, mayEnd => if mayEnd then some acc else none
  | c :: cs, acc, mayEnd =>
    if c = '_' then if mayEnd then readDigits value? radix cs acc false else none
    else (value? c).bind fun d => readDigits value? radix cs (acc * radix + d) true

/-- A sign and the text after it. -/
def splitSign : List Char → Bool × List Char
  | '-' :: cs => (true, cs)
  | '+' :: cs => (false, cs)
  | cs => (false, cs)

def applySign (negative : Bool) (n : Nat) : Int := if negative then -(n : Int) else n

/-- More digits than this are refused in a decimal integer. -/
def maxIntegerDigits : Nat := 4300

/-- Why a text is no integer. -/
inductive IntegerFault where
  | malformed
  | tooLong (digits : Nat)
deriving DecidableEq, Repr

/-- The digits and underscores in front of a text. -/
def digitRun (value? : Char → Option Nat) (cs : List Char) : List Char :=
  cs.takeWhile fun c => c == '_' || (value? c).isSome

/-- An unsigned integer. In bases where `limited` holds the digits in front
are counted before anything is said about what follows them. -/
def readUnsigned (value? : Char → Option Nat) (radix : Nat) (limited : Bool) (cs : List Char) :
    Except IntegerFault Nat :=
  let run := digitRun value? cs
  match readDigits value? radix run 0 false with
  | none => .error .malformed
  | some n =>
    let digits := (run.filter (· != '_')).length
    if limited && decide (maxIntegerDigits < digits) then .error (.tooLong digits)
    else if run.length = cs.length then .ok n
    else .error .malformed

/-- A trimmed text read as a decimal integer. -/
def readInteger (cs : List Char) : Except IntegerFault Int :=
  let (negative, body) := splitSign cs
  (readUnsigned decimalValue? 10 true body).map (applySign negative)

/-- The base that a letter after a zero announces. -/
def radixOfLetter? (c : Char) : Option Nat :=
  match c.toLower with
  | 'x' => some 16
  | 'o' => some 8
  | 'b' => some 2
  | _ => none

/-- The digits after a base prefix; one underscore may follow the prefix. -/
def readAfterPrefix (radix : Nat) : List Char → Option Nat
  | '_' :: cs => readDigits (radixValue? radix) radix cs 0 false
  | cs => readDigits (radixValue? radix) radix cs 0 false

/-- A trimmed text read as a hexadecimal integer, `0x` in front. -/
def readHexInteger (cs : List Char) : Option Int :=
  match splitSign cs with
  | (negative, '0' :: x :: body) =>
    if x = 'x' ∨ x = 'X' then (readAfterPrefix 16 body).map (applySign negative) else none
  | _ => none

-- ================================================================ floats

/-- A text without its underscores, when each stands between two digits. -/
def dropUnderscores (value? : Char → Option Nat) : Bool → List Char → Option (List Char)
  | _, [] => some []
  | afterDigit, '_' :: cs =>
    match cs with
    | [] => none
    | c :: _ =>
      if afterDigit && (value? c).isSome then dropUnderscores value? false cs else none
  | _, c :: cs => (dropUnderscores value? (value? c).isSome cs).map (c :: ·)

/-- The longest run of decimal digits in front, as values, and the rest. -/
def takeDigits : List Char → List Nat × List Char
  | [] => ([], [])
  | c :: cs =>
    match decimalValue? c with
    | none => ([], c :: cs)
    | some d => let (ds, rest) := takeDigits cs; (d :: ds, rest)

def ofDigits (ds : List Nat) : Nat := ds.foldl (fun acc d => acc * 10 + d) 0

/-- What may follow a mantissa: nothing, or an exponent. -/
def readExponent : List Char → Option Int
  | [] => some 0
  | e :: cs =>
    if e = 'e' ∨ e = 'E' then
      let (negative, body) := splitSign cs
      match takeDigits body with
      | ([], _) => none
      | (ds, []) => some (applySign negative (ofDigits ds))
      | _ => none
    else none

/-- A decimal float without a sign. -/
def readDecimal (cs : List Char) : Option Decimal :=
  let (whole, rest) := takeDigits cs
  let (part, rest) :=
    match rest with
    | '.' :: more => takeDigits more
    | _ => ([], rest)
  if whole.isEmpty && part.isEmpty then none
  else (readExponent rest).map fun e => ⟨ofDigits (whole ++ part), e - part.length⟩

/-- A trimmed text read as a float. -/
def readFloat (cs : List Char) : Option Double :=
  let (negative, body) := splitSign cs
  let word := lowerAscii body
  if word = ['i', 'n', 'f'] ∨ word = ['i', 'n', 'f', 'i', 'n', 'i', 't', 'y'] then
    some (Double.infinity negative)
  else if word = ['n', 'a', 'n'] then some (Double.nan negative)
  else
    (dropUnderscores decimalValue? false body).bind fun plain =>
      (readDecimal plain).map (Double.ofDecimal negative)

-- ======================================================= numbers in slots

/-- A number of the machine: an integer or a float. -/
inductive Numeral where
  | int (n : Int)
  | float (x : Double)
deriving DecidableEq, Repr

namespace Numeral

/-- Whether a text is written in hexadecimal; a plus sign is not allowed there. -/
def isHexText : List Char → Bool
  | '0' :: x :: _ => x == 'x' || x == 'X'
  | '-' :: '0' :: x :: _ => x == 'x' || x == 'X'
  | _ => false

/-- A trimmed text as a number: an integer if it can be one, else a float. -/
def ofText? (cs : List Char) : Option Numeral :=
  let integer :=
    if isHexText cs then readHexInteger cs else (readInteger cs).toOption
  match integer with
  | some n => some (.int n)
  | none => (readFloat cs).map .float

/-- A byte as a character; the bytes beyond ASCII stand for nothing. -/
def asciiChar (b : UInt8) : Char := if b < 128 then Char.ofNat b.toNat else '\uFFFD'

/-- The number that a byte string denotes, blanks at its ends aside. -/
def ofBytes? (b : Bytes) : Option Numeral := ofText? (trim isBlank (b.map asciiChar))

/-- An integer in decimal. -/
def integerText (n : Int) : List Char :=
  if n < 0 then '-' :: digitsOf n.natAbs else digitsOf n.natAbs

/-- Whether a text could be mistaken for an integer's. -/
def looksIntegral (cs : List Char) : Bool := cs.all fun c => c == '-' || c.isDigit

/-- The text of a number: integers in decimal, floats with fourteen
significant digits and always distinguishable from an integer. A NaN shows
its sign. -/
def text : Numeral → List Char
  | .int n => integerText n
  | .float x =>
    if x.isNaN then if x.negative then ['-', 'n', 'a', 'n'] else ['n', 'a', 'n']
    else
      let cs := x.render .general
      if looksIntegral cs then cs ++ ['.', '0'] else cs

/-- The byte string of a number. -/
def toBytes (n : Numeral) : Bytes := n.text.map fun c => UInt8.ofNat c.toNat

end Numeral

end StackBridge
