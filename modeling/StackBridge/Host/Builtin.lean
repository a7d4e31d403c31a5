import StackBridge.Host.Display
import StackBridge.Host.Quantity

/-!
The built-in functions: lengths, the maximum, absolute values, conversions to
integers and texts, and displays. Finding the maximum compares values, which
may involve a machine; it is left to the caller.
-/

namespace StackBridge

namespace HostValue

-- ======================================================== absolute values

/-- The absolute value. Among the sized classes it stays in its class, where
the least signed integer is its own. -/
def absolute : HostValue → Except HostFault HostValue
  | .boolean true b => .ok (.boolean true b)
  | .boolean false b => .ok (.int (if b then 1 else 0))
  | .integer (.sized w) n =>
    .ok (.integer (.sized w) (if w.fits n.natAbs then n.natAbs else n))
  | .integer _ n => .ok (.int n.natAbs)
  | .float .single x => .ok (.float .single x.abs)
  | .float .double x => .ok (.float .double x.abs)
  | .float _ x => .ok (.float .plain x.abs)
  | .fraction n d => .ok (.fraction n.natAbs d)
  | .sealed id .decimal => .ok (.sealed id .decimal)
  | .sealed _ .complex => .ok (.float .plain (Double.ofInt 1))
  | v => .error (.badOperand v.faultName)

-- =========================================================== other bases

/-- Bases in which the count of digits has no limit. -/
def isUnlimitedRadix (radix : Nat) : Bool := [2, 4, 8, 16, 32].contains radix

/-- Digits in a base, without a prefix. -/
def readPlainMagnitude (radix : Nat) (cs : List Char) : Except IntegerFault Nat :=
  readUnsigned (radixValue? radix) radix (!isUnlimitedRadix radix) cs

/-- The digits of an integer text without its sign. Base 0 goes by the
prefix; without one the base is ten, and only zero may begin with a zero. -/
def readMagnitude (radix : Nat) (cs : List Char) : Except IntegerFault Nat :=
  match cs with
  | '0' :: c :: body =>
    match radixOfLetter? c with
    | some r =>
      if radix = 0 ∨ radix = r then
        match readAfterPrefix r body with
        | some n => .ok n
        | Option.none => .error .malformed
      else readPlainMagnitude radix cs
    | Option.none =>
      if radix = 0 then
        match readPlainMagnitude 10 cs with
        | .ok (_ + 1) => .error .malformed
        | r => r
      else readPlainMagnitude radix cs
  | _ => readPlainMagnitude (if radix = 0 then 10 else radix) cs

/-- An integer text in a base. -/
def integerInRadix (radix : Nat) (cs : List Char) (shown : String) : Except HostFault HostValue :=
  let digits := cs.map fun c => ((decimalValue? c).map Nat.digitChar).getD c
  let (negative, body) := splitSign (trim isNumeralBlank digits)
  match readMagnitude radix body with
  | .ok n => .ok (.int (applySign negative n))
  | .error .malformed => .error (.badIntegerText radix shown)
  | .error (.tooLong count) => .error (.integerTextTooLong count)

/-- An integer from a text or byte string in a base. -/
def toIntegerInRadix (v radix : HostValue) : Except HostFault HostValue :=
  match radix.index? with
  | Option.none => .error (.notAnIndex radix.faultName)
  | some r =>
    if (r ≠ 0 ∧ r < 2) ∨ 36 < r then .error .badRadix
    else
      match v with
      | .text _ s => integerInRadix r.toNat s.toList (Quoted.text s)
      | .bytes .view _ => .error .radixWithoutText
      | .bytes _ b => integerInRadix r.toNat (numeralChars b) (shownStart b)
      | _ => .error .radixWithoutText

-- ================================================================= texts

/-- A byte string's text in an encoding, which was looked up by a name if one
is given, with a remedy by name for what cannot be read; that name matters
only then. -/
def decodeBytes (e : Encoding) (sought : Option String) (remedy : String) (b : Bytes) :
    Except HostFault HostValue :=
  let r := Encoding.Remedy.ofName? remedy
  match e.decodeWith (r.getD .none) b, r with
  | .ok s, _ => .ok (.str s)
  | .error _, some .forWriting => .error (.remedyForWriting sought)
  | .error f, some _ => .error (.undecodable f)
  | .error _, Option.none => .error (.unknownRemedy remedy sought)

/-- A value as a text argument of the conversion to texts. -/
def textArgument (argument : String) (v : HostValue) : Except HostFault String :=
  match v with
  | .text _ s =>
    if s.toList.contains '\x00' then .error (.embeddedZero "character") else .ok s
  | .none => .error (.builtinArity ("str() argument '" ++ argument ++ "' must be str, not None"))
  | v =>
    .error (.builtinArity
      ("str() argument '" ++ argument ++ "' must be str, not " ++ v.faultName))

/-- A byte string's text in a named encoding. Nothing needs no encoding. -/
def decodeAs (v encoding remedy : HostValue) : Except HostFault HostValue := do
  let encoding ← textArgument "encoding" encoding
  let remedy ← textArgument "errors" remedy
  match v with
  | .text _ _ => .error .textFromText
  | .bytes _ [] => .ok (.str "")
  | .bytes _ b =>
    match Encoding.ofName? encoding with
    | some e =>
      decodeBytes e (if Encoding.isCommonName encoding then Option.none else some encoding) remedy b
    | Option.none => .error (.unknownEncoding encoding)
  | v => .error (.textFromNoBytes v.faultName)

end HostValue

-- ============================================================== functions

/-- What a call of a built-in function comes to. -/
inductive BuiltinAnswer where
  | value (v : HostValue)
  /-- The greatest of some values. -/
  | greatest (candidates : List HostValue)

namespace Builtin

/-- The fault of a function of one argument. -/
def oneArgument (b : Builtin) (given : Nat) : HostFault :=
  .builtinArity (b.name ++ "() takes exactly one argument (" ++ toString given ++ " given)")

/-- What a built-in function answers. -/
def apply (legend : Legend) (b : Builtin) (args : List HostValue) :
    Except HostFault BuiltinAnswer :=
  match b, args with
  | .max, [] => .error (.builtinArity "max expected at least 1 argument, got 0")
  | .max, [v] => v.items.map .greatest
  | .max, vs => .ok (.greatest vs)
  | b, vs => (single b vs).map .value
where
  single : Builtin → List HostValue → Except HostFault HostValue
    | .len, [v] => v.length.map fun n => .int n
    | .abs, [v] => v.absolute
    | .repr, [v] => (v.display legend).map .str
    | .int, [] => .ok (.int 0)
    | .int, [v] => v.toInteger.map .int
    | .int, [v, radix] => v.toIntegerInRadix radix
    | .int, vs =>
      .error (.builtinArity
        ("int() takes at most 2 arguments (" ++ toString vs.length ++ " given)"))
    | .str, [] => .ok (.str "")
    | .str, [v] => (v.plainText legend).map .str
    | .str, [v, encoding] => v.decodeAs encoding (.str "strict")
    | .str, [v, encoding, remedy] => v.decodeAs encoding remedy
    | .str, vs =>
      .error (.builtinArity
        ("str() takes at most 3 arguments (" ++ toString vs.length ++ " given)"))
    | b, vs => .error (b.oneArgument vs.length)

end Builtin

end StackBridge
