import StackBridge.ErrorKind
import StackBridge.Host.Class
import StackBridge.Text.Encoding
import StackBridge.Text.Loose
import StackBridge.Text.Numeral
import StackBridge.Text.Quoted

/-!
What can go wrong with host values: conversions between them, building
values of a class, and looking things up. A fault is its cause; the kind and
the wording follow from it. Type names in a fault are `HostClass.faultName`s.
-/

namespace StackBridge

inductive HostFault where
  | noLength (typeName : String)
  | notIterable (typeName : String)
  /-- `owner` is how the value without the attribute is introduced. -/
  | noAttribute (owner member : String)
  | notCallable (typeName : String)
  | notAnIndex (typeName : String)
  | notIntegerLike (typeName : String)
  | notRealLike (typeName : String)
  | badIntegerText (radix : Nat) (shown : String)
  | integerTextTooLong (digits : Nat)
  | badFloatText (shown : String)
  | nanToInteger
  | infinityToInteger
  | nanToRatio
  | infinityToRatio
  | integerTooLarge
  | ratioTooLarge
  | noBytes (typeName : String)
  | textWithoutEncoding
  | byteOutOfRange
  | negativeCount
  | countTooLarge (typeName : String)
  | bytesTooLarge
  | lengthTooLarge
  | outOfMemory
  | unencodable (fault : EncodeFault)
  /-- A text to be written as UTF-8 holds surrogates on their own. -/
  | looseSurrogates (fault : LooseFault)
  | undecodable (fault : DecodeFault)
  | notAMember (shown className : String)
  | widthExceeded (n : Int) (width : IntWidth)
  | noInstances (className : String)
  | missingArguments (className : String) (fields : List String)
  | tooManyArguments (className : String) (least allowed given : Nat)
  | unhashable (typeName : String)
  /-- A value of a class that the machine does not know is on its stack. -/
  | cannotLive (typeName : String)
  /-- A type text that is no expression. -/
  | badTypeText (text : String)
  /-- A type that cannot be made; the text says why. -/
  | badType (text : String)
  | noMember (name : String)
  | tooDeep
  | unresolvedName (name : String)
  | unknownVariable (name : String)
  | unknownTag (tag : Int)
  | noFrame
  | noFrameToLeave
  | noSuchItem
  | unknownEncoding (name : String)
  /-- No remedy has the name; `encoding` is a name that had to be looked up. -/
  | unknownRemedy (name : String) (encoding : Option String)
  /-- The remedy is known for writing only. -/
  | remedyForWriting (encoding : Option String)
  /-- A zero in a name or setting; `part` is the unit it counts in there. -/
  | embeddedZero (part : String)
  /-- Two values that no comparison with a mark orders. -/
  | notOrdered (mark left right : String)
  | badOperand (typeName : String)
  | emptyMaximum
  | radixWithoutText
  | badRadix
  | textFromText
  | textFromNoBytes (typeName : String)
  | builtinArity (text : String)
deriving DecidableEq, Repr

namespace HostFault

def kind : HostFault → ErrorKind
  | .noAttribute .. => .missingMember
  | .badIntegerText .. | .integerTextTooLong _ | .badFloatText _ | .nanToInteger | .nanToRatio
  | .byteOutOfRange | .negativeCount | .notAMember .. | .emptyMaximum | .badRadix
  | .embeddedZero _ => .value
  | .infinityToInteger | .infinityToRatio | .integerTooLarge | .ratioTooLarge | .countTooLarge _
  | .bytesTooLarge | .lengthTooLarge | .widthExceeded .. => .overflow
  | .outOfMemory => .memory
  | .unencodable _ | .looseSurrogates _ => .encode
  | .undecodable _ => .decode
  | .unresolvedName _ => .name
  | .unknownVariable _ | .unknownTag _ | .noMember _ => .key
  | .cannotLive _ => .misuse
  | .badTypeText _ => .badSyntax
  | .tooDeep => .recursion
  | .noFrame | .noFrameToLeave | .noSuchItem => .index
  | .unknownEncoding _ | .unknownRemedy .. => .lookup
  | .noLength _ | .notIterable _ | .notCallable _ | .notAnIndex _ | .notIntegerLike _
  | .notRealLike _ | .noBytes _ | .textWithoutEncoding | .noInstances _ | .missingArguments ..
  | .tooManyArguments .. | .unhashable _ | .notOrdered .. | .badOperand _ | .radixWithoutText
  | .textFromText | .textFromNoBytes _ | .builtinArity _ | .badType _ | .remedyForWriting _ => .type

/-- The place of a stretch in a text or byte string. -/
def stretch (one many : String) (start length : Nat) : String :=
  if length = 1 then one ++ " in position " ++ toString start
  else many ++ " in position " ++ toString start ++ "-" ++ toString (start + length - 1)

def encodeMessage (f : EncodeFault) : String :=
  "'" ++ f.codec ++ "' codec can't encode "
    ++ stretch ("character '" ++ String.ofList (Quoted.numericEscape f.char.toNat) ++ "'")
      "characters" f.start f.length
    ++ ": " ++ f.reason

def looseMessage (f : LooseFault) : String :=
  "'utf-8' codec can't encode "
    ++ stretch ("character '" ++ String.ofList (Quoted.numericEscape f.code) ++ "'")
      "characters" f.start f.length
    ++ ": surrogates not allowed"

def decodeMessage (f : DecodeFault) : String :=
  "'" ++ f.codec ++ "' codec can't decode "
    ++ stretch ("byte 0x" ++ String.ofList (hexPadded 2 f.byte.toNat)) "bytes" f.start f.length
    ++ ": " ++ f.reason

/-- The names of missing arguments in a sentence. -/
def enumeration : List String → String
  | [] => ""
  | [a] => "'" ++ a ++ "'"
  | [a, b] => "'" ++ a ++ "' and '" ++ b ++ "'"
  | names =>
    let quoted := names.map fun n => "'" ++ n ++ "'"
    ", ".intercalate quoted.dropLast ++ ", and " ++ quoted.getLastD ""

/-- The wording for a value of a class that the machine does not know. -/
def cannotLiveText (typeName : String) : String :=
  "value of host type " ++ typeName ++ " cannot live on the VM stack"

/-- The wording of what went wrong while a text was read. It is told which
encoding that was, if its name had to be looked up. -/
def whileReading (encoding : Option String) (kindName text : String) : String :=
  match encoding with
  | none => text
  | some e => "decoding with '" ++ e ++ "' codec failed (" ++ kindName ++ ": " ++ text ++ ")"

/-- How much of a text is shown that is no integer. -/
def shownLimit : Nat := 200

def message : HostFault → String
  | .noLength t => "object of type '" ++ t ++ "' has no len()"
  | .notIterable t => "'" ++ t ++ "' object is not iterable"
  | .noAttribute owner a => owner ++ " has no attribute '" ++ a ++ "'"
  | .notCallable t => "'" ++ t ++ "' object is not callable"
  | .notAnIndex t => "'" ++ t ++ "' object cannot be interpreted as an integer"
  | .notIntegerLike t =>
    "int() argument must be a string, a bytes-like object or a real number, not '" ++ t ++ "'"
  | .notRealLike t => "float() argument must be a string or a real number, not '" ++ t ++ "'"
  | .badIntegerText radix shown =>
    "invalid literal for int() with base " ++ toString radix ++ ": "
      ++ (shown.take shownLimit).toString
  | .integerTextTooLong digits =>
    "Exceeds the limit (" ++ toString maxIntegerDigits
      ++ " digits) for integer string conversion: value has " ++ toString digits
      ++ " digits; use sys.set_int_max_str_digits() to increase the limit"
  | .badFloatText shown => "could not convert string to float: " ++ shown
  | .nanToInteger => "cannot convert float NaN to integer"
  | .infinityToInteger => "cannot convert float infinity to integer"
  | .nanToRatio => "cannot convert NaN to integer ratio"
  | .infinityToRatio => "cannot convert Infinity to integer ratio"
  | .integerTooLarge => "int too large to convert to float"
  | .ratioTooLarge => "integer division result too large for a float"
  | .noBytes t => "cannot convert '" ++ t ++ "' object to bytes"
  | .textWithoutEncoding => "string argument without an encoding"
  | .byteOutOfRange => "bytes must be in range(0, 256)"
  | .negativeCount => "negative count"
  | .countTooLarge t => "cannot fit '" ++ t ++ "' into an index-sized integer"
  | .bytesTooLarge => "byte string is too large"
  | .lengthTooLarge => "Python int too large to convert to C ssize_t"
  | .outOfMemory => ""
  | .unencodable f => encodeMessage f
  | .looseSurrogates f => looseMessage f
  | .undecodable f => decodeMessage f
  | .notAMember shown c => shown ++ " is not a valid " ++ c
  | .widthExceeded n w => "Python integer " ++ toString n ++ " out of bounds for " ++ w.name
  | .noInstances c => c ++ "() takes no arguments"
  | .missingArguments c fields =>
    c ++ "() missing " ++ toString fields.length ++ " required positional argument"
      ++ (if fields.length = 1 then "" else "s") ++ ": " ++ enumeration fields
  | .tooManyArguments c least allowed given =>
    c ++ "() takes " ++ (if least < allowed then "from " ++ toString least ++ " to " else "")
      ++ toString allowed ++ " positional argument"
      ++ (if least = allowed ∧ allowed = 1 then "" else "s") ++ " but " ++ toString given
      ++ (if given = 1 then " was given" else " were given")
  | .unhashable t => "unhashable type: '" ++ t ++ "'"
  | .cannotLive t => cannotLiveText t
  | .badTypeText s => "Forward reference must be an expression -- got " ++ Quoted.text s
  | .badType text => text
  | .noMember n => Quoted.text n
  | .tooDeep => "maximum recursion depth exceeded"
  | .unresolvedName n => "name '" ++ n ++ "' is not defined"
  | .unknownVariable n => Quoted.text n
  | .unknownTag n => toString n
  | .noFrame => "list index out of range"
  | .noFrameToLeave => "pop from empty list"
  | .noSuchItem => "list index out of range"
  | .unknownEncoding n => "unknown encoding: " ++ n
  | .unknownRemedy n e => whileReading e "LookupError" ("unknown error handler name '" ++ n ++ "'")
  | .remedyForWriting e =>
    whileReading e "TypeError" "don't know how to handle UnicodeDecodeError in error callback"
  | .embeddedZero part => "embedded null " ++ part
  | .notOrdered m l r =>
    "'" ++ m ++ "' not supported between instances of '" ++ l ++ "' and '" ++ r ++ "'"
  | .badOperand t => "bad operand type for abs(): '" ++ t ++ "'"
  | .emptyMaximum => "max() arg is an empty sequence"
  | .radixWithoutText => "int() can't convert non-string with explicit base"
  | .badRadix => "int() base must be >= 2 and <= 36, or 0"
  | .textFromText => "decoding str is not supported"
  | .textFromNoBytes t => "decoding to str: need a bytes-like object, " ++ t ++ " found"
  | .builtinArity t => t

end HostFault

end StackBridge
