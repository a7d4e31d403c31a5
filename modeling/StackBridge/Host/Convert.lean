import StackBridge.Host.Fault
import StackBridge.Host.Value

/-!
Conversions of host values: to integers, floats, truth values and byte
strings, and the views of a value as a sequence and as a mapping.

The views of a compound value are made of its parts: whatever `items` or
`entries` answers nests less deeply than the value, unless the value is a
text, a byte string or a range.
-/

namespace StackBridge

namespace HostValue

/-- The name of a value's class in faults. -/
def faultName (v : HostValue) : String := v.hostClass.faultName

-- ========================================================= to an integer

/-- The characters of a byte string as far as numbers are concerned. -/
def numeralChars (b : Bytes) : List Char := b.map Numeral.asciiChar

/-- A byte string as faults about integer texts show it. -/
def shownStart (b : Bytes) : String := Quoted.bytes (b.take HostFault.shownLimit)

def integerOfText (cs : List Char) (shown : String) : Except HostFault Int :=
  match readInteger (trim isNumeralBlank cs) with
  | .ok n => .ok n
  | .error .malformed => .error (.badIntegerText 10 shown)
  | .error (.tooLong digits) => .error (.integerTextTooLong digits)

/-- The integer that a float truncates to. -/
def integerOfFloat (x : Double) : Except HostFault Int :=
  if x.isNaN then .error .nanToInteger
  else if x.isInfinite then .error .infinityToInteger
  else .ok x.truncate

/-- The integer of a number or a number's text. -/
def toInteger : HostValue → Except HostFault Int
  | .boolean _ b => .ok (if b then 1 else 0)
  | .integer _ n => .ok n
  | .float _ x => integerOfFloat x
  | .fraction n d => .ok (Int.tdiv n d)
  | .text _ s => integerOfText s.toList (Quoted.text s)
  | .bytes _ b => integerOfText (numeralChars b) (shownStart b)
  | .sealed _ .decimal => .ok 1
  | v => .error (.notIntegerLike v.faultName)

-- =========================================================== to a float

def floatOfText (cs : List Char) (shown : String) : Except HostFault Double :=
  match readFloat (trim isNumeralBlank cs) with
  | some x => .ok x
  | Option.none => .error (.badFloatText shown)

/-- A byte string as faults about float texts show it. -/
def shownBytes : BytesKind → Bytes → String
  | .array, b => "bytearray(" ++ Quoted.byteArray b ++ ")"
  | .terminated, b => "CString(" ++ Quoted.bytes b ++ ")"
  | _, b => Quoted.bytes b

/-- The float of a number or a number's text; integers and fractions are
rounded to the nearest. A plain float is the float itself. -/
def toFloat : HostValue → Except HostFault Double
  | .boolean _ b => .ok (Double.ofInt (if b then 1 else 0))
  | .integer _ n =>
    match Double.ofInt? n with
    | some x => .ok x
    | Option.none => .error .integerTooLarge
  | .float .plain x => .ok x
  | .float _ x => .ok x.untagged
  | .fraction n d =>
    let x := Double.ofRatio n d
    if x.isFinite then .ok x else .error .ratioTooLarge
  | .text _ s => floatOfText s.toList (Quoted.text s)
  | .bytes k b => floatOfText (numeralChars b) (shownBytes k b)
  | .sealed _ .decimal => .ok (Double.ofInt 1)
  | v => .error (.notRealLike v.faultName)

-- ==================================================== to a truth value

/-- Absence, zero and everything empty are false. -/
def truth : HostValue → Bool
  | .none | .nil => false
  | .boolean _ b => b
  | .integer _ n => n != 0
  | .float _ x => !x.isZero
  | .fraction n _ => n != 0
  | .text _ s => !s.isEmpty
  | .bytes _ b => !b.isEmpty
  | .range a b => decide (a < b)
  | .sequence _ items => !items.isEmpty
  | .mapping _ entries => !entries.isEmpty
  | .record _ tuple fields => !tuple || !fields.isEmpty
  | .sealed _ .set => false
  | _ => true

-- =============================================================== views

/-- The integers of a range. -/
def rangeItems (start stop : Int) : List HostValue :=
  (List.range (stop - start).toNat).map fun (i : Nat) => .int (start + i)

/-- The items of a value that can be iterated. -/
def items? : HostValue → Option (List HostValue)
  | .text _ s => some (s.toList.map fun c => .str (String.singleton c))
  | .bytes _ b => some (b.map fun x => .int x.toNat)
  | .range a b => some (rangeItems a b)
  | .sequence _ items => some items
  | .mapping _ entries => some (entries.map (·.1))
  | .record _ true fields => some (fields.map (·.2))
  | .sealed _ .set => some []
  | _ => Option.none

def items (v : HostValue) : Except HostFault (List HostValue) :=
  match v.items? with
  | some xs => .ok xs
  | Option.none => .error (.notIterable v.faultName)

/-- The largest length that can be told. -/
def maxLength : Nat := twoPow 63 - 1

/-- How many integers a range has. -/
def rangeLength (start stop : Int) : Except HostFault Nat :=
  let n := (stop - start).toNat
  if maxLength < n then .error .lengthTooLarge else .ok n

/-- How many items a value has. -/
def length : HostValue → Except HostFault Nat
  | .text _ s => .ok s.length
  | .range a b => rangeLength a b
  | v =>
    match v.items? with
    | some xs => .ok xs.length
    | Option.none => .error (.noLength v.faultName)

/-- How a value without some member is introduced. -/
def memberOwner : HostValue → String
  | .builtin .int => "type object 'int'"
  | .builtin .str => "type object 'str'"
  | .type (.cls c) => "type object '" ++ c.name ++ "'"
  | v => "'" ++ v.faultName ++ "' object"

/-- The entries of a mapping. -/
def entries : HostValue → Except HostFault (List (HostValue × HostValue))
  | .mapping _ es => .ok es
  | v => .error (.noAttribute v.memberOwner "items")

-- ======================================================= to a byte string

/-- The integer that a value counts as without conversion. -/
def index? : HostValue → Option Int
  | .boolean false b => some (if b then 1 else 0)
  | .integer _ n => some n
  | _ => Option.none

/-- As many zero bytes as a count says, within what can be stored. -/
def zeroBytes (typeName : String) (n : Int) : Except HostFault Bytes :=
  if n < -(twoPow 63 : Int) ∨ (twoPow 63 : Int) ≤ n then .error (.countTooLarge typeName)
  else if n < 0 then .error .negativeCount
  else if (twoPow 63 : Int) - 34 < n then .error .bytesTooLarge
  else if (twoPow 36 : Int) ≤ n then .error .outOfMemory
  else .ok (List.replicate n.toNat 0)

/-- An item as a byte. -/
def toByte (v : HostValue) : Except HostFault UInt8 :=
  match v.index? with
  | Option.none => .error (.notAnIndex v.faultName)
  | some n => if 0 ≤ n ∧ n < 256 then .ok (UInt8.ofNat n.toNat) else .error .byteOutOfRange

def toByteList : List HostValue → Except HostFault Bytes
  | [] => .ok []
  | v :: vs =>
    match v.toByte with
    | .error f => .error f
    | .ok b => (toByteList vs).map (b :: ·)

/-- The bytes of a range's integers. -/
def rangeBytes (start stop : Int) : Except HostFault Bytes :=
  match rangeLength start stop with
  | .error f => .error f
  | .ok 0 => .ok []
  | .ok n =>
    if start < 0 ∨ 256 < stop then .error .byteOutOfRange
    else .ok ((List.range n).map fun i => UInt8.ofNat (start.toNat + i))

/-- The byte string of a value: its own bytes, a count of zero bytes, the
stored form of a sized number, or the items as bytes. -/
def toBytes (v : HostValue) : Except HostFault Bytes :=
  match v with
  | .text _ _ => .error .textWithoutEncoding
  | .bytes _ b => .ok b
  | .boolean true b => .ok [if b then 1 else 0]
  | .float .double x => .ok (Bytes.ofNatLittle 8 x.bits.toNat)
  | .float .single x => .ok (Bytes.ofNatLittle 4 x.singleBits)
  | .range a b => rangeBytes a b
  | v =>
    match v.index? with
    | some n => zeroBytes v.faultName n
    | Option.none =>
      match v.items? with
      | some xs => toByteList xs
      | Option.none => .error (.noBytes v.faultName)

end HostValue

end StackBridge
