import StackBridge.Category
import StackBridge.Text.Numeral

/-!
Machine values. Tables, functions and userdata are identities; their
contents are in the heap. Integers are kept unbounded here; that slots hold
64-bit ones is a property of the operations.

A guest is a host value that was raised as an error and left on the machine
as it was. It acts as the number or byte string that it also is; one that is
neither has no category and can only be moved.
-/

namespace StackBridge

abbrev TableId := Nat
abbrev FunctionId := Nat
abbrev UserdataId := Nat

abbrev GuestId := Nat

/-- What a guest acts as. -/
inductive Role where
  | int (n : Int)
  | float (x : Double)
  | str (b : Bytes)
  /-- Nothing that the machine knows; the name is its class's. -/
  | stray (typeName : String)
deriving DecidableEq, Repr, Inhabited

/-- What a slot, a table key or a table value holds. -/
inductive Value where
  | nil
  | bool (b : Bool)
  | int (n : Int)
  | float (x : Double)
  | str (b : Bytes)
  | table (id : TableId)
  | function (id : FunctionId)
  | userdata (id : UserdataId)
  | guest (id : GuestId) (role : Role)
deriving DecidableEq, Repr, Inhabited

-- ================================================================ limits

def maxInteger : Int := (twoPow 63 : Int) - 1

def minInteger : Int := -(twoPow 63 : Int)

/-- Whether an integer is one of the machine's 64-bit integers. -/
def inRange (n : Int) : Bool := decide (minInteger ≤ n ∧ n ≤ maxInteger)

/-- The 64-bit integer with the same residue modulo 2^64. -/
def wrapInteger (n : Int) : Int := Int.bmod n (twoPow 64)

theorem inRange_wrapInteger (n : Int) : inRange (wrapInteger n) = true := by
  have h₁ : -((twoPow 64 : Nat) : Int) / 2 ≤ Int.bmod n (twoPow 64) := Int.le_bmod (twoPow_pos 64)
  have h₂ : Int.bmod n (twoPow 64) < (((twoPow 64 : Nat) : Int) + 1) / 2 :=
    Int.bmod_lt (twoPow_pos 64)
  have h₃ : twoPow 64 = twoPow 63 * 2 := twoPow_succ 63
  refine decide_eq_true ⟨?_, ?_⟩ <;> simp only [minInteger, maxInteger, wrapInteger] <;> omega

namespace Value

/-- A value without what makes it a guest; strays stay what they are. -/
def plain : Value → Value
  | .guest _ (.int n) => .int n
  | .guest _ (.float x) => .float x
  | .guest _ (.str b) => .str b
  | v => v

/-- The category of a value; strays have none. -/
def category? : Value → Option Category
  | .nil => some .nil
  | .bool _ => some .boolean
  | .int _ | .float _ | .guest _ (.int _) | .guest _ (.float _) => some .number
  | .str _ | .guest _ (.str _) => some .string
  | .table _ => some .table
  | .function _ => some .function
  | .userdata _ => some .userdata
  | .guest _ (.stray _) => none

/-- The class name of a stray. -/
def strayName : Value → String
  | .guest _ (.stray t) => t
  | _ => ""

/-- Equality without conversions: numbers by value across the two subtypes,
byte strings by content, the rest by identity. A NaN differs from itself. -/
def rawEqualPlain : Value → Value → Bool
  | .nil, .nil => true
  | .bool a, .bool b => a == b
  | .int m, .int n => m == n
  | .int n, .float x => x.sameInt n
  | .float x, .int n => x.sameInt n
  | .float x, .float y => x.sameNumber y
  | .str a, .str b => a == b
  | .table a, .table b => a == b
  | .function a, .function b => a == b
  | .userdata a, .userdata b => a == b
  | _, _ => false

/-- Equality of values, of guests by what they act as. -/
def rawEqual (v w : Value) : Bool := rawEqualPlain v.plain w.plain

end Value

-- ================================================================== keys

/-- A table key. Floats with an integral value are the integer's key, so a
`float` here has a fraction or is infinite. -/
inductive Key where
  | bool (b : Bool)
  | int (n : Int)
  | float (x : Double)
  | str (b : Bytes)
  | table (id : TableId)
  | function (id : FunctionId)
  | userdata (id : UserdataId)
deriving DecidableEq, Repr

/-- Why a value is no key. -/
inductive KeyFault where
  | nil
  | nan
  | stray (typeName : String)
deriving DecidableEq, Repr

/-- The key that a float addresses. -/
def Key.ofFloat (x : Double) : Except KeyFault Key :=
  if x.isNaN then .error .nan
  else if x.isIntegral then .ok (.int x.truncate)
  else .ok (.float x.untagged)

/-- The key that a value addresses, a guest's by what it acts as. -/
def Value.key : Value → Except KeyFault Key
  | .nil => .error .nil
  | .bool b => .ok (.bool b)
  | .int n | .guest _ (.int n) => .ok (.int n)
  | .float x | .guest _ (.float x) => Key.ofFloat x
  | .str b | .guest _ (.str b) => .ok (.str b)
  | .table id => .ok (.table id)
  | .function id => .ok (.function id)
  | .userdata id => .ok (.userdata id)
  | .guest _ (.stray t) => .error (.stray t)

/-- A key as a value. -/
def Key.value : Key → Value
  | .bool b => .bool b
  | .int n => .int n
  | .float x => .float x
  | .str b => .str b
  | .table id => .table id
  | .function id => .function id
  | .userdata id => .userdata id

end StackBridge
