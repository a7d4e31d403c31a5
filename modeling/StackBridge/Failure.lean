import StackBridge.Host.Fault
import StackBridge.Machine.Table

/-!
The failures of the machine and of the bridge. Each is its cause; the kind
and the wording follow. Failures of the host's own conversions are wrapped
whole, as `Failure.host`.
-/

namespace StackBridge

/-- The stack interface used in a way that it does not allow. -/
inductive Misuse where
  | invalidIndex (index : Int)
  | tableExpected (index : Int) (got : Category)
  | notEnough
  | invalidTop (index : Int)
  | cannotPop (count depth : Int)
  | tooManyResults (count left : Int)
  | key (fault : KeyFault)
  | invalidNextKey
  | cannotLive (typeName : String)
  | released
  | foreignWrapper
  | stated (message : HostText)
deriving DecidableEq, Repr

def Misuse.message : Misuse → String
  | .invalidIndex i => "invalid stack index " ++ toString i
  | .tableExpected i got => "table expected at index " ++ toString i ++ ", got " ++ got.label
  | .notEnough => "not enough elements in the stack"
  | .invalidTop i => "invalid new top " ++ toString i
  | .cannotPop n d =>
    "cannot pop " ++ toString n ++ " values from a stack of " ++ toString d
  | .tooManyResults n left =>
    "function returned " ++ toString n ++ " results but left " ++ toString left
  | .key .nil => "table index is nil"
  | .key .nan => "table index is NaN"
  | .key (.stray t) => HostFault.cannotLiveText t
  | .invalidNextKey => "invalid key to 'next'"
  | .cannotLive t => HostFault.cannotLiveText t
  | .released => "LuaObject used after release"
  | .foreignWrapper => "LuaObject belongs to a different state"
  | .stated m => m.display

/-- A block that left the stack at another depth than it promised. -/
structure Imbalance where
  what : String
  /-- What the block raised, if it did. -/
  raised : Option ErrorKind
  actual : Int
  expected : Int
  /-- The stack at that moment, slot by slot. -/
  rendering : String
deriving DecidableEq, Repr

def Imbalance.message (i : Imbalance) : String :=
  let outcome :=
    match i.raised with
    | none => "succeeded"
    | some k => "raised " ++ k.label
  i.what ++ " " ++ outcome ++ " with stack depth " ++ toString i.actual ++ ", expected "
    ++ toString i.expected ++ "\n" ++ i.rendering

/-- Arguments that the bridge itself refuses. -/
inductive Refusal where
  | wrongLength (expected : Nat) (type : String) (got : Nat)
  | foreignFunction
  | wrongArgumentCount (expected got : Nat)
  | badFlag (name shown : String)
deriving DecidableEq, Repr

namespace Refusal

def kind : Refusal → ErrorKind
  | .wrongArgumentCount .. => .type
  | _ => .value

def message : Refusal → String
  | .wrongLength n t got =>
    "expected " ++ toString n ++ " elements for " ++ t ++ ", got " ++ toString got
  | .foreignFunction => "BoundFunction belongs to a different state"
  | .wrongArgumentCount n got =>
    "expected " ++ toString n ++ " arguments, got " ++ toString got
  | .badFlag name shown =>
    name ++ " must be one of ['0', '1', 'false', 'no', 'off', 'on', 'true', 'yes'], got " ++ shown

end Refusal

inductive Failure where
  | misuse (m : Misuse)
  /-- A machine error unwinding, with the value that was raised. -/
  | machine (value : Value) (cause : Option ErrorKind)
  | unsupported (typeName operation : String)
  | mismatch (actual expected : Category)
  | imbalance (i : Imbalance)
  | refusal (r : Refusal)
  /-- Raised by a host function on its own account. -/
  | stated (kind : ErrorKind) (message : HostText)
  | host (f : HostFault)
deriving DecidableEq, Repr, Inhabited

namespace Failure

/-- A fault of the host as a failure; a value that the machine does not know
is a misuse of the machine. -/
def ofHost : HostFault → Failure
  | .cannotLive t => .misuse (.cannotLive t)
  | f => .host f

def kind : Failure → ErrorKind
  | .misuse _ => .misuse
  | .machine _ _ => .machine
  | .unsupported _ _ => .unsupportedType
  | .mismatch _ _ => .typeMismatch
  | .imbalance _ => .imbalance
  | .refusal r => r.kind
  | .stated k _ => k
  | .host f => f.kind

/-- The kind of the failure that this one was raised from. -/
def cause : Failure → Option ErrorKind
  | .machine _ c => c
  | .imbalance i => i.raised
  | _ => none

/-- Whether the wording belongs to this library, and is reported. -/
def isWorded : Failure → Bool
  | .host _ => false
  | _ => true

/-- The wording; `shown` writes a raised machine value. -/
def message (shown : Value → String) : Failure → String
  | .misuse m => m.message
  | .machine v _ => shown v
  | .unsupported t op => "Unsupported type `" ++ t ++ "` in stack " ++ op
  | .mismatch actual expected => "expected " ++ expected.label ++ ", got " ++ actual.label
  | .imbalance i => i.message
  | .refusal r => r.message
  | .stated _ m => m.display
  | .host f => f.message

/-- The wording as a host text, of any failure but a machine error. -/
def text : Failure → HostText
  | .misuse (.stated m) | .stated _ m => m
  | f => f.message fun _ => ""

end Failure

end StackBridge
