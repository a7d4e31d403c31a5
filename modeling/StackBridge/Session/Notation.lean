import StackBridge.Host.Display
import StackBridge.Machine.Basic

/-!
Machine values and host values in a report. A slot is one word: its category
and its content, with floats and strings in hexadecimal. The word for a raised
value in a message is another one, for people.
-/

namespace StackBridge

-- ================================================================= slots

/-- A float in hexadecimal; all NaNs read alike. -/
def Double.word (x : Double) : String :=
  if x.isNaN then "nan" else String.ofList (hexPadded 16 x.bits.toNat)

/-- A machine value in one word, a guest in the one for what it acts as. -/
def Value.word (h : Heap) : Value → String
  | .nil => "nil"
  | .bool b => if b then "true" else "false"
  | .int n | .guest _ (.int n) => "i:" ++ toString n
  | .float x | .guest _ (.float x) => "f:" ++ x.word
  | .str b | .guest _ (.str b) => "s:" ++ b.hex
  | .table id => "t:" ++ toString (h.table id).size
  | .function id => "fn:" ++ ((h.function? id).bind (·.name)).getD ""
  | .userdata _ | .guest _ (.stray _) => "u"

/-- A raised value as its message shows it: strings as text, other values
like host values. -/
def Value.shown (h : Heap) : Value → String
  | .nil => "nil"
  | .bool b => if b then "True" else "False"
  | .int n => toString n
  | .float x => x.text
  | .str b => String.ofList (Utf8.decodeLenient b)
  | .table _ => "<table 0x?>"
  | .function id =>
    match ((h.function? id).bind (·.name)).getD "" with
    | "" => "<function 0x?>"
    | name => "<function " ++ name ++ ">"
  | .userdata id => "<userdata " ++ (h.payload id).hostClass.name ++ ">"
  | .guest id _ => ((h.guest? id).map (·.shown)).getD ""

-- ============================================================ host values

/-- A host value at the moment of a report. -/
inductive View where
  /-- A value without parts. -/
  | leaf (v : HostValue)
  | sequence (kind : SequenceKind) (items : List View)
  | mapping (kind : MappingKind) (entries : List (View × View))
  | record (name : String) (fields : List (String × View))
  | wrapper (className shown : String)
  | bound (shown : String) (params : Option Nat)
  | other (typeName : String)
deriving Inhabited

namespace View

mutual

/-- A value as it is now; `wrapper` writes the wrappers in it. -/
def ofValue (wrapper : Nat → Except HostFault String) : HostValue → Except HostFault View
  | .sequence k items => (ofValues wrapper items).map (.sequence k)
  | .mapping k es => (ofEntries wrapper es).map (.mapping k)
  | .record name _ fields => (ofFields wrapper fields).map (.record name)
  | .wrapper id custom => (wrapper id).map (.wrapper (HostClass.wrapper custom).name)
  | .bound id params _ =>
    (wrapper id).map fun s => .bound (HostValue.boundText s) (params.map List.length)
  | v@(.function _ _ _) | v@(.builtin _) | v@(.method _ _) | v@(.type _) | v@(.sealed _ _) =>
    .ok (.other v.hostClass.name)
  | v => .ok (.leaf v)

def ofValues (wrapper : Nat → Except HostFault String) :
    List HostValue → Except HostFault (List View)
  | [] => .ok []
  | v :: vs =>
    match ofValue wrapper v with
    | .error f => .error f
    | .ok w => (ofValues wrapper vs).map (w :: ·)

def ofEntries (wrapper : Nat → Except HostFault String) :
    List (HostValue × HostValue) → Except HostFault (List (View × View))
  | [] => .ok []
  | (k, v) :: es =>
    match ofValue wrapper k, ofValue wrapper v with
    | .error f, _ => .error f
    | _, .error f => .error f
    | .ok k', .ok v' => (ofEntries wrapper es).map ((k', v') :: ·)

def ofFields (wrapper : Nat → Except HostFault String) :
    List (String × HostValue) → Except HostFault (List (String × View))
  | [] => .ok []
  | (n, v) :: fs =>
    match ofValue wrapper v with
    | .error f => .error f
    | .ok w => (ofFields wrapper fs).map ((n, w) :: ·)

end

end View

-- =============================================================== records

/-- What an operation came to. -/
inductive Outcome where
  | answer (v : View)
  | failure (kind : ErrorKind) (message : Option String) (value : Option String)
      (cause : Option ErrorKind)

/-- An entry of a session's report. -/
inductive Report where
  /-- A completed operation, with the depth of the running frame and its
  topmost slots; without a frame there is no depth. -/
  | operation (name : String) (outcome : Outcome) (top : Option Int) (slots : List String)
  /-- A host function was entered. -/
  | entry (name : String) (args : List View)
  /-- A mismatch handler of the program was called. -/
  | handler (actual expected : String)

end StackBridge
