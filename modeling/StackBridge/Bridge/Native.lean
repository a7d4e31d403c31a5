import StackBridge.Machine.Basic

/-!
Host values that are machine values without any conversion: the marker for
nil, truth values, integers and floats of the machine's own two kinds, and
byte strings, with their plain subclasses.

A host value of a subclass, or one that is no machine value at all, stays
what it is when it gets onto a machine; it is a guest there, in the role of
the machine value that it is.
-/

namespace StackBridge

namespace HostValue

/-- The machine value that a host value is. -/
def native? : HostValue → Option Value
  | .nil => some .nil
  | .boolean false b => some (.bool b)
  | .integer (.sized _) _ => Option.none
  | .integer _ n => some (.int n)
  | .float .single _ => Option.none
  | .float .plain x => some (.float x)
  | .float _ x => some (.float x.untagged)
  | .bytes .array _ | .bytes .view _ => Option.none
  | .bytes _ b => some (.str b)
  | _ => Option.none

/-- Whether a machine value tells everything about the host value that is
it. -/
def isPlain : HostValue → Bool
  | .nil | .boolean false _ | .integer .plain _ | .float .plain _ | .bytes .plain _ => true
  | _ => false

/-- What a host value acts as on a machine. -/
def role (v : HostValue) : Role :=
  match v.native? with
  | some (.int n) => .int n
  | some (.float x) => .float x
  | some (.str b) => .str b
  | _ => .stray v.hostClass.name

end HostValue

end StackBridge
