import StackBridge.Bridge.Native
import StackBridge.Session.Settings

/-!
Operations that look at values without a machine: number texts, wrapping,
equality and categories of machine values, terminated strings, and the
wording of errors.
-/

namespace StackBridge

namespace Session

/-- The machine value that a host value is. -/
def nativeValue (v : HostValue) : Action Value :=
  match v.native? with
  | some w => return w
  | none => fail (.misuse (.cannotLive v.hostClass.name))

/-- A number as the machine writes it in a string. Sized integers count as
floats here, and truth values are words. -/
def numberBytes (v : HostValue) : Except HostFault Bytes :=
  match v with
  | .boolean false b => .ok (utf8 (HostValue.boolText b))
  | .integer (.sized _) _ | .boolean true _ | .float _ _ | .fraction _ _ | .sealed _ .decimal =>
    v.toFloat.map fun x => Numeral.toBytes (.float x)
  | .integer _ n => .ok (Numeral.toBytes (.int n))
  | v => .error (.notRealLike v.faultName)

/-- The number that a byte string denotes. -/
def bytesNumber (v : HostValue) : Except HostFault HostValue :=
  match v with
  | .bytes .view _ => .error (.noAttribute v.memberOwner "decode")
  | .bytes _ b =>
    match Numeral.ofBytes? b with
    | some (.int n) => .ok (.int n)
    | some (.float x) => .ok (.float .plain x)
    | none => .ok .none
  | v => .error (.noAttribute v.memberOwner "decode")

/-- The 64-bit integer of the same residue. The mask is too large for the
sized classes but one. -/
def wrapped (v : HostValue) : Except HostFault HostValue :=
  match v with
  | .boolean false b => .ok (.int (if b then 1 else 0))
  | .integer (.sized .uint64) n =>
    if inRange n then .ok v else .error (.widthExceeded (twoPow 64) .uint64)
  | .integer (.sized w) _ => .error (.widthExceeded ((twoPow 64 : Int) - 1) w)
  | .boolean true _ => .error (.widthExceeded ((twoPow 64 : Int) - 1) .int64)
  | .integer _ n => .ok (.int (wrapInteger n))
  | v => .error (.notIntegerLike v.faultName)

/-- A terminated string, its part before the first zero, and its display. -/
def terminatedString (v : HostValue) (encoding : Option String) : Except HostFault HostValue := do
  let b ←
    match v with
    | .text _ s => do
      let e ← encodingNamed (encoding.getD "utf-8")
      match e.encode s with
      | .ok b => .ok b
      | .error f => .error (.unencodable f)
    | v => v.toBytes
  return .list [.bytes .terminated b, .bytes .plain b.beforeZero,
    .str (HostValue.shownBytes .terminated b)]

/-- What holds of the marker for nil: its display, that it is false, whether
a value equals it, its hash, and that there is only one. -/
def nilFacts (v : HostValue) : HostValue :=
  let same :=
    match v with
    | .nil => true
    | _ => false
  .list [.str "nil", .bool false, .bool same, .int 0, .bool true, .bool true]

end Session

end StackBridge
