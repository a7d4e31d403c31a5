import StackBridge.Bridge.Read
import StackBridge.Proofs.Read.Answered

/-!
Reading without a stack. `Direct.value` takes a machine value to a host value of
a type by recursion into the type: it has the value in hand, looks parts up in
the heap, and knows nothing of slots, frames, guards or fuel. It is what a read is
meant to come to, and whether a read does is for others to show.

Where the category of a value is not its type's, the direct reading asks what
answers for mismatches and looks no further; where the type is dynamic there is
no category to miss. Sequences are read element by element up to the border, or
as many as a fixed tuple has types, mappings along the order of traversal, value
before key, and records field by field.

Whatever has no host value of its own is wrapped, and wrapping writes to the
registry. No other table changes (`Direct.stays_value`), so a mapping is read off
its traversal as it is in the beginning; only where the registry itself is being
read as a mapping, and written to meanwhile, does the direct reading give up.
-/

namespace StackBridge

deriving instance DecidableEq for Table

namespace Bridge

open Session

namespace Direct

-- ============================================================ plain values

/-- The host value that a value is kept as, or else another one. -/
def itself (w : Value) (v : HostValue) : Action HostValue := do
  return ((← get).heap.hostValue? w).getD v

/-- Keeps a value in the registry of a machine and answers its reference; nil is
kept nowhere. -/
def keep (k : MachineId) (w : Value) : Action Int := fun s =>
  if w = .nil then .ok Vm.nilRef s
  else .ok (s.vm k).nextRef (s.withVm k ((s.vm k).afterRef (s.machine k).slots w))

/-- Wraps a value. -/
def wrap (k : MachineId) (w : Value) : Action Nat := do
  let r ← keep k w
  let id := (← get).wrappers.size
  modify fun s => { s with wrappers := s.wrappers.push ⟨k, .ofRef r⟩ }
  return id

/-- The category of a value, if it has one. -/
def category (k : MachineId) (w : Value) : Action Category := onMachine k (Vm.categoryOf w)

/-- The natural host value of a value. -/
def natural (k : MachineId) (w : Value) : Action HostValue := do
  let _ ← category k w
  match w.plain with
  | .nil => return .none
  | .bool b => return .bool b
  | .int n => itself w (.int n)
  | .float x => individual (.float .plain x)
  | .str b => return .str (← decodeText b)
  | _ => return .wrapper (← wrap k w) false

def dynamic (k : MachineId) (w : Value) (host : HostType) : Action HostValue := do
  match host.origin? with
  | some (.wrapper custom) => return .wrapper (← wrap k w) custom
  | _ => natural k w

def boolean (w : Value) (host : HostType) : HostValue :=
  .boolean (host.origin? = some (.boolean true)) (w = .bool true)

/-- An integer as it is, a float truncated toward zero, and zero for one that is
not finite. -/
def integer (ctx : Context) (w : Value) (host : HostType) : Action HostValue := do
  match w.plain with
  | .int n => asInteger ctx host (← itself w (.int n))
  | .float x => asInteger ctx host (.int (if x.isFinite then x.truncate else 0))
  | _ => return .none

/-- A number as a double; an integer may be too large for that. -/
def double (w : Value) : Action Double :=
  match w.plain with
  | .float x => return x
  | .int n =>
    match Double.ofInt? n with
    | some x => return x
    | none => fail (.host .integerTooLarge)
  | _ => return .zero

def float (w : Value) (host : HostType) : Action HostValue := do
  let x ← double w
  match host.origin? with
  | some c => individual (← ofHost (c.ofFloat x))
  | none => individual (.float .plain x)

/-- The bytes of a string. -/
def bytes (w : Value) : Bytes :=
  match w.plain with
  | .str b => b
  | _ => []

def buffer (w : Value) (host : HostType) : Action HostValue := do
  match host.origin? with
  | some (.text kind) => return .text kind (← decodeText (bytes w))
  | none | some (.bytes .plain) => itself w (.bytes .plain (bytes w))
  | some (.bytes kind) => return .bytes kind (bytes w)
  | some _ => return .bytes .plain (bytes w)

def callable (k : MachineId) (w : Value) (host : HostType) : Action HostValue := do
  let id ← wrap k w
  match host.args with
  | [.ellipsis, returns] => return .bound id none returns
  | [.params ps, returns] | [.group ps, returns] => return .bound id (some ps) returns
  | _ => return .bound id none .any

-- ================================================================== tables

/-- What a table has under a key. -/
def element (k : MachineId) (id : TableId) (key : Value) : Action Value := do
  let w := ((← get).heap.table id).get key
  let _ ← category k w
  return w

section

variable (readAt : Value → TypeExpr → Action HostValue)

/-- The elements from `i` on, `count` of them. -/
def items (k : MachineId) (id : TableId) (host : HostType) : Nat → Nat → Action (List HostValue)
  | _, 0 => return []
  | i, count + 1 => do
    let w ← element k id (.int ((i : Int) + 1))
    let v ← readAt w (orNatural (host.elementType i))
    let vs ← items k id host (i + 1) count
    return v :: vs

def array (k : MachineId) (id : TableId) (host : HostType) : Action HostValue := do
  let s ← get
  let count := if host.isFixedTuple then host.args.length else (s.heap.table id).length
  return asSequence host (← items readAt k id host 0 count)

/-- Gives up on a table that is not what it was. -/
def still (id : TableId) (whole : Table) : Action Unit := do
  if (← get).heap.table id ≠ whole then throw .exhausted

/-- Entries of a table, value before key. -/
def entries (id : TableId) (whole : Table) (keyType valueType : TypeExpr) :
    List (Key × Value) → List (HostValue × HostValue) → Action (List (HostValue × HostValue))
  | [], read => return read
  | (key, w) :: rest, read => do
    let value ← readAt w valueType
    let key ← readAt key.value keyType
    let read ← ofHost (Dict.insert read key value)
    still id whole
    entries id whole keyType valueType rest read

def mapping (id : TableId) (host : HostType) : Action HostValue := do
  let (keyType, valueType) := host.entryTypes
  let whole := (← get).heap.table id
  let read ← entries readAt id whole (orNatural keyType) (orNatural valueType) whole.traversal []
  match host.origin? with
  | some (.mapping kind) => return .mapping kind read
  | _ => return .mapping .plain read

/-- The fields that a constructor takes; one that is nil and has a default is left
to it. -/
def fields (k : MachineId) (id : TableId) :
    List (FieldSpec × TypeExpr) → Action (List (String × HostValue))
  | [] => return []
  | (f, type) :: fs => do
    if !f.init then fields k id fs
    else
      let w ← element k id (.str (utf8 f.name))
      if w = .nil && f.hasDefault then fields k id fs
      else
        let v ← readAt w (orNatural type)
        let vs ← fields k id fs
        return (f.name, v) :: vs

/-- What a table gives the constructor of a record class. -/
def given (ctx : Context) (k : MachineId) (id : TableId) (host : HostType) :
    Action (List (String × HostValue)) := do
  let hinted ← ofHost (hintedFields ctx.classes host.recordName)
  fields readAt k id hinted

def record (ctx : Context) (k : MachineId) (id : TableId) (host : HostType) :
    Action HostValue := do
  ofHost (ctx.classes.build host.recordName (← given readAt ctx k id host))

/-- A table by the shape of a host type. -/
def table (ctx : Context) (k : MachineId) (id : TableId) (host : HostType) : Action HostValue :=
  match host.shape with
  | .mapping => mapping readAt id host
  | .record => record readAt ctx k id host
  | _ => array readAt k id host

end

-- ================================================================== values

/-- A value that is no table, of the category of a host type. -/
def scalar (ctx : Context) (k : MachineId) (w : Value) (host : HostType) : Action HostValue :=
  match host.shape with
  | .boolean => return boolean w host
  | .integer => integer ctx w host
  | .float => float w host
  | .textPointer => return .bytes .terminated (bytes w).beforeZero
  | .buffer => buffer w host
  | .callable => callable k w host
  | _ => return readAbsent host

/-- A value of the category of a host type. -/
def shaped (readAt : Value → TypeExpr → Action HostValue) (ctx : Context) (k : MachineId)
    (w : Value) (host : HostType) : Action HostValue :=
  match w with
  | .table id => table readAt ctx k id host
  | w => scalar ctx k w host

/-- A value as a host type; `answer` answers for mismatches. -/
def host (readAt : Value → TypeExpr → Action HostValue)
    (answer : Category → Category → Action HostValue) (ctx : Context) (k : MachineId) (w : Value)
    (host : HostType) : Action HostValue := do
  if host.shape = .dynamic then dynamic k w host
  else
    let actual ← category k w
    if actual ≠ host.category then answer actual host.category
    else shaped readAt ctx k w host

/-- A value as a type, to a depth. -/
def value (ctx : Context) (k : MachineId) (answer : Category → Category → Action HostValue) :
    Nat → Value → TypeExpr → Action HostValue
  | 0, _, _ => fail (.host .tooDeep)
  | depth + 1, w, t => do host (value ctx k answer depth) answer ctx k w (← describe ctx t "read")

-- ============================================================ what it leaves

/-- Machine `k` has its slots and its frames, is on its registry and as open as it was,
and no table but the registry has changed. -/
structure Stays (k : MachineId) (s t : Session) : Prop where
  size : t.machines.size = s.machines.size
  slots : (t.machine k).slots = (s.machine k).slots
  frames : (t.machine k).frames = (s.machine k).frames
  registry : (t.machine k).registry = (s.machine k).registry
  closed : (t.machine k).closed = (s.machine k).closed
  table : ∀ id ≠ (s.machine k).registry, t.heap.table id = s.heap.table id
  wellKept : s.heap.WellKept → t.heap.WellKept

variable {ctx : Context} {k : MachineId} {s t u : Session} {α : Type}

theorem Stays.of_same (hmachines : t.machines = s.machines) (hheap : t.heap = s.heap) :
    Stays k s t := by
  have hmachine : t.machine k = s.machine k := by
    unfold Session.machine
    rw [hmachines]
  exact ⟨by rw [hmachines], by rw [hmachine], by rw [hmachine], by rw [hmachine],
    by rw [hmachine], fun id _ => by rw [hheap], fun hw => by rw [hheap]; exact hw⟩

instance : Std.Refl (Stays k) := ⟨fun _ => .of_same rfl rfl⟩

instance : IsTrans Session (Stays k) where
  trans s t u h h' := {
    size := h'.size.trans h.size
    slots := h'.slots.trans h.slots
    frames := h'.frames.trans h.frames
    registry := h'.registry.trans h.registry
    closed := h'.closed.trans h.closed
    table := fun id hid => (h'.table id (by rw [h.registry]; exact hid)).trans (h.table id hid)
    wellKept := fun hw => h'.wellKept (h.wellKept hw) }

theorem stays_look {a : Vm.Action α} (ha : Vm.Looks a) : Keeps (Stays k) (onMachine k a) := by
  intro s
  have hends := onMachine_looks (s := s) (k := k) ha
  cases hr : onMachine k a s with
  | ok x t =>
      rw [hr] at hends
      obtain rfl : t = s := hends
      exact Std.Refl.refl t
  | error e t =>
      rw [hr] at hends
      obtain ⟨-, rfl⟩ := hends
      exact Std.Refl.refl t

theorem stays_fail (f : Failure) : Keeps (Stays k) (fail f : Action α) := Keeps.throw _

theorem stays_ofHost (r : Except HostFault α) : Keeps (Stays k) (ofHost r) := by
  cases r with
  | ok x => exact Keeps.pure x
  | error f => exact stays_fail _

theorem stays_nextIndividual : Keeps (Stays k) nextIndividual := fun _ => .of_same rfl rfl

theorem stays_individual (v : HostValue) : Keeps (Stays k) (individual v) := by
  have hfloat : ∀ x : Double, Keeps (Stays k) (individualFloat x) := by
    intro x
    unfold individualFloat
    split
    · exact stays_nextIndividual.bind fun _ => Keeps.pure _
    · exact Keeps.pure _
  unfold individual
  split
  · exact (hfloat _).bind fun _ => Keeps.pure _
  · exact stays_nextIndividual.bind fun _ => Keeps.pure _
  · exact stays_nextIndividual.bind fun _ => Keeps.pure _
  · exact Keeps.pure _

theorem stays_decodeText (b : Bytes) : Keeps (Stays k) (decodeText b) := by
  refine Keeps.get.bind fun s => ?_
  cases s.encoding.decode b with
  | ok x => exact Keeps.pure x
  | error f => exact stays_fail _

theorem stays_describe (t : TypeExpr) : Keeps (Stays k) (describe ctx t "read") := by
  intro s
  unfold describe
  cases describeIn ctx.classes "read" t s.described with
  | error f noted => exact .of_same rfl rfl
  | ok _ noted => cases t.hostType? <;> exact .of_same rfl rfl

theorem stays_itself (w : Value) (v : HostValue) : Keeps (Stays k) (itself w v) :=
  Keeps.get.bind fun _ => Keeps.pure _

theorem stays_category (w : Value) : Keeps (Stays k) (category k w) :=
  stays_look (Vm.looks_categoryOf w)

theorem stays_keep (w : Value) : Keeps (Stays k) (keep k w) := by
  intro s
  unfold keep
  by_cases hw : w = .nil
  · rw [if_pos hw]
    exact Std.Refl.refl s
  rw [if_neg hw]
  by_cases hk : k < s.machines.size
  · have hgrows := afterRef_grows hk (s.machine k).slots w
    have hmachine := withVm_machine hk ((s.vm k).afterRef (s.machine k).slots w)
    refine ⟨withVm_size .., ?_, ?_, hgrows.registry, ?_, hgrows.table, hgrows.wellKept⟩
    · show ((s.withVm k _).machine k).slots = _
      rw [hmachine]
      exact Vm.afterRef_slots ..
    · show ((s.withVm k _).machine k).frames = _
      rw [hmachine]
      exact Vm.afterRef_frames ..
    · show ((s.withVm k _).machine k).closed = _
      rw [hmachine]
      exact Vm.afterRef_closed ..
  · have hmachine := withVm_machine_none hk ((s.vm k).afterRef (s.machine k).slots w)
    refine ⟨withVm_size .., congrArg _ hmachine, congrArg _ hmachine, congrArg _ hmachine,
      congrArg _ hmachine, ?_, ?_⟩
    · exact fun id hid => Heap.table_setTable_ne (Ne.symm hid) _
    · exact fun hw => Heap.Throughout.setTable hw ((hw _).put rfl _)

theorem stays_wrap (w : Value) : Keeps (Stays k) (wrap k w) := by
  refine (stays_keep w).bind fun r => ?_
  refine Keeps.get.bind fun s => ?_
  exact (Keeps.modify fun s => .of_same rfl rfl).bind fun _ => Keeps.pure _

theorem stays_natural (w : Value) : Keeps (Stays k) (natural k w) := by
  refine (stays_category w).bind fun _ => ?_
  split
  · exact Keeps.pure _
  · exact Keeps.pure _
  · exact stays_itself w _
  · exact stays_individual _
  · exact (stays_decodeText _).bind fun _ => Keeps.pure _
  · exact (stays_wrap w).bind fun _ => Keeps.pure _

theorem stays_dynamic (w : Value) (host : HostType) : Keeps (Stays k) (dynamic k w host) := by
  unfold dynamic
  split
  · exact (stays_wrap w).bind fun _ => Keeps.pure _
  · exact stays_natural w

theorem stays_asInteger (host : HostType) (v : HostValue) :
    Keeps (Stays k) (asInteger ctx host v) := by
  unfold asInteger
  split
  · exact Keeps.pure _
  · exact Keeps.pure _
  · exact stays_ofHost _
  · exact Keeps.pure _

theorem stays_double (w : Value) : Keeps (Stays k) (double w) := by
  unfold double
  split
  · exact Keeps.pure _
  · split
    · exact Keeps.pure _
    · exact stays_fail _
  · exact Keeps.pure _

theorem stays_scalar (w : Value) (host : HostType) : Keeps (Stays k) (scalar ctx k w host) := by
  unfold scalar
  split
  · exact Keeps.pure _
  · unfold integer
    split
    · exact (stays_itself w _).bind fun v => stays_asInteger host v
    · exact stays_asInteger host _
    · exact Keeps.pure _
  · refine (stays_double w).bind fun x => ?_
    split
    · exact (stays_ofHost _).bind fun v => stays_individual v
    · exact stays_individual _
  · exact Keeps.pure _
  · unfold buffer
    split
    · exact (stays_decodeText _).bind fun _ => Keeps.pure _
    · exact stays_itself w _
    · exact stays_itself w _
    · exact Keeps.pure _
    · exact Keeps.pure _
  · refine (stays_wrap w).bind fun id => ?_
    split <;> exact Keeps.pure _
  · exact Keeps.pure _

theorem stays_element (id : TableId) (key : Value) : Keeps (Stays k) (element k id key) :=
  Keeps.get.bind fun _ => (stays_category _).bind fun _ => Keeps.pure _

theorem still_same {id : TableId} {whole : Table} (h : s.heap.table id = whole) :
    still id whole s = .ok () s := by
  unfold still
  rw [bind_ok (get_apply s), if_neg (not_not_intro h)]
  rfl

theorem still_other {id : TableId} {whole : Table} (h : s.heap.table id ≠ whole) :
    still id whole s = .error .exhausted s := by
  unfold still
  rw [bind_ok (get_apply s), if_pos h]
  rfl

theorem stays_still (id : TableId) (whole : Table) : Keeps (Stays k) (still id whole) := by
  intro s
  by_cases h : s.heap.table id = whole
  · rw [still_same h]
    exact Std.Refl.refl s
  · rw [still_other h]
    exact Std.Refl.refl s

section

variable {readAt : Value → TypeExpr → Action HostValue}
  (hread : ∀ w t, Keeps (Stays k) (readAt w t))

include hread

theorem stays_items (id : TableId) (host : HostType) (i count : Nat) :
    Keeps (Stays k) (items readAt k id host i count) := by
  induction count generalizing i with
  | zero => exact Keeps.pure _
  | succ count ih =>
      refine (stays_element id _).bind fun w => ?_
      refine (hread w _).bind fun v => ?_
      exact (ih (i + 1)).bind fun vs => Keeps.pure _

theorem stays_entries (id : TableId) (whole : Table) (keyType valueType : TypeExpr)
    (es : List (Key × Value)) (read : List (HostValue × HostValue)) :
    Keeps (Stays k) (entries readAt id whole keyType valueType es read) := by
  induction es generalizing read with
  | nil => exact Keeps.pure _
  | cons e es ih =>
      refine (hread e.2 valueType).bind fun value => ?_
      refine (hread e.1.value keyType).bind fun key => ?_
      refine (stays_ofHost _).bind fun read => ?_
      exact (stays_still id whole).bind fun _ => ih read

theorem stays_fields (id : TableId) (fs : List (FieldSpec × TypeExpr)) :
    Keeps (Stays k) (fields readAt k id fs) := by
  induction fs with
  | nil => exact Keeps.pure _
  | cons f fs ih =>
      unfold fields
      split
      · exact ih
      · refine (stays_element id _).bind fun w => ?_
        split
        · exact ih
        · refine (hread w _).bind fun v => ?_
          exact ih.bind fun vs => Keeps.pure _

theorem stays_given (id : TableId) (host : HostType) :
    Keeps (Stays k) (given readAt ctx k id host) :=
  (stays_ofHost _).bind fun hinted => stays_fields hread id hinted

theorem stays_table (id : TableId) (host : HostType) :
    Keeps (Stays k) (table readAt ctx k id host) := by
  unfold table
  split
  · refine Keeps.get.bind fun s => ?_
    refine (stays_entries hread id _ _ _ _ []).bind fun read => ?_
    split <;> exact Keeps.pure _
  · exact (stays_given hread id host).bind fun given => stays_ofHost _
  · refine Keeps.get.bind fun s => ?_
    exact (stays_items hread id host 0 _).bind fun vs => Keeps.pure _

theorem stays_shaped (w : Value) (host : HostType) :
    Keeps (Stays k) (shaped readAt ctx k w host) := by
  unfold shaped
  split
  · exact stays_table hread _ host
  · exact stays_scalar _ host

theorem stays_host {answer : Category → Category → Action HostValue}
    (hanswer : ∀ actual expected, Keeps (Stays k) (answer actual expected)) (w : Value)
    (h : HostType) : Keeps (Stays k) (host readAt answer ctx k w h) := by
  unfold host
  split
  · exact stays_dynamic w h
  · refine (stays_category w).bind fun actual => ?_
    split
    · exact hanswer _ _
    · exact stays_shaped hread w h

end

/-- A direct reading leaves a machine as it was and every table but the registry, if
what answers for mismatches does. -/
theorem stays_value {answer : Category → Category → Action HostValue}
    (hanswer : ∀ actual expected, Keeps (Stays k) (answer actual expected)) (depth : Nat)
    (w : Value) (t : TypeExpr) : Keeps (Stays k) (value ctx k answer depth w t) := by
  induction depth generalizing w t with
  | zero => exact stays_fail _
  | succ depth ih => exact (stays_describe t).bind fun host => stays_host ih hanswer w host

end Direct

end Bridge

end StackBridge
