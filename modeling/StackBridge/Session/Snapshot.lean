import StackBridge.Session.Notation

/-!
A machine in full: its stack and registry with everything reachable from
them. Each object is written out where it appears first and numbered; later
appearances give the number alone.
-/

namespace StackBridge

/-- A value with its contents. -/
inductive Deep where
  | scalar (word : String)
  /-- First appearance of an object; tables have their entries, in the
  order of traversal. -/
  | object (number : Nat) (word : String) (entries : Option (List (Deep × Deep)))
  | again (number : Nat)
deriving Inhabited

namespace Deep

/-- The objects seen so far, the number of an object being its place. -/
abbrev Seen := List Value

def number? (seen : Seen) (v : Value) : Option Nat := (seen.idxOf? v).map (· + 1)

mutual

/-- Writes a value out. A level of nesting below a first appearance takes one
unit of fuel; there are at most as many as tables. -/
def ofValue (h : Heap) : Nat → Seen → Value → Deep × Seen
  | fuel, seen, v =>
    match v with
    | .table id =>
      match number? seen v with
      | some n => (.again n, seen)
      | none =>
        let seen' := seen ++ [v]
        match fuel with
        | 0 => (.object seen'.length (v.word h) (some []), seen')
        | fuel + 1 =>
          let (es, seen'') := ofEntries h fuel seen' (h.table id).traversal
          (.object seen'.length (v.word h) (some es), seen'')
    | .function _ | .userdata _ =>
      match number? seen v with
      | some n => (.again n, seen)
      | none =>
        let seen' := seen ++ [v]
        (.object seen'.length (v.word h) none, seen')
    | v => (.scalar (v.word h), seen)
termination_by fuel => (fuel, 0)

def ofEntries (h : Heap) (fuel : Nat) (seen : Seen) : List (Key × Value) →
    List (Deep × Deep) × Seen
  | [] => ([], seen)
  | (k, v) :: es =>
    let (dk, seen₁) := ofValue h fuel seen k.value
    let (dv, seen₂) := ofValue h fuel seen₁ v
    let (ds, seen₃) := ofEntries h fuel seen₂ es
    ((dk, dv) :: ds, seen₃)
termination_by es => (fuel, es.length + 1)

end

/-- Writes values out one after the other. -/
def ofValues (h : Heap) (fuel : Nat) (seen : Seen) : List Value → List Deep × Seen
  | [] => ([], seen)
  | v :: vs =>
    let (d, seen₁) := ofValue h fuel seen v
    let (ds, seen₂) := ofValues h fuel seen₁ vs
    (d :: ds, seen₂)

end Deep

/-- A machine at the end of a session. -/
structure Snapshot where
  closed : Bool
  frames : Nat
  stack : List Deep
  registry : Deep

/-- Writes a machine out, the stack before the registry. -/
def Snapshot.ofMachine (h : Heap) (m : Machine) : Snapshot :=
  let fuel := h.tables.size + 1
  let (stack, seen) := Deep.ofValues h fuel [] m.slots
  let (registry, _) := Deep.ofValue h fuel seen (.table m.registry)
  ⟨m.closed, m.frames.length, stack, registry⟩

end StackBridge
