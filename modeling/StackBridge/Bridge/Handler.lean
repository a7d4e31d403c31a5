import StackBridge.Session.Eval

/-!
What happens when a slot's category is not the one that a read asked for.
The answer of a handler, if it gives one, is the result of the read.
-/

namespace StackBridge

namespace Bridge

open Session

/-- The label of a category that slots can report. -/
def labelOf (c : Category) : Action String := do
  match c.typeName? with
  | some l => return l
  | none => fail (.host (.unknownTag c.code))

/-- Which function an argument belongs to; a function without a name is not
mentioned. -/
def argumentOwner : Option String → String
  | none | some "" => ""
  | some name => " to '" ++ name ++ "'"

/-- Calls a handler. `run` runs a block of the program. -/
def handle (ctx : Context) (run : BlockId → Action Unit) (k : MachineId) (h : Handler)
    (actual expected : Category) : Action HostValue := do
  match h with
  | .standard =>
    let wanted ← labelOf expected
    let got ← labelOf actual
    onMachine k (Vm.raiseText ("expected " ++ wanted ++ ", got " ++ got))
  | .strict => fail (.mismatch actual expected)
  | .badArgument position function =>
    let wanted ← labelOf expected
    let got ← labelOf actual
    onMachine k (Vm.raiseText ("bad argument #" ++ toString position ++ argumentOwner function
      ++ " (" ++ wanted ++ " expected, got " ++ got ++ ")"))
  | .custom block result =>
    report (.handler actual.label expected.label)
    run block
    eval ctx result

end Bridge

end StackBridge
