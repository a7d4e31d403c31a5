import StackBridge.Machine.Stack

/-!
Call frames. A frame begins right above the called function, so that its
first slots are the arguments; the results are the last slots of the frame.
When the frame is left, function and arguments give way to the results.
-/

namespace StackBridge

namespace Vm

/-- The position of the function below a count of arguments. -/
def calleePosition (args : Int) : Action Nat := do
  if args < 0 then fail .notEnough
  else
    let base ← base
    let position := ((← getMachine).slots.length : Int) - args - 1
    if position < (base : Int) then fail .notEnough else return position.toNat

def enterFrame (base : Nat) : Action Unit :=
  modifyMachine fun m => { m with frames := base :: m.frames }

def leaveFrame : Action Unit := do
  match (← getMachine).frames with
  | [] => throw (.host .noFrameToLeave)
  | _ :: frames => modifyMachine fun m => { m with frames }

/-- The last slots of the running frame, as many as a function claims to
answer. -/
def results (count : Int) : Action (List Value) := do
  let top ← getTop
  if top < count then fail (.tooManyResults count top)
  else
    let slots := (← getMachine).slots
    return slots.drop (slots.length - count.toNat)

/-- A wanted count of results: more are dropped, missing ones are nil. `-1`
wants all of them; below that, as many as the distance to zero are dropped
from the end. -/
def adjustResults (wanted : Int) (values : List Value) : List Value :=
  if wanted = -1 then values
  else if wanted < 0 then values.take (values.length - (-wanted).toNat)
  else values.take wanted.toNat ++ List.replicate (wanted.toNat - values.length) .nil

/-- Replaces the slots from a position on. -/
def replaceFrom (position : Nat) (values : List Value) : Action Unit :=
  modifyMachine fun m => { m with slots := m.slots.take position ++ values }

/-- Goes back to the frames of an earlier moment and leaves a raised value
where the called function was. -/
def recover (frames : Nat) (position : Int) (raised : Value) : Action Unit := do
  modifyMachine fun m => { m with frames := m.frames.drop (m.frames.length - frames) }
  let base ← base
  replaceFrom (max position (base : Int)).toNat [raised]

end Vm

end StackBridge
