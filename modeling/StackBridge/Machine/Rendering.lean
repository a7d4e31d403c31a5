import StackBridge.Machine.Stack

/-!
The stack in words, for inspection: one line a slot, the top first. A line
gives the slot's index from the top and from the base, its category, and its
content as far as one line can show it.
-/

namespace StackBridge

/-- How slots are described. -/
structure RenderOptions where
  /-- Whether contents are wrapped in terminal colours. -/
  color : Bool
  /-- How many bytes of a string are shown. -/
  maxString : Int
  /-- Whether the index from the base is shown. -/
  showAbsolute : Bool
deriving DecidableEq, Repr

def RenderOptions.standard : RenderOptions := ⟨false, 40, true⟩

/-- The colour of a category's contents. -/
def Category.color : Category → String
  | .nil => "\x1b[90m"
  | .boolean => "\x1b[93m"
  | .number => "\x1b[94m"
  | .string => "\x1b[92m"
  | .table => "\x1b[96m"
  | .function => "\x1b[95m"
  | .userdata => "\x1b[91m"
  | _ => ""

def colorReset : String := "\x1b[0m"

/-- The first bytes up to a limit; a negative limit leaves that many off the
end. -/
def takeLimit (limit : Int) (b : Bytes) : Bytes :=
  if 0 ≤ limit then b.take limit.toNat else b.take (b.length - (-limit).toNat)

/-- A string's content, cut off after a limit. -/
def renderBytes (limit : Int) (b : Bytes) : String :=
  Quoted.bytes (takeLimit limit b) ++ (if limit < b.length then "..." else "")

/-- A description in the colour of its category. -/
def colored (options : RenderOptions) (c : Category) (text : String) : String :=
  if options.color then c.color ++ text ++ colorReset else text

/-- The index of a slot from the top and, if that is shown, from the base, in a frame of
a depth. -/
def slotPosition (options : RenderOptions) (depth index : Int) : String :=
  let fromTop := index - depth - 1
  if options.showAbsolute then "[" ++ toString fromTop ++ " | " ++ toString index ++ "]"
  else "[" ++ toString fromTop ++ "]"

namespace Vm

/-- The content of a slot of a category, as it is accessed for that category. -/
def slotContent (options : RenderOptions) (index : Int) : Category → Action String
  | .nil => return "nil"
  | .boolean => do return if ← toBoolean index then "true" else "false"
  | .number => do
    if ← isInteger index then return toString (← toInteger index)
    else return (← toNumber index).text
  | .string => do
    match ← toBytes? index with
    | some b => return renderBytes options.maxString b
    | none => throw (.host (.noLength "NoneType"))
  | c => return c.label

/-- The slot at an index in words. -/
def renderSlot (options : RenderOptions) (index : Int) : Action String := do
  let c ← categoryAt index
  return colored options c (← slotContent options index c)

/-- The lines of the slots from an index down to the first, in a frame of a depth. -/
def renderLines (options : RenderOptions) (depth : Int) : Nat → Action (List String)
  | 0 => return []
  | i + 1 => do
    let index : Int := i + 1
    let c ← categoryAt index
    let text ← renderSlot options index
    let lines ← renderLines options depth i
    return (slotPosition options depth index ++ " " ++ c.label ++ " " ++ text) :: lines

/-- The running frame in words. -/
def renderStack (options : RenderOptions) : Action String := do
  let depth ← getTop
  if depth = 0 then return "<empty stack>"
  else return "\n".intercalate (← renderLines options depth depth.toNat)

end Vm

end StackBridge
