/-!
The categories of machine values. Each has a number, which slots report as
their tag, and a label, which messages use.
-/

namespace StackBridge

/-- What a value is, as far as the machine distinguishes. `dynamic` exists
for host types only; `absent`, `lightUserdata` and `thread` are only ever
reported. -/
inductive Category where
  | dynamic
  | absent
  | nil
  | boolean
  | lightUserdata
  | number
  | string
  | table
  | function
  | userdata
  | thread
deriving DecidableEq, Repr, Inhabited

namespace Category

def code : Category → Int
  | .dynamic => -2
  | .absent => -1
  | .nil => 0
  | .boolean => 1
  | .lightUserdata => 2
  | .number => 3
  | .string => 4
  | .table => 5
  | .function => 6
  | .userdata => 7
  | .thread => 8

def all : List Category :=
  [.dynamic, .absent, .nil, .boolean, .lightUserdata, .number, .string, .table, .function,
   .userdata, .thread]

def ofCode? (n : Int) : Option Category := all.find? (·.code == n)

theorem ofCode?_code (c : Category) : ofCode? c.code = some c := by cases c <;> rfl

def label : Category → String
  | .dynamic => "any"
  | .absent => "no value"
  | .nil => "nil"
  | .boolean => "boolean"
  | .lightUserdata => "userdata"
  | .number => "number"
  | .string => "string"
  | .table => "table"
  | .function => "function"
  | .userdata => "userdata"
  | .thread => "thread"

def name : Category → String
  | .dynamic => "DYNAMIC"
  | .absent => "NONE"
  | .nil => "NIL"
  | .boolean => "BOOLEAN"
  | .lightUserdata => "LIGHTUSERDATA"
  | .number => "NUMBER"
  | .string => "STRING"
  | .table => "TABLE"
  | .function => "FUNCTION"
  | .userdata => "USERDATA"
  | .thread => "THREAD"

/-- The label of a category that slots can report. -/
def typeName? (c : Category) : Option String :=
  if c = .dynamic then none else some c.label

end Category

end StackBridge
