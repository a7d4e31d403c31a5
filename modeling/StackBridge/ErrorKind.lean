/-!
The kinds of errors that a session can report, by name.
-/

namespace StackBridge

inductive ErrorKind where
  | unsupportedType
  | typeMismatch
  | machine
  | misuse
  | imbalance
  | value
  | type
  | missingMember
  | overflow
  | key
  | name
  | index
  | lookup
  | encode
  | decode
  | runtime
  | memory
  | badSyntax
  | recursion
deriving DecidableEq, Repr, Inhabited

def ErrorKind.label : ErrorKind → String
  | .unsupportedType => "UnsupportedTypeError"
  | .typeMismatch => "TypeMismatchError"
  | .machine => "LuaError"
  | .misuse => "LuaAPIError"
  | .imbalance => "StackImbalanceError"
  | .value => "ValueError"
  | .type => "TypeError"
  | .missingMember => "AttributeError"
  | .overflow => "OverflowError"
  | .key => "KeyError"
  | .name => "NameError"
  | .index => "IndexError"
  | .lookup => "LookupError"
  | .encode => "UnicodeEncodeError"
  | .decode => "UnicodeDecodeError"
  | .runtime => "RuntimeError"
  | .memory => "MemoryError"
  | .badSyntax => "SyntaxError"
  | .recursion => "RecursionError"

/-- All kinds. -/
def ErrorKind.all : List ErrorKind :=
  [.unsupportedType, .typeMismatch, .machine, .misuse, .imbalance, .value, .type, .missingMember,
   .overflow, .key, .name, .index, .lookup, .encode, .decode, .runtime, .memory, .badSyntax,
   .recursion]

/-- The kind with a label. -/
def ErrorKind.ofLabel? (s : String) : Option ErrorKind := ErrorKind.all.find? (·.label == s)

theorem ErrorKind.ofLabel?_label (k : ErrorKind) : ErrorKind.ofLabel? k.label = some k := by
  cases k <;> rfl

end StackBridge
