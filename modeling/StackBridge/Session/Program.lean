import StackBridge.Host.Definition
import StackBridge.Machine.Rendering

/-!
Programs that a session runs: operations on machines, on the bridge and on
its wrappers.

A program is flat. Every list of operations is a numbered block, and
whatever runs operations of its own (a function body, a mismatch handler, a
guarded stretch) refers to its block by number.
-/

namespace StackBridge

-- =========================================================== expressions

/-- A host value as a program writes it. -/
inductive Expr where
  | var (name : String)
  | value (v : HostValue)
  | sequence (kind : SequenceKind) (items : List Expr)
  | mapping (kind : MappingKind) (entries : List (Expr × Expr))
  /-- An instance of a defined record class, from positional arguments. -/
  | record (name : String) (args : List Expr)
  /-- The value made an instance of a class. -/
  | instanceOf (c : HostClass) (e : Expr)
  | function (spec : FunctionSpec) (defaults : List Expr)
deriving Inhabited

/-- What a host function answers after its block has run. -/
inductive Finish where
  | raise (kind : ErrorKind) (message : HostText)
  /-- Raises a value as a machine error. -/
  | raiseValue (e : Expr)
  | argument (index : Nat)
  | arguments
  | sum
  | value (e : Expr)
deriving Inhabited

/-- The body of a host function. -/
structure Body where
  block : Option BlockId
  finish : Finish
deriving Inhabited

/-- What a read does when a slot's category is not the expected one. -/
inductive Handler where
  /-- A machine error that names both categories. -/
  | standard
  /-- A failure of the bridge, not of the machine. -/
  | strict
  /-- A machine error about an argument of a function. -/
  | badArgument (position : Int) (function : Option String)
  /-- Runs a block and makes a value the result of the read. -/
  | custom (block : BlockId) (result : Expr)
deriving Inhabited

-- ============================================================= operations

/-- Questions about one slot. -/
inductive SlotQuery where
  | type | isNone | isNil | isNoneOrNil | isBoolean | isNumber | isInteger | isString | isTable
  | isFunction | toBoolean | toInteger | toNumber | toLString | toString | toUserdata | rawLen
deriving DecidableEq, Repr

/-- Pushes that convert a host value to one kind of slot. -/
inductive PlainPush where
  | boolean | integer | number | lString | string
deriving DecidableEq, Repr

inductive Op where
  -- slots
  | getTop
  | setTop (index : Int)
  | pop (count : Int)
  | absIndex (index : Int)
  | checkStack (count : Int)
  | pushValue (index : Int)
  | pushNil
  | plainPush (kind : PlainPush) (e : Expr)
  | query (q : SlotQuery) (index : Int)
  | typeName (tag : Int)
  | rawEqual (i j : Int)
  -- tables and references
  | createTable
  | newTable
  | newUserdata (payload : Expr)
  | rawGet (index : Int)
  | rawGetI (index n : Int)
  | rawSet (index : Int)
  | rawSetI (index n : Int)
  | getField (index : Int) (name : Expr)
  | setField (index : Int) (name : Expr)
  | next (index : Int)
  | items (index : Int)
  | drain (index : Int)
  | ref (index : Int)
  | unref (index r : Int)
  -- calls and errors
  | pushFunction (name : Option String) (block : BlockId) (results : Option Int)
  | call (args results : Int)
  | pcall (args results : Int)
  | error
  | raiseError (message : String)
  -- machines
  | close
  | describeState
  | use (machine : Int)
  | batch (block : BlockId)
  | withState (block : BlockId)
  -- the bridge
  | push (e : Expr) (type : TypeExpr)
  | get (index : Int) (type : TypeExpr) (handler : Handler) (store : Option String)
  | popValue (type : TypeExpr) (handler : Handler) (store : Option String)
  | define (name : String) (e : Expr)
  | mismatch (handler : Handler) (actual expected : Int)
  | classify (type : TypeExpr)
  | describe (type : TypeExpr) (operation : String)
  | guard (delta : Int) (what : Option String) (block : BlockId)
  | restoreTop (block : BlockId)
  -- wrappers
  | wrapperNew (index : Int) (name : String)
  | wrapperPush (name : String)
  | wrapperTo (name : String) (type : TypeExpr) (store : Option String)
  | wrapperRelease (name : String)
  | wrapperInfo (name : String)
  | wrapperEq (name : String) (other : Expr)
  | boundNew (index : Int) (params : Option (List TypeExpr)) (returns : TypeExpr) (name : String)
  | boundCall (name : String) (args : List Expr) (store : Option String)
  | boundRelease (name : String)
  -- inspection
  | renderStack (options : RenderOptions)
  | renderSlot (index : Int) (options : RenderOptions)
  | numberToBytes (e : Expr)
  | bytesToNumber (e : Expr)
  | wrapInteger (e : Expr)
  | rawEquals (a b : Expr)
  | tagOf (e : Expr)
  | cString (e : Expr) (encoding : Option String)
  | nilProps (e : Expr)
  | machineError (e : Expr)
  -- configuration
  | setEncoding (name : Option String)
  | setChecks (e : Expr)
  | config
  | flagFromEnv (raw : Option String) (default : Expr)
  | encodingFromEnv (raw : Option String) (default : Expr)
  | reloadFromEnv (check encoding : Option String)
deriving Inhabited

def SlotQuery.name : SlotQuery → String
  | .type => "type"
  | .isNone => "is_none"
  | .isNil => "is_nil"
  | .isNoneOrNil => "is_none_or_nil"
  | .isBoolean => "is_boolean"
  | .isNumber => "is_number"
  | .isInteger => "is_integer"
  | .isString => "is_string"
  | .isTable => "is_table"
  | .isFunction => "is_function"
  | .toBoolean => "to_boolean"
  | .toInteger => "to_integer"
  | .toNumber => "to_number"
  | .toLString => "to_lstring"
  | .toString => "to_string"
  | .toUserdata => "to_userdata"
  | .rawLen => "raw_len"

def SlotQuery.all : List SlotQuery :=
  [.type, .isNone, .isNil, .isNoneOrNil, .isBoolean, .isNumber, .isInteger, .isString, .isTable,
   .isFunction, .toBoolean, .toInteger, .toNumber, .toLString, .toString, .toUserdata, .rawLen]

def PlainPush.name : PlainPush → String
  | .boolean => "push_boolean"
  | .integer => "push_integer"
  | .number => "push_number"
  | .lString => "push_lstring"
  | .string => "push_string"

def PlainPush.all : List PlainPush := [.boolean, .integer, .number, .lString, .string]

/-- The word for an operation, in programs and in reports. -/
def Op.name : Op → String
  | .getTop => "get_top"
  | .setTop _ => "set_top"
  | .pop _ => "pop"
  | .absIndex _ => "abs_index"
  | .checkStack _ => "check_stack"
  | .pushValue _ => "push_value"
  | .pushNil => "push_nil"
  | .plainPush k _ => k.name
  | .query q _ => q.name
  | .typeName _ => "type_name"
  | .rawEqual _ _ => "raw_equal"
  | .createTable => "create_table"
  | .newTable => "new_table"
  | .newUserdata _ => "new_userdata"
  | .rawGet _ => "raw_get"
  | .rawGetI _ _ => "raw_geti"
  | .rawSet _ => "raw_set"
  | .rawSetI _ _ => "raw_seti"
  | .getField _ _ => "get_field"
  | .setField _ _ => "set_field"
  | .next _ => "next"
  | .items _ => "items"
  | .drain _ => "drain"
  | .ref _ => "ref"
  | .unref _ _ => "unref"
  | .pushFunction .. => "push_function"
  | .call _ _ => "call"
  | .pcall _ _ => "pcall"
  | .error => "error"
  | .raiseError _ => "raise_error"
  | .close => "close"
  | .describeState => "repr_state"
  | .use _ => "use"
  | .batch _ => "batch"
  | .withState _ => "with_state"
  | .push _ _ => "push"
  | .get .. => "get"
  | .popValue .. => "popv"
  | .define _ _ => "let"
  | .mismatch .. => "mismatch"
  | .classify _ => "classify"
  | .describe _ _ => "describe"
  | .guard .. => "guard"
  | .restoreTop _ => "restore_top"
  | .wrapperNew _ _ => "obj_new"
  | .wrapperPush _ => "obj_push"
  | .wrapperTo .. => "obj_to"
  | .wrapperRelease _ => "obj_release"
  | .wrapperInfo _ => "obj_info"
  | .wrapperEq _ _ => "obj_eq"
  | .boundNew .. => "bound_new"
  | .boundCall .. => "bound_call"
  | .boundRelease _ => "bound_release"
  | .renderStack _ => "dump_stack"
  | .renderSlot _ _ => "describe_slot"
  | .numberToBytes _ => "number_to_bytes"
  | .bytesToNumber _ => "bytes_to_number"
  | .wrapInteger _ => "wrap_integer"
  | .rawEquals _ _ => "raw_equals"
  | .tagOf _ => "tag_of"
  | .cString _ _ => "cstring"
  | .nilProps _ => "nil_props"
  | .machineError _ => "lua_error"
  | .setEncoding _ => "set_encoding"
  | .setChecks _ => "set_checks"
  | .config => "config"
  | .flagFromEnv _ _ => "flag_from_env"
  | .encodingFromEnv _ _ => "encoding_from_env"
  | .reloadFromEnv _ _ => "reload_from_env"

-- =============================================================== programs

/-- A default value as a definition writes it. -/
inductive DefaultExpr where
  | required
  | value (e : Expr)
  | emptyList

structure FieldExpr where
  name : String
  type : Option TypeExpr
  default : DefaultExpr
  init : Bool

/-- A class definition as a program writes it. -/
inductive ClassExpr where
  | enum (name : String) (members : List (String × Int))
  | record (name : String) (tuple : Bool) (fields : List FieldExpr)

structure Program where
  classes : List ClassExpr
  machines : Nat
  checks : Bool
  blocks : Array (List Op)
  bodies : Array Body
  main : BlockId

def Program.block (p : Program) (b : BlockId) : List Op := p.blocks.getD b []

def Program.body (p : Program) (b : Nat) : Body := p.bodies.getD b ⟨none, .value (.value .none)⟩

end StackBridge
