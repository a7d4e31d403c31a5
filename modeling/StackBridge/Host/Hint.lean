import StackBridge.Host.TypeText.Meaning

/-!
Hints: the types of fields, parameters and results with the texts in them
resolved. A text is resolved when the hints of its owner are asked for, so it
may name classes that are defined later.
-/

namespace StackBridge

namespace Classes

-- ================================================================ resolving

section

variable (ofText : String → Except HostFault TypeExpr)

/-- Builds a type again from resolved arguments: what a signature's only
parameter has turned into may stand for all of them. -/
def rebuilt (c : HostClass) (as : List TypeExpr) : TypeExpr :=
  match c, as with
  | .abstractCallable, [.params ps, returns] => .callable (some ps) returns
  | c, as => .generic c as

/-- The first of several types that is a text without a meaning. -/
def badText? : List TypeExpr → Option String
  | [] => none
  | .text s :: as => if TypeText.isExpression s then badText? as else some s
  | _ :: as => badText? as

mutual

/-- A type with the texts in it resolved; a group keeps its own. All the
arguments of a type have to be expressions before the first is resolved. -/
def resolveWith : TypeExpr → Except HostFault TypeExpr
  | .text s | .forward s => ofText s
  | .generic c as =>
    match badText? as with
    | some s => .error (.badTypeText s)
    | none => (resolveAllWith as).map (rebuilt c)
  | .union bars as =>
    match resolveAllWith as with
    | .error f => .error f
    | .ok as' => if bars then .ok (.choiceOf true as') else TypeExpr.choice as'
  | .params as => (resolveAllWith as).map .params
  | t => .ok t

def resolveAllWith : List TypeExpr → Except HostFault (List TypeExpr)
  | [] => .ok []
  | a :: as =>
    match resolveWith a with
    | .error f => .error f
    | .ok a' => (resolveAllWith as).map (a' :: ·)

end

end

/-- The type that a text stands for. The fuel bounds how deeply texts nest. -/
def typeOfText (cs : Classes) : Nat → String → Except HostFault TypeExpr
  | 0, _ => .error .tooDeep
  | fuel + 1, s => (TypeText.meaning cs s).bind (resolveWith (typeOfText cs fuel))

/-- More levels than texts nest in practice. -/
def textDepth : Nat := 100

/-- A type with the texts in it resolved. -/
def resolve (cs : Classes) (t : TypeExpr) : Except HostFault TypeExpr :=
  resolveWith (cs.typeOfText textDepth) t

-- ================================================================= hints

/-- A type as a hint; a missing one is the class of `none`. -/
def hint (cs : Classes) (a : TypeExpr) : Except HostFault TypeExpr :=
  match cs.resolve a with
  | .ok .none => .ok (.cls .none)
  | r => r

/-- The fields of a record class that have a type, with their hints. -/
def hints (cs : Classes) (name : String) : Except HostFault (List (String × TypeExpr)) :=
  ((cs.fields name).filterMap fun f => f.type.map (f.name, ·)).mapM fun (n, a) =>
    (cs.hint a).map (n, ·)

end Classes

end StackBridge
