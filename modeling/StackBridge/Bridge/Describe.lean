import StackBridge.Host.Hint
import StackBridge.Session.State

/-!
Describing types: finding the shape of a type and checking that every type
inside it has one too.

A type is noted as described before the types inside it are looked at, so
that a record which contains itself is found described there. When one
of them is unsupported the note is taken back; a name that cannot be resolved
leaves it. A record class is opened at most once along a path, because it is
noted when it is opened; the number of classes therefore bounds the depth.
-/

namespace StackBridge

namespace Bridge

/-- A step of describing; the state is the list of types noted so far. -/
abbrev Describing := EStateM Failure (List TypeExpr)

/-- Notes a type and checks the types inside it, unless it is noted already.
What cannot be looked up is checked each time. -/
def enrol (operation : String) (t : TypeExpr) (inside : Describing Unit) : Describing Unit := do
  if t.isHashable && (← get).contains t then return
  if t.hostType?.isNone then throw (.unsupported t.refusalName operation)
  if t.isHashable then
    modify (t :: ·)
    tryCatch inside fun f => do
      match f with
      | .unsupported .. => modify (·.erase t)
      | _ => pure ()
      throw f
  else inside

section

variable (openRecord : String → Describing Unit) (operation : String)

mutual

/-- Checks a type. -/
def describeType : TypeExpr → Describing Unit
  | .described _ => pure ()
  | .generic c as => enrol operation (.generic c as) (describeArgs as)
  | .cls c =>
    enrol operation (.cls c) <|
      match c with
      | .record name => openRecord name
      | _ => pure ()
  | t => enrol operation t (pure ())

/-- Checks the arguments of a type: an ellipsis needs no check, and of a
group or of parameters the members do. -/
def describeArgs : List TypeExpr → Describing Unit
  | [] => pure ()
  | .ellipsis :: as => describeArgs as
  | .group members :: as | .params members :: as => do
    describeTypes members
    describeArgs as
  | a :: as => do
    describeType a
    describeArgs as

def describeTypes : List TypeExpr → Describing Unit
  | [] => pure ()
  | a :: as => do
    describeType a
    describeTypes as

end

end

/-- Checks the hints of a record class's fields; classes may be opened to a
depth. -/
def describeRecord (cs : Classes) (operation : String) : Nat → String → Describing Unit
  | 0, _ => pure ()
  | depth + 1, name =>
    match cs.hints name with
    | .error f => throw (.host f)
    | .ok hints => describeTypes (describeRecord cs operation depth) operation (hints.map (·.2))

/-- Checks a type among the classes of a session. -/
def describeIn (cs : Classes) (operation : String) (t : TypeExpr) : Describing Unit :=
  describeType (describeRecord cs operation cs.length) operation t

/-- The host type that a type expression describes. -/
def describe (ctx : Context) (t : TypeExpr) (operation : String) : Session.Action HostType :=
  fun s =>
    match describeIn ctx.classes operation t s.described with
    | .error f noted => .error (.failed f) { s with described := noted }
    | .ok _ noted =>
      match t.hostType? with
      | some h => .ok h { s with described := noted }
      | none =>
        .error (.failed (.unsupported t.refusalName operation)) { s with described := noted }

-- ==================================================== expressions in types

mutual

/-- Makes the type that a type expression writes, the innermost parts first:
choices are put in order, references must be expressions, and the types that
the expression takes as described already are described. -/
def prepare (ctx : Context) : TypeExpr → Session.Action TypeExpr
  | .described t => do
    let t' ← prepare ctx t
    return .described (← describe ctx t' "conversion").type
  | .generic c as => do return Classes.rebuilt c (← prepareAll ctx as)
  | .union _ as => do Session.ofHost (TypeExpr.choice (← prepareAll ctx as))
  | .group as => do return .group (← prepareAll ctx as)
  | .params as => do return .params (← prepareAll ctx as)
  | .forward s => do
    if TypeText.isExpression s then return .forward s
    else Session.fail (.host (.badTypeText s))
  | t => return t

def prepareAll (ctx : Context) : List TypeExpr → Session.Action (List TypeExpr)
  | [] => return []
  | a :: as => do
    let a' ← prepare ctx a
    let as' ← prepareAll ctx as
    return a' :: as'

end

def prepareOption (ctx : Context) : Option TypeExpr → Session.Action (Option TypeExpr)
  | none => return none
  | some t => do return some (← prepare ctx t)

end Bridge

end StackBridge
