import StackBridge.Host.Fault
import StackBridge.Host.TypeExpr

/-!
Choices between types. A choice between choices is one choice, a member
counts once, and what is left of one member is the member itself.
-/

namespace StackBridge

namespace TypeExpr

/-- The members of a choice, any other type being its own only member. -/
def alternatives : TypeExpr → List TypeExpr
  | .union _ members => members
  | t => [t]

/-- A choice between the alternatives of some types. -/
def choiceOf (bars : Bool) (members : List TypeExpr) : TypeExpr :=
  match (members.flatMap alternatives).eraseDups with
  | [t] => t
  | ts => .union bars ts

/-- A choice written by name, whose members are parts of a signature. It has
members, and they can all be looked up. -/
def choice (members : List TypeExpr) : Except HostFault TypeExpr :=
  let parts := members.map signaturePart
  if parts.isEmpty then .error (.badType "Cannot take a Union of no types.")
  else if parts.all isHashable then .ok (choiceOf false parts)
  else .error (.unhashable "list")

/-- What a type is in a choice that is written with bars. -/
def barMembers? : TypeExpr → Option (List TypeExpr)
  | .none => some [.cls .none]
  | .cls c => some [.cls c]
  | .generic c as => some [.generic c as]
  | .union true members => some members
  | _ => Option.none

/-- Two types with a bar between them; the missing type is a member only
beside another type. -/
def barChoice? (a b : TypeExpr) : Option TypeExpr :=
  match a, b with
  | .none, .none => Option.none
  | a, b =>
    match a.barMembers?, b.barMembers? with
    | some as, some bs => some (choiceOf true (as ++ bs))
    | _, _ => Option.none

end TypeExpr

end StackBridge
