import StackBridge.Host.Class
import StackBridge.Text.Quoted

/-!
Host types as they are written down: classes, generic types with arguments,
and the forms that are allowed in an argument list without being types.

`HostType` is a type expression together with its shape; `TypeExpr.hostType?`
finds it by looking at the expression alone, without its arguments.
-/

namespace StackBridge

/-- A host type as written. -/
inductive TypeExpr where
  /-- The missing type; as a type it means the class of `none`. -/
  | none
  | any
  | cls (c : HostClass)
  /-- Callables of any signature. -/
  | anyCallable
  /-- A class with arguments. Callables with a signature have two: the
  parameters, a group or an ellipsis, and the result. -/
  | generic (origin : HostClass) (args : List TypeExpr)
  /-- A choice; `bars` when it was written with bars between the members. -/
  | union (bars : Bool) (members : List TypeExpr)
  | ellipsis
  /-- A text in the place of a type. -/
  | text (s : String)
  /-- A reference to a class by name, inside a signature. -/
  | forward (s : String)
  /-- A list of types in the place of a type. -/
  | group (members : List TypeExpr)
  /-- The parameters of a signature. -/
  | params (members : List TypeExpr)
  /-- A value that is no type, in the place of one: the name that it goes by
  and its display. -/
  | constant (name shown : String)
  /-- A type that has been described before. -/
  | described (a : TypeExpr)
deriving Repr

namespace TypeExpr

mutual

def decEq : (a b : TypeExpr) → Bool
  | .none, .none => true
  | .any, .any => true
  | .cls c, .cls d => decide (c = d)
  | .anyCallable, .anyCallable => true
  | .generic c as, .generic d bs => decide (c = d) && decEqList as bs
  | .union o as, .union p bs => o == p && decEqList as bs
  | .ellipsis, .ellipsis => true
  | .text s, .text t => s == t
  | .forward s, .forward t => s == t
  | .group as, .group bs => decEqList as bs
  | .params as, .params bs => decEqList as bs
  | .constant m s, .constant n t => m == n && s == t
  | .described a, .described b => decEq a b
  | _, _ => false

def decEqList : (as bs : List TypeExpr) → Bool
  | [], [] => true
  | a :: as, b :: bs => decEq a b && decEqList as bs
  | _, _ => false

end

mutual

theorem decEq_iff : ∀ a b : TypeExpr, decEq a b = true ↔ a = b
  | .none, b => by cases b <;> simp [decEq]
  | .any, b => by cases b <;> simp [decEq]
  | .cls c, b => by cases b <;> simp [decEq]
  | .anyCallable, b => by cases b <;> simp [decEq]
  | .generic c as, b => by cases b <;> simp [decEq, decEqList_iff as]
  | .union o as, b => by cases b <;> simp [decEq, decEqList_iff as]
  | .ellipsis, b => by cases b <;> simp [decEq]
  | .text s, b => by cases b <;> simp [decEq]
  | .forward s, b => by cases b <;> simp [decEq]
  | .group as, b => by cases b <;> simp [decEq, decEqList_iff as]
  | .params as, b => by cases b <;> simp [decEq, decEqList_iff as]
  | .constant m s, b => by cases b <;> simp [decEq]
  | .described a, b => by cases b <;> simp [decEq, decEq_iff a]

theorem decEqList_iff : ∀ as bs : List TypeExpr, decEqList as bs = true ↔ as = bs
  | [], bs => by cases bs <;> simp [decEqList]
  | a :: as, bs => by cases bs <;> simp [decEqList, decEq_iff a, decEqList_iff as]

end

instance : DecidableEq TypeExpr := fun a b => decidable_of_iff _ (decEq_iff a b)

instance : Inhabited TypeExpr := ⟨.any⟩

-- =============================================================== signatures

/-- A part of a signature: the missing type is the class of `none`,
and a text refers to a class. -/
def signaturePart : TypeExpr → TypeExpr
  | .none => .cls .none
  | .text s => .forward s
  | a => a

/-- The parameters of a signature: any at all when none are given or the only
one is an ellipsis, and a group that is the only one stands for them all. -/
def signatureParams : Option (List TypeExpr) → TypeExpr
  | Option.none | some [.ellipsis] => .ellipsis
  | some [.group members] => .group members
  | some ps => .params (ps.map signaturePart)

/-- Callables with a signature. -/
def callable (params : Option (List TypeExpr)) (returns : TypeExpr) : TypeExpr :=
  .generic .abstractCallable [signatureParams params, signaturePart returns]

-- ================================================================== parts

/-- The arguments of a type. -/
def args : TypeExpr → List TypeExpr
  | .generic _ as => as
  | .described a => args a
  | _ => []

/-- The class behind a type. -/
def origin? : TypeExpr → Option HostClass
  | .none => some .none
  | .cls c => some c
  | .anyCallable => some .abstractCallable
  | .generic c _ => some c
  | .described a => origin? a
  | _ => Option.none

/-- The shape of a type, its arguments aside. -/
def shape? : TypeExpr → Option Shape
  | .any => some .dynamic
  | .described a => shape? a
  | a => a.origin?.bind HostClass.shape?

mutual

/-- Whether a type can be looked up among the types described before. A
group in it prevents that; the parameters of a signature are no group. -/
def isHashable : TypeExpr → Bool
  | .generic _ as => allHashable as
  | .union _ as => allHashable as
  | .params as => allHashable as
  | .group _ => false
  | .described a => isHashable a
  | _ => true

def allHashable : List TypeExpr → Bool
  | [] => true
  | a :: rest => isHashable a && allHashable rest

end

-- ================================================================ display

/-- Texts with commas between them. -/
def commaSeparated (parts : List String) : String := ", ".intercalate parts

/-- Whether a choice is between one type and the class of `none`. -/
def isOptional : List TypeExpr → Bool
  | [a, b] => decide (a = .cls .none) || decide (b = .cls .none)
  | _ => false

mutual

/-- A type on display. -/
def display : TypeExpr → String
  | .none => "None"
  | .any => "typing.Any"
  | .cls c => c.display
  | .anyCallable => "typing.Callable"
  | .generic .abstractCallable as => "typing.Callable[" ++ commaSeparated (argTexts as) ++ "]"
  | .generic c [] => c.path ++ "[()]"
  | .generic c as => c.path ++ "[" ++ commaSeparated (argTexts as) ++ "]"
  | .union true as => " | ".intercalate (barTexts as)
  | .union false [a, .cls .none] => "typing.Optional[" ++ commaSeparated (argTexts [a]) ++ "]"
  | .union false [.cls .none, a] => "typing.Optional[" ++ commaSeparated (argTexts [a]) ++ "]"
  | .union false as => "typing.Union[" ++ commaSeparated (argTexts as) ++ "]"
  | .ellipsis => "Ellipsis"
  | .text s => Quoted.text s
  | .forward s => "ForwardRef(" ++ Quoted.text s ++ ")"
  | .group as => "[" ++ commaSeparated (displays as) ++ "]"
  | .params as => "[" ++ commaSeparated (argTexts as) ++ "]"
  | .constant _ shown => shown
  | .described a =>
    "HostType(" ++ display a ++ ", " ++ ((shape? a).map Shape.name).getD "" ++ ")"

/-- Types on display as arguments, where classes go by their path and
constants by their name. -/
def argTexts : List TypeExpr → List String
  | [] => []
  | .cls c :: as => c.path :: argTexts as
  | .ellipsis :: as => "..." :: argTexts as
  | .constant name _ :: as => name :: argTexts as
  | a :: as => display a :: argTexts as

/-- Types on display between bars, where the class of `none` is written as
its only value. -/
def barTexts : List TypeExpr → List String
  | [] => []
  | .cls .none :: as => "None" :: barTexts as
  | .cls c :: as => c.path :: barTexts as
  | a :: as => display a :: barTexts as

def displays : List TypeExpr → List String
  | [] => []
  | a :: as => display a :: displays as

end

/-- The name that a type goes by when it is refused. -/
def refusalName : TypeExpr → String
  | .cls c => c.name
  | .generic c _ => c.name
  | .union false as => if isOptional as then "Optional" else "Union"
  | .constant name _ => name
  | a => a.display

end TypeExpr

-- ============================================================ host types

/-- A described type: a type expression and the shape its values convert by. -/
structure HostType where
  type : TypeExpr
  shape : Shape
deriving DecidableEq, Repr

namespace HostType

def origin? (h : HostType) : Option HostClass := h.type.origin?

def args (h : HostType) : List TypeExpr := h.type.args

def category (h : HostType) : Category := h.shape.category

def display (h : HostType) : String :=
  "HostType(" ++ h.type.display ++ ", " ++ h.shape.name ++ ")"

end HostType

namespace TypeExpr

/-- The type an expression describes once descriptions are unwrapped; the
missing type stands for the class of `none`. -/
def bare : TypeExpr → TypeExpr
  | .none => .cls .none
  | .described a => bare a
  | a => a

/-- The host type of an expression, if its class has a shape. -/
def hostType? (a : TypeExpr) : Option HostType := a.bare.shape?.map fun s => ⟨a.bare, s⟩

end TypeExpr

end StackBridge
