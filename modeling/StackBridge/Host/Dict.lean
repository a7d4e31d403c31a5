import StackBridge.Host.Equality

/-!
Dictionaries of host values as lists of entries in insertion order. Numbers
of all classes are one family of keys, compared by value; texts are another,
byte strings a third. Storing under a key that is present keeps the key and
its place, and replaces the value.
-/

namespace StackBridge

namespace Dict

/-- The value under a key. -/
def find? (es : List (HostValue × HostValue)) (key : HostValue) : Option HostValue :=
  (es.find? fun e => e.1.sameKey key).map (·.2)

/-- Stores a value under a key, at the key's place or at the end. -/
def put (key value : HostValue) : List (HostValue × HostValue) → List (HostValue × HostValue)
  | [] => [(key, value)]
  | (k, v) :: es => if k.sameKey key then (k, value) :: es else (k, v) :: put key value es

/-- Stores a value under a key that can be one. -/
def insert (es : List (HostValue × HostValue)) (key value : HostValue) :
    Except HostFault (List (HostValue × HostValue)) :=
  match key.unhashable? with
  | some t => .error (.unhashable t)
  | none => .ok (put key value es)

/-- The dictionary that a list of stores builds. -/
def ofList (pairs : List (HostValue × HostValue)) :
    Except HostFault (List (HostValue × HostValue)) :=
  pairs.foldlM (fun es (k, v) => insert es k v) []

end Dict

end StackBridge
