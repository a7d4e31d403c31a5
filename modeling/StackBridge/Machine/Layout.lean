import StackBridge.Machine.Table

/-!
How a table is kept. Of a table only what it holds and the order of traversal
matter; underneath there are three structures, each updated on its own: the
entries with the key as it was given, the keys in the order of traversal, and the
index of each key there, so that a traversal goes on without a search.
-/

namespace StackBridge

/-- A map from keys, what was inserted first at the front. -/
abbrev KeyMap (α : Type) := List (Key × α)

namespace KeyMap

variable {α : Type}

/-- Puts a value under a key, at the key's place or at the end. -/
def insert (k : Key) (a : α) : KeyMap α → KeyMap α
  | [] => [(k, a)]
  | e :: d => if e.1 = k then (k, a) :: d else e :: insert k a d

def erase (k : Key) (d : KeyMap α) : KeyMap α := d.filter (·.1 != k)

/-- Each key with its index. -/
def indices (ks : List Key) : KeyMap Nat := ks.zipIdx.foldl (fun d e => insert e.1 e.2 d) []

end KeyMap

/-- A value as an entry keeps it for its key: an integral float is the integer. -/
def Value.kept : Value → Value
  | .float x => if x.isIntegral then .int x.truncate else .float x
  | .guest id (.float x) => if x.isIntegral then .int x.truncate else .guest id (.float x)
  | v => v

structure Layout where
  /-- Under each key the key as it was given, and the value. -/
  entries : KeyMap (Value × Value)
  /-- The keys in the order of traversal, those without an entry among them. -/
  keys : List Key
  /-- Where in this order a key is. -/
  positions : KeyMap Nat
deriving DecidableEq, Repr

namespace Layout

def empty : Layout := ⟨[], [], []⟩

/-- Drops the keys without an entry; the others are numbered anew. -/
def compact (l : Layout) : Layout :=
  let keys := l.keys.filter fun k => (l.entries.lookup k).isSome
  { l with keys, positions := KeyMap.indices keys }

/-- Puts a key at the end of the order. Where the keys outnumber the entries by
far, those without an entry go first. -/
def place (l : Layout) (k : Key) : Layout :=
  let l' := if 2 * l.entries.length + 8 < l.keys.length then l.compact else l
  { l' with keys := l'.keys ++ [k], positions := l'.positions.insert k l'.keys.length }

/-- Stores a value under the key that a value addresses; nil takes the entry away
and leaves the key in the order. -/
def set (l : Layout) (w v : Value) : Except KeyFault Layout :=
  match w.key with
  | .error f => .error f
  | .ok k =>
    if v = .nil then .ok { l with entries := l.entries.erase k }
    else
      let l' := if (l.positions.lookup k).isSome then l else l.place k
      .ok { l' with entries := l'.entries.insert k (w.kept, v) }

/-- A layout after a value has been stored, unchanged if the store failed. -/
def stored (l : Layout) (w v : Value) : Layout :=
  match l.set w v with
  | .ok l' => l'
  | .error _ => l

/-- A layout after values have been stored one after the other, each under what it
comes with. -/
def storedThrough (l : Layout) : List (Value × Value) → Layout
  | [] => l
  | (w, v) :: sets => (l.stored w v).storedThrough sets

/-- The first entry from an index on. -/
def entryFrom (l : Layout) (i : Nat) : Option (Value × Value) :=
  (l.keys.drop i).findSome? fun k => l.entries.lookup k

/-- The entry after a key; nil asks for the first. -/
def next (l : Layout) (w : Value) : Except Table.NextFault (Option (Value × Value)) :=
  if w = .nil then .ok (l.entryFrom 0)
  else
    match w.key with
    | .error f => .error (.key f)
    | .ok k =>
      match l.positions.lookup k with
      | none => .error .noPosition
      | some i => .ok (l.entryFrom (i + 1))

/-- The table that is kept so. -/
def table (l : Layout) : Table := ⟨l.entries.map fun e => (e.1, e.2.2), l.keys⟩

end Layout

end StackBridge
