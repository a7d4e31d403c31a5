import StackBridge.Machine.Value

/-!
Tables: finite maps from keys to values other than nil, with an order of
traversal.

`entries` lists what the table holds, oldest first. `order` is what `next`
walks along: a key keeps its position there when its entry goes, so that a
traversal may clear fields as it goes, and storing under it again takes the
old position. Only a key without a position can trigger `compact`, which
drops the positions of absent keys.
-/

namespace StackBridge

structure Table where
  entries : List (Key × Value)
  order : List Key
deriving Repr, Inhabited

namespace Table

def empty : Table := ⟨[], []⟩

/-- How many entries the table holds. -/
def size (t : Table) : Nat := t.entries.length

/-- The value under a key. -/
def find? (t : Table) (k : Key) : Option Value := (t.entries.find? (·.1 == k)).map (·.2)

def has (t : Table) (k : Key) : Bool := (t.find? k).isSome

/-- The value that a value addresses; nil and NaN address nothing. -/
def get (t : Table) (k : Value) : Value :=
  match k.key with
  | .error _ => .nil
  | .ok key => (t.find? key).getD .nil

-- =============================================================== storing

/-- Stores a value under a key, at the key's place or at the end. -/
def putEntry (k : Key) (v : Value) : List (Key × Value) → List (Key × Value)
  | [] => [(k, v)]
  | e :: es => if e.1 = k then (k, v) :: es else e :: putEntry k v es

/-- Drops the positions of keys without an entry. -/
def compact (t : Table) : Table := { t with order := t.order.filter t.has }

/-- Gives a key a position. Positions of absent keys are dropped first when
they outnumber the entries by far. -/
def position (t : Table) (k : Key) : Table :=
  if t.order.contains k then t
  else
    let t' := if 2 * t.size + 8 < t.order.length then t.compact else t
    { t' with order := t'.order ++ [k] }

/-- Removes the entry under a key; its position stays. -/
def erase (t : Table) (k : Key) : Table := { t with entries := t.entries.filter (·.1 != k) }

/-- Stores a value that is not nil under a key. -/
def put (t : Table) (k : Key) (v : Value) : Table :=
  let t' := t.position k
  { t' with entries := putEntry k v t'.entries }

/-- Stores a value under the key that a value addresses; nil erases. -/
def set (t : Table) (k v : Value) : Except KeyFault Table :=
  match k.key with
  | .error f => .error f
  | .ok key => .ok (if v = .nil then t.erase key else t.put key v)

-- ================================================================ border

/-- The least number from `n` on whose successor is no key. -/
def borderFrom (t : Table) (n : Nat) : Nat → Nat
  | 0 => n
  | fuel + 1 => if t.has (.int (n + 1)) then borderFrom t (n + 1) fuel else n

/-- The least border: all of `1..n` are keys and `n + 1` is none. There are
at most as many steps as entries. -/
def length (t : Table) : Nat := t.borderFrom 0 t.size

-- ============================================================= traversal

/-- Why a traversal cannot go on. -/
inductive NextFault where
  | key (f : KeyFault)
  | noPosition
deriving DecidableEq, Repr

/-- The first entry along a list of positions. -/
def firstEntry (t : Table) : List Key → Option (Key × Value)
  | [] => none
  | k :: ks =>
    match t.find? k with
    | some v => some (k, v)
    | none => firstEntry t ks

/-- The entry after a key in the order of traversal; nil asks for the first. -/
def next (t : Table) (k : Value) : Except NextFault (Option (Key × Value)) :=
  if k = .nil then .ok (t.firstEntry t.order)
  else
    match k.key with
    | .error f => .error (.key f)
    | .ok key =>
      match t.order.idxOf? key with
      | none => .error .noPosition
      | some i => .ok (t.firstEntry (t.order.drop (i + 1)))

/-- The entries in the order of traversal. -/
def traversal (t : Table) : List (Key × Value) :=
  t.order.filterMap fun k => (t.find? k).map (k, ·)

end Table

end StackBridge
