import StackBridge.Host.TypeText.Token

/-!
Type text as an expression. Operators are read by precedence, from the
weakest, a choice by condition, to the strongest, members, arguments and
calls. A reader takes words from the front of a list and answers what it has
read and the rest; it fails on anything that is no expression.

Readers take fuel, a unit for each level of precedence and each word that
they go through.
-/

namespace StackBridge

namespace TypeText

-- ================================================================= terms

/-- How two values are compared. -/
inductive Comparison where
  | equal
  | unequal
  | identical
  | distinct
  | less
  | atMost
  | greater
  | atLeast
  | within
  | outside
deriving DecidableEq, Repr

/-- A type text as an expression. -/
inductive Term where
  | literal (v : HostValue)
  | name (s : String)
  | list (items : List Term)
  | tuple (items : List Term)
  /-- A dictionary, or a set where the values are missing. -/
  | braces (keys values : List Term)
  | slice (parts : List Term)
  | member (t : Term) (name : String)
  | index (t i : Term)
  | call (t : Term) (args : List Term)
  | unary (op : String) (t : Term)
  | binary (op : String) (a b : Term)
  | compare (a : Term) (rest : List (Comparison × Term))
  | not (t : Term)
  | both (a b : Term)
  | either (a b : Term)
  | choice (condition a b : Term)
  | lambda
deriving Inhabited

abbrev Words := List TypeToken

-- =============================================================== keywords

/-- The words that are no names. -/
def keywords : List String :=
  ["False", "None", "True", "and", "as", "assert", "async", "await", "break", "class", "continue",
   "def", "del", "elif", "else", "except", "finally", "for", "from", "global", "if", "import",
   "in", "is", "lambda", "nonlocal", "not", "or", "pass", "raise", "return", "try", "while",
   "with", "yield"]

/-- The value of a keyword that stands for one. -/
def keywordValue? : String → Option HostValue
  | "None" => some .none
  | "True" => some (.bool true)
  | "False" => some (.bool false)
  | _ => Option.none

/-- The comparison in front of words. -/
def comparison? : Words → Option (Comparison × Words)
  | .mark "==" :: ts => some (.equal, ts)
  | .mark "!=" :: ts => some (.unequal, ts)
  | .mark "<" :: ts => some (.less, ts)
  | .mark "<=" :: ts => some (.atMost, ts)
  | .mark ">" :: ts => some (.greater, ts)
  | .mark ">=" :: ts => some (.atLeast, ts)
  | .name "is" :: .name "not" :: ts => some (.distinct, ts)
  | .name "is" :: ts => some (.identical, ts)
  | .name "in" :: ts => some (.within, ts)
  | .name "not" :: .name "in" :: ts => some (.outside, ts)
  | _ => none

/-- The levels of the operators between two operands, weakest first. -/
def operatorLevels : List (List String) :=
  [["|"], ["^"], ["&"], ["<<", ">>"], ["+", "-"], ["*", "/", "//", "%", "@"]]

/-- Literals that stand next to each other are one: the value of a list of
them, if they are all texts or all byte strings. -/
def joined? : List HostValue → Option HostValue
  | [] => none
  | [v] => some v
  | .text _ s :: vs =>
    (joined? vs).bind fun
      | .text _ t => some (.str (s ++ t))
      | _ => none
  | .bytes _ b :: vs =>
    (joined? vs).bind fun
      | .bytes _ c => some (.bytes .plain (b ++ c))
      | _ => none
  | _ :: _ => none

def takeLiterals : Words → List HostValue × Words
  | .literal v :: ts =>
    let (vs, rest) := takeLiterals ts
    (v :: vs, rest)
  | ts => ([], ts)

/-- What follows the parameters of a function without a name. -/
def afterParameters : Words → Option Words
  | .mark ":" :: ts => some ts
  | .name _ :: ts => afterParameters ts
  | .mark "," :: ts => afterParameters ts
  | _ => none

-- =============================================================== reading

mutual

/-- Any expression. -/
def expression : Nat → Words → Option (Term × Words)
  | 0, _ => none
  | fuel + 1, .name "lambda" :: ts =>
    (afterParameters ts).bind fun rest => (expression fuel rest).map fun p => (.lambda, p.2)
  | fuel + 1, ts =>
    match disjunction fuel ts with
    | some (a, .name "if" :: rest) =>
      match disjunction fuel rest with
      | some (c, .name "else" :: rest) =>
        (expression fuel rest).map fun p => (.choice c a p.1, p.2)
      | _ => none
    | r => r

def disjunction : Nat → Words → Option (Term × Words)
  | 0, _ => none
  | fuel + 1, ts =>
    match conjunction fuel ts with
    | some (a, .name "or" :: rest) => (disjunction fuel rest).map fun p => (.either a p.1, p.2)
    | r => r

def conjunction : Nat → Words → Option (Term × Words)
  | 0, _ => none
  | fuel + 1, ts =>
    match inversion fuel ts with
    | some (a, .name "and" :: rest) => (conjunction fuel rest).map fun p => (.both a p.1, p.2)
    | r => r

def inversion : Nat → Words → Option (Term × Words)
  | 0, _ => none
  | fuel + 1, .name "not" :: ts => (inversion fuel ts).map fun p => (.not p.1, p.2)
  | fuel + 1, ts => do
    let (a, rest) ← operation fuel operatorLevels ts
    let (cs, rest) ← comparisons fuel rest
    return (if cs.isEmpty then a else .compare a cs, rest)

def comparisons : Nat → Words → Option (List (Comparison × Term) × Words)
  | 0, _ => none
  | fuel + 1, ts =>
    match comparison? ts with
    | none => some ([], ts)
    | some (c, rest) => do
      let (b, rest) ← operation fuel operatorLevels rest
      let (cs, rest) ← comparisons fuel rest
      return ((c, b) :: cs, rest)

/-- Operands with operators of some levels between them. -/
def operation : Nat → List (List String) → Words → Option (Term × Words)
  | 0, _, _ => none
  | fuel + 1, [], ts => factor fuel ts
  | fuel + 1, ops :: levels, ts => do
    let (a, rest) ← operation fuel levels ts
    operationRest fuel ops levels a rest

def operationRest : Nat → List String → List (List String) → Term → Words → Option (Term × Words)
  | 0, _, _, _, _ => none
  | fuel + 1, ops, levels, a, ts =>
    match ts with
    | .mark op :: rest =>
      if ops.contains op then do
        let (b, rest) ← operation fuel levels rest
        operationRest fuel ops levels (.binary op a b) rest
      else some (a, ts)
    | ts => some (a, ts)

def factor : Nat → Words → Option (Term × Words)
  | 0, _ => none
  | fuel + 1, .mark op :: ts =>
    if ["+", "-", "~"].contains op then (factor fuel ts).map fun p => (.unary op p.1, p.2)
    else power fuel (.mark op :: ts)
  | fuel + 1, ts => power fuel ts

def power : Nat → Words → Option (Term × Words)
  | 0, _ => none
  | fuel + 1, ts => do
    let (a, rest) ← atom fuel ts
    let (a, rest) ← trailers fuel a rest
    match rest with
    | .mark "**" :: rest => (factor fuel rest).map fun p => (.binary "**" a p.1, p.2)
    | rest => some (a, rest)

/-- Members, arguments and calls behind a term. -/
def trailers : Nat → Term → Words → Option (Term × Words)
  | 0, _, _ => none
  | fuel + 1, t, ts =>
    match ts with
    | .mark "." :: .name n :: rest =>
      if keywords.contains n then none else trailers fuel (.member t n) rest
    | .mark "[" :: rest => do
      let (parts, comma, rest) ← sequenceUntil fuel "]" true rest
      match parts, comma with
      | [], _ => none
      | [p], false => trailers fuel (.index t p) rest
      | ps, _ => trailers fuel (.index t (.tuple ps)) rest
    | .mark "(" :: rest => do
      let (args, _, rest) ← sequenceUntil fuel ")" false rest
      trailers fuel (.call t args) rest
    | ts => some (t, ts)

def atom : Nat → Words → Option (Term × Words)
  | 0, _ => none
  | fuel + 1, ts =>
    match ts with
    | .literal _ :: _ =>
      let (vs, rest) := takeLiterals ts
      (joined? vs).map fun v => (.literal v, rest)
    | .name n :: rest =>
      match keywordValue? n with
      | some v => some (.literal v, rest)
      | none => if keywords.contains n then none else some (.name n, rest)
    | .mark "..." :: rest => some (.literal (.type .ellipsis), rest)
    | .mark "(" :: .name _ :: .mark ":=" :: rest =>
      match expression fuel rest with
      | some (t, .mark ")" :: rest) => some (t, rest)
      | _ => none
    | .mark "(" :: rest => do
      let (items, comma, rest) ← sequenceUntil fuel ")" false rest
      match items, comma with
      | [t], false => return (t, rest)
      | ts, _ => return (.tuple ts, rest)
    | .mark "[" :: rest => do
      let (items, _, rest) ← sequenceUntil fuel "]" false rest
      return (.list items, rest)
    | .mark "\x7b" :: rest => do
      let (keys, values, rest) ← entriesUntil fuel rest
      if values.isEmpty ∨ keys.length = values.length then return (.braces keys values, rest)
      else none
    | _ => none

/-- Expressions with commas between them up to a closing mark, and whether a
comma was the last word before it; `slices` allows slices among them. -/
def sequenceUntil : Nat → String → Bool → Words → Option (List Term × Bool × Words)
  | 0, _, _, _ => none
  | fuel + 1, close, slices, ts =>
    match ts with
    | .mark m :: rest =>
      if m = close then some ([], false, rest) else sequenceFrom fuel close slices ts
    | ts => sequenceFrom fuel close slices ts

/-- At least one expression, and further ones after commas. -/
def sequenceFrom : Nat → String → Bool → Words → Option (List Term × Bool × Words)
  | 0, _, _, _ => none
  | fuel + 1, close, slices, ts => do
    let (t, rest) ← if slices then sliceOrExpression fuel ts else expression fuel ts
    match rest with
    | .mark "," :: .mark m :: rest' =>
      if m = close then some ([t], true, rest')
      else do
        let (us, comma, rest) ← sequenceFrom fuel close slices (.mark m :: rest')
        return (t :: us, comma, rest)
    | .mark "," :: rest => do
      let (us, comma, rest) ← sequenceFrom fuel close slices rest
      return (t :: us, comma, rest)
    | .mark m :: rest => if m = close then some ([t], false, rest) else none
    | _ => none

/-- An expression, or expressions with colons between them. -/
def sliceOrExpression : Nat → Words → Option (Term × Words)
  | 0, _ => none
  | fuel + 1, ts => do
    let (first, rest) ← optionalExpression fuel ts
    match rest with
    | .mark ":" :: rest => do
      let (second, rest) ← optionalExpression fuel rest
      match rest with
      | .mark ":" :: rest => do
        let (third, rest) ← optionalExpression fuel rest
        return (.slice [first, second, third], rest)
      | rest => return (.slice [first, second, .literal .none], rest)
    | rest =>
      match ts with
      | .mark "," :: _ | .mark "]" :: _ => none
      | _ => return (first, rest)

/-- An expression where one may be missing. -/
def optionalExpression : Nat → Words → Option (Term × Words)
  | 0, _ => none
  | fuel + 1, ts =>
    match ts with
    | .mark ":" :: _ | .mark "," :: _ | .mark "]" :: _ => some (.literal .none, ts)
    | ts => expression fuel ts

/-- Keys and values up to the closing brace; without colons there are keys
only. -/
def entriesUntil : Nat → Words → Option (List Term × List Term × Words)
  | 0, _ => none
  | fuel + 1, ts =>
    match ts with
    | .mark "\x7d" :: rest => some ([], [], rest)
    | ts => do
      let (k, rest) ← expression fuel ts
      let (vs, rest) ←
        match rest with
        | .mark ":" :: rest => (expression fuel rest).map fun p => ([p.1], p.2)
        | rest => some ([], rest)
      match rest with
      | .mark "," :: rest => do
        let (ks, vs', rest) ← entriesUntil fuel rest
        return (k :: ks, vs ++ vs', rest)
      | .mark "\x7d" :: rest => some ([k], vs, rest)
      | _ => none

end

def isLineEnd : TypeToken → Bool
  | .lineEnd => true
  | _ => false

/-- An expression, or several with commas between them, up to the end of the
text. -/
def whole : Nat → Words → Option (List Term × Bool)
  | 0, _ => none
  | fuel + 1, ts => do
    let (t, rest) ← expression fuel ts
    match rest with
    | .mark "," :: rest =>
      if rest.all isLineEnd then some ([t], true)
      else do
        let (us, _) ← whole fuel rest
        return (t :: us, true)
    | rest => if rest.all isLineEnd then some ([t], false) else none

/-- The term of a type text; none if the text is no expression. -/
def term? (s : String) : Option Term := do
  let ts ← tokens? s
  match ← whole (32 * (ts.length + 1)) ts with
  | ([t], false) => return t
  | (ts, _) => return .tuple ts

end TypeText

end StackBridge
