import StackBridge.Host.Convert

/-!
Host values on display. What the values alone do not tell, the names of
enumeration members, the fields of record classes and the state of wrappers,
comes from `Legend`. A value on display can fail: a record may lack a field
of its class, and what a wrapper holds may have no category.
-/

namespace StackBridge

/-- What a display needs to know beyond the value. -/
structure Legend where
  /-- The member of an enumeration with a number. -/
  memberName : String → Int → Option String
  /-- The names of the fields of a record class. -/
  fieldNames : String → List String
  /-- A wrapper on display. -/
  wrapper : Nat → Except HostFault String

namespace HostValue

def boolText (b : Bool) : String := if b then "True" else "False"

/-- A function made of the wrapper of a machine function, on display. -/
def boundText (wrapper : String) : String := "BoundFunction(" ++ wrapper ++ ")"

/-- Values on display with commas between them, and marks around them. -/
def enclosed (before after : String) (parts : Except HostFault (List String)) :
    Except HostFault String :=
  parts.map fun ps => before ++ ", ".intercalate ps ++ after

/-- A value of a class without parts that it displays. -/
def atomDisplay (legend : Legend) : HostValue → Except HostFault String
  | .none => .ok "None"
  | .nil => .ok "nil"
  | .boolean sized b => .ok (if sized then "np." ++ boolText b ++ "_" else boolText b)
  | .integer (.enum c) n =>
    match legend.memberName c n with
    | some m => .ok ("<" ++ c ++ "." ++ m ++ ": " ++ toString n ++ ">")
    | Option.none => .ok (toString n)
  | .integer (.sized w) n => .ok ("np." ++ w.name ++ "(" ++ toString n ++ ")")
  | .integer _ n => .ok (toString n)
  | .float .single x => .ok ("np.float32(" ++ x.singleText ++ ")")
  | .float .double x => .ok ("np.float64(" ++ x.text ++ ")")
  | .float _ x => .ok x.text
  | .fraction n d => .ok ("Fraction(" ++ toString n ++ ", " ++ toString d ++ ")")
  | .text _ s => .ok (Quoted.text s)
  | .bytes .view _ => .ok "<memory at 0x?>"
  | .bytes k b => .ok (shownBytes k b)
  | .range a b => .ok ("range(" ++ toString a ++ ", " ++ toString b ++ ")")
  | .function _ spec _ =>
    .ok (if spec.object then "<rec.CallObj object at 0x?>"
      else "<function " ++ spec.name ++ " at 0x?>")
  | .builtin b =>
    .ok (if b.isClass then "<class '" ++ b.name ++ "'>" else "<built-in function " ++ b.name ++ ">")
  | .method owner name =>
    .ok ("<built-in method " ++ name ++ " of " ++ owner.hostClass.name ++ " object at 0x?>")
  | .type t => .ok t.display
  | .wrapper id _ => legend.wrapper id
  | .bound id _ _ => (legend.wrapper id).map boundText
  | .sealed _ .object => .ok "<object object at 0x?>"
  | .sealed _ .complex => .ok "1j"
  | .sealed _ .decimal => .ok "Decimal('1')"
  | .sealed _ .set => .ok "set()"
  | .sealed _ .custom => .ok "<rec.Opaque object at 0x?>"
  | .sealed _ .array => .ok "array([])"
  | .sealed _ .machine => .ok "<LuaState>"
  | .sealed _ (.builtin n) => .ok ("<" ++ n ++ " object at 0x?>")
  | .sequence _ _ | .mapping _ _ | .record _ _ _ => .ok ""

/-- The fields of a record on display in the order of its class, given those
that it has. -/
def recordParts (name : String) (shown : List (String × Except HostFault String)) :
    List String → Except HostFault (List String)
  | [] => .ok []
  | f :: fs =>
    match shown.find? (·.1 == f) with
    | Option.none => .error (.noAttribute ("'" ++ name ++ "' object") f)
    | some (_, .error e) => .error e
    | some (_, .ok s) => (recordParts name shown fs).map ((f ++ "=" ++ s) :: ·)

mutual

/-- A value on display, with quotes around texts. -/
def display (legend : Legend) : HostValue → Except HostFault String
  | .sequence .tuple [v] | .sequence .customTuple [v] =>
    (display legend v).map fun s => "(" ++ s ++ ",)"
  | .sequence .tuple vs | .sequence .customTuple vs => enclosed "(" ")" (displays legend vs)
  | .sequence .deque vs => enclosed "deque([" "])" (displays legend vs)
  | .sequence _ vs => enclosed "[" "]" (displays legend vs)
  | .mapping .ordered [] => .ok "OrderedDict()"
  | .mapping .ordered es => enclosed "OrderedDict([" "])" (pairDisplays legend es)
  | .mapping _ es => enclosed "\x7b" "\x7d" (entryDisplays legend es)
  | .record name _ fields =>
    enclosed (name ++ "(") ")"
      (recordParts name (fieldDisplays legend fields) (legend.fieldNames name))
  | v => atomDisplay legend v

def displays (legend : Legend) : List HostValue → Except HostFault (List String)
  | [] => .ok []
  | v :: vs =>
    match display legend v with
    | .error e => .error e
    | .ok s => (displays legend vs).map (s :: ·)

def entryDisplays (legend : Legend) :
    List (HostValue × HostValue) → Except HostFault (List String)
  | [] => .ok []
  | (k, v) :: es =>
    match display legend k, display legend v with
    | .error e, _ => .error e
    | _, .error e => .error e
    | .ok s, .ok t => (entryDisplays legend es).map ((s ++ ": " ++ t) :: ·)

def pairDisplays (legend : Legend) : List (HostValue × HostValue) → Except HostFault (List String)
  | [] => .ok []
  | (k, v) :: es =>
    match display legend k, display legend v with
    | .error e, _ => .error e
    | _, .error e => .error e
    | .ok s, .ok t => (pairDisplays legend es).map (("(" ++ s ++ ", " ++ t ++ ")") :: ·)

def fieldDisplays (legend : Legend) :
    List (String × HostValue) → List (String × Except HostFault String)
  | [] => []
  | (n, v) :: fs => (n, display legend v) :: fieldDisplays legend fs

end

/-- The plain text of a value: texts stand for themselves, and numbers and
terminated strings show no class. -/
def plainText (legend : Legend) : HostValue → Except HostFault String
  | .text _ s => .ok s
  | .boolean _ b => .ok (boolText b)
  | .integer _ n => .ok (toString n)
  | .float .single x => .ok x.singleText
  | .float _ x => .ok x.text
  | .fraction n d => .ok (if d = 1 then toString n else toString n ++ "/" ++ toString d)
  | .bytes .terminated b => .ok (Quoted.bytes b)
  | .sealed _ .decimal => .ok "1"
  | v => v.display legend

end HostValue

end StackBridge
