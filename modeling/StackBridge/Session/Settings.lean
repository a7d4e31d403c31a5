import StackBridge.Session.State

/-!
The configuration: whether pushes and reads check the stack, and the encoding
of texts. Both can be set directly, or from environment variables, where a
blank variable counts as a missing one.
-/

namespace StackBridge

namespace Session

-- ========================================================= single settings

/-- The words for a flag that is on. -/
def wordsForTrue : List (List Char) := ["1", "true", "yes", "on"].map String.toList

/-- The words for a flag that is off. -/
def wordsForFalse : List (List Char) := ["0", "false", "no", "off"].map String.toList

/-- The flag that a variable sets, none when it is missing or blank. -/
def readFlag (name : String) : Option String → Except Failure (Option Bool)
  | none => .ok none
  | some raw =>
    let word := lowerAscii (trim isBlank raw.toList)
    if word.isEmpty then .ok none
    else if wordsForTrue.contains word then .ok (some true)
    else if wordsForFalse.contains word then .ok (some false)
    else .error (.refusal (.badFlag name (Quoted.text raw)))

/-- The encoding with a name. -/
def encodingNamed (name : String) : Except HostFault Encoding :=
  if name.toList.contains '\x00' then .error (.embeddedZero "character")
  else
    match Encoding.ofName? name with
    | some e => .ok e
    | none => .error (.unknownEncoding name)

/-- The encoding that a variable names, none when it is missing or blank. -/
def readEncoding : Option String → Except HostFault (Option Encoding)
  | none => .ok none
  | some raw =>
    let name := trim isBlank raw.toList
    if name.isEmpty then .ok none else (encodingNamed (String.ofList name)).map some

-- =============================================================== variables

/-- Sets a variable; texts with a zero in them cannot be set. -/
def checkSettable (raw : Option String) : Action Unit :=
  if (raw.getD "").toList.contains '\x00' then fail (.host (.embeddedZero "byte")) else return

/-- The variable that single settings are read from. -/
def trialVariable : String := "LUASTACK_TEST"

/-- The variable for the checks. -/
def checksVariable : String := "LUASTACK_CHECK_STACK"

def ofFailing {α : Type} : Except Failure α → Action α
  | .ok a => return a
  | .error f => fail f

/-- The flag that a text sets, or else a default. -/
def flagOr (raw : Option String) (default : HostValue) : Action HostValue := do
  checkSettable raw
  match ← ofFailing (readFlag trialVariable raw) with
  | some b => return .bool b
  | none => return default

/-- The name of the encoding that a text names, or else a default. -/
def encodingOr (raw : Option String) (default : HostValue) : Action HostValue := do
  checkSettable raw
  match ← ofHost (readEncoding raw) with
  | some e => return .str e.name
  | none => return default

-- ============================================================ configuration

def setChecks (b : Bool) : Action Unit := modify fun s => { s with checks := b }

def setEncoding (e : Encoding) : Action Unit := modify fun s => { s with encoding := e }

/-- The configuration as a host value. -/
def configuration : Action HostValue := do
  let s ← get
  return .list [.bool s.checks, .str s.encoding.name]

/-- Sets the configuration from two variables, the checks first; what they
leave open gets its standard value. -/
def reload (checks encoding : Option String) : Action Unit := do
  checkSettable checks
  checkSettable encoding
  setChecks ((← ofFailing (readFlag checksVariable checks)).getD true)
  setEncoding ((← ofHost (readEncoding encoding)).getD .utf8)

end Session

end StackBridge
