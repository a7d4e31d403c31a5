import StackBridge.Text.Utf8

/-!
Text encodings: the ones a session can be configured with, their names, and
writing and reading text in each.
-/

namespace StackBridge

/-- A text encoding. `utf16` writes a byte order mark and is little-endian;
the other two UTF-16 forms have neither mark. -/
inductive Encoding where
  | utf8
  | latin1
  | ascii
  | utf16Little
  | utf16Big
  | utf16
  | windows1252
deriving DecidableEq, Repr, Inhabited

/-- A stretch of a text that an encoding cannot write. -/
structure EncodeFault where
  codec : String
  /-- The first character of the stretch. -/
  char : Char
  start : Nat
  length : Nat
  reason : String
deriving DecidableEq, Repr

/-- A stretch of bytes that an encoding cannot read. -/
structure DecodeFault where
  codec : String
  /-- The first byte of the stretch. -/
  byte : UInt8
  start : Nat
  length : Nat
  reason : String
deriving DecidableEq, Repr

namespace Encoding

-- ================================================================= names

def name : Encoding → String
  | .utf8 => "utf-8"
  | .latin1 => "iso8859-1"
  | .ascii => "ascii"
  | .utf16Little => "utf-16-le"
  | .utf16Big => "utf-16-be"
  | .utf16 => "utf-16"
  | .windows1252 => "cp1252"

/-- A name with its separators run together and its letters lowered. -/
def normalizeName : List Char → Bool → List Char
  | [], _ => []
  | c :: cs, gap =>
    if c.isAlphanum || c == '.' then
      (if gap then ['_', c.toLower] else [c.toLower]) ++ normalizeName cs false
    else normalizeName cs true

/-- The names of the encodings and their aliases, normalized. -/
def aliases : List (String × Encoding) :=
  let named (e : Encoding) (names : List String) : List (String × Encoding) := names.map (·, e)
  named .utf8 ["utf_8", "utf8", "u8", "utf", "utf8_ucs2", "utf8_ucs4", "cp65001"]
  ++ named .latin1
    ["latin_1", "latin1", "latin", "l1", "iso8859_1", "iso8859", "iso_8859_1", "iso_8859_1_1987",
     "8859", "cp819", "csisolatin1", "ibm819", "iso_ir_100"]
  ++ named .ascii
    ["ascii", "us_ascii", "us", "646", "iso646_us", "iso_646.irv_1991", "iso_ir_6", "cp367",
     "csascii", "ibm367", "ansi_x3.4_1968", "ansi_x3_4_1968", "ansi_x3.4_1986"]
  ++ named .utf16Little ["utf_16_le", "utf_16le", "unicodelittleunmarked"]
  ++ named .utf16Big ["utf_16_be", "utf_16be", "unicodebigunmarked"]
  ++ named .utf16 ["utf_16", "utf16", "u16"]
  ++ named .windows1252 ["cp1252", "1252", "windows_1252"]

/-- The names that only stand for themselves: a point does not do for the
separator in them. -/
def ownNames : List String :=
  ["utf_8", "latin_1", "ascii", "utf_16_le", "utf_16_be", "utf_16", "cp1252"]

/-- The first letter or digit of a name and what follows it, normalized. -/
def plainName (s : String) : List Char :=
  normalizeName (s.toList.dropWhile fun c => !(c.isAlphanum || c == '.')) false

/-- The names by which an encoding is known without looking it up. -/
def commonNames : List String :=
  ["utf8", "utf_8", "utf16", "utf_16", "ascii", "us_ascii", "latin1", "latin_1", "iso_8859_1",
   "iso8859_1"]

def isCommonName (s : String) : Bool := commonNames.contains (String.ofList (plainName s))

/-- The encoding with a name. Case and the kind of separator do not matter. -/
def ofName? (s : String) : Option Encoding :=
  let name := plainName s
  let find (n : List Char) : Option Encoding := (aliases.find? (·.1.toList == n)).map (·.2)
  let pointless := name.map fun c => if c = '.' then '_' else c
  match find name with
  | some e => some e
  | none => if ownNames.contains (String.ofList pointless) then none else find pointless

-- =============================================================== writing

/-- The code points of the bytes from 0x80 to 0x9F; zero where there is none. -/
def windowsCodes : List Nat :=
  [0x20AC, 0, 0x201A, 0x0192, 0x201E, 0x2026, 0x2020, 0x2021, 0x02C6, 0x2030, 0x0160, 0x2039,
   0x0152, 0, 0x017D, 0, 0, 0x2018, 0x2019, 0x201C, 0x201D, 0x2022, 0x2013, 0x2014, 0x02DC,
   0x2122, 0x0161, 0x203A, 0x0153, 0, 0x017E, 0x0178]

/-- The byte of a character in an encoding of one byte a character. -/
def byteOf? (e : Encoding) (c : Char) : Option UInt8 :=
  let n := c.toNat
  match e with
  | .ascii => if n < 0x80 then some (UInt8.ofNat n) else none
  | .latin1 => if n < 0x100 then some (UInt8.ofNat n) else none
  | .windows1252 =>
    if n < 0x80 ∨ (0xA0 ≤ n ∧ n < 0x100) then some (UInt8.ofNat n)
    else (windowsCodes.findIdx? (· == n)).map fun i => UInt8.ofNat (0x80 + i)
  | _ => none

/-- The name that faults of an encoding of one byte a character give, and
what they say of a character or byte outside it. -/
def faultWords : Encoding → String × String
  | .ascii => ("ascii", "ordinal not in range(128)")
  | .latin1 => ("latin-1", "ordinal not in range(256)")
  | _ => ("charmap", "character maps to <undefined>")

/-- Writes in an encoding of one byte a character. A fault spans the whole
run of characters that cannot be written. -/
def encodeBytewise (e : Encoding) : Nat → List Char → Except EncodeFault Bytes
  | _, [] => .ok []
  | pos, c :: cs =>
    match e.byteOf? c with
    | some b => (encodeBytewise e (pos + 1) cs).map (b :: ·)
    | none =>
      let run := (c :: cs).takeWhile fun d => (e.byteOf? d).isNone
      .error ⟨e.faultWords.1, c, pos, run.length, e.faultWords.2⟩

/-- The UTF-16 units of a character. -/
def units16 (c : Char) : List Nat :=
  let n := c.toNat
  if n < 0x10000 then [n]
  else [0xD800 + (n - 0x10000) / 0x400, 0xDC00 + (n - 0x10000) % 0x400]

def unitLittle (u : Nat) : Bytes := [UInt8.ofNat (u % 256), UInt8.ofNat (u / 256)]

def unitBig (u : Nat) : Bytes := [UInt8.ofNat (u / 256), UInt8.ofNat (u % 256)]

/-- Writes a text. -/
def encode (e : Encoding) (s : String) : Except EncodeFault Bytes :=
  match e with
  | .utf8 => .ok (StackBridge.utf8 s)
  | .utf16Little => .ok (s.toList.flatMap fun c => (units16 c).flatMap unitLittle)
  | .utf16Big => .ok (s.toList.flatMap fun c => (units16 c).flatMap unitBig)
  | .utf16 => .ok (0xFF :: 0xFE :: s.toList.flatMap fun c => (units16 c).flatMap unitLittle)
  | e => e.encodeBytewise 0 s.toList

-- =============================================================== reading

/-- The character of a byte in an encoding of one byte a character. -/
def charOf? (e : Encoding) (b : UInt8) : Option Char :=
  let n := b.toNat
  match e with
  | .ascii => if n < 0x80 then some (Char.ofNat n) else none
  | .latin1 => some (Char.ofNat n)
  | .windows1252 =>
    if n < 0x80 ∨ 0xA0 ≤ n then some (Char.ofNat n)
    else
      match windowsCodes[n - 0x80]? with
      | some 0 | none => none
      | some code => some (Char.ofNat code)
  | _ => none

/-- A character of a byte string, or a stretch that is none. -/
abbrev Piece := Except DecodeFault Char

/-- The pieces in an encoding of one byte a character. -/
def bytewisePieces (e : Encoding) : Nat → Bytes → List Piece
  | _, [] => []
  | pos, b :: bs =>
    let piece : Piece :=
      match e.charOf? b with
      | some c => .ok c
      | none => .error ⟨e.faultWords.1, b, pos, 1, e.faultWords.2⟩
    piece :: bytewisePieces e (pos + 1) bs

/-- The pieces of UTF-16 units from a position on. Surrogates must come in
pairs, the high one first. -/
def unitPieces (codec : String) (unit : UInt8 → UInt8 → Nat) : Nat → Bytes → List Piece
  | _, [] => []
  | pos, [b] => [.error ⟨codec, b, pos, 1, "truncated data"⟩]
  | pos, a :: b :: rest =>
    let u := unit a b
    if u < 0xD800 ∨ 0xE000 ≤ u then .ok (Char.ofNat u) :: unitPieces codec unit (pos + 2) rest
    else if 0xDC00 ≤ u then
      .error ⟨codec, a, pos, 2, "illegal encoding"⟩ :: unitPieces codec unit (pos + 2) rest
    else
      match rest with
      | c :: d :: rest' =>
        let v := unit c d
        if 0xDC00 ≤ v ∧ v < 0xE000 then
          let code := 0x10000 + (u - 0xD800) * 0x400 + (v - 0xDC00)
          .ok (Char.ofNat code) :: unitPieces codec unit (pos + 4) rest'
        else
          .error ⟨codec, a, pos, 2, "illegal UTF-16 surrogate"⟩
            :: unitPieces codec unit (pos + 2) (c :: d :: rest')
      | short => [.error ⟨codec, a, pos, 2 + short.length, "unexpected end of data"⟩]

def littlePieces : Nat → Bytes → List Piece :=
  unitPieces "utf-16-le" fun a b => a.toNat + 256 * b.toNat

def bigPieces : Nat → Bytes → List Piece :=
  unitPieces "utf-16-be" fun a b => 256 * a.toNat + b.toNat

def utf8FaultText : Utf8.Fault → String
  | .badStart => "invalid start byte"
  | .badContinuation => "invalid continuation byte"
  | .truncated => "unexpected end of data"

def utf8Pieces (b : Bytes) : List Piece :=
  (Utf8.pieces b).map fun
    | .char c => .ok c
    | .invalid start length fault =>
      .error ⟨"utf-8", b.getD start 0, start, length, utf8FaultText fault⟩

/-- The pieces of a byte string. -/
def pieces (e : Encoding) (b : Bytes) : List Piece :=
  match e with
  | .utf8 => utf8Pieces b
  | .utf16Little => littlePieces 0 b
  | .utf16Big => bigPieces 0 b
  | .utf16 =>
    match b with
    | 0xFF :: 0xFE :: rest => littlePieces 2 rest
    | 0xFE :: 0xFF :: rest => bigPieces 2 rest
    | _ => littlePieces 0 b
  | e => e.bytewisePieces 0 b

/-- Reads a text. -/
def decode (e : Encoding) (b : Bytes) : Except DecodeFault String :=
  ((e.pieces b).mapM id).map String.ofList

-- ========================================================= lenient reading

/-- What stands for a stretch that cannot be read. -/
inductive Remedy where
  /-- Nothing does: reading fails. -/
  | none
  | omission
  | replacement
  /-- The bytes by number. -/
  | escapes
  /-- Something that is known for writing only. -/
  | forWriting
deriving DecidableEq, Repr

/-- The remedy with a name; a name that is none of them matters only when
there is something to remedy. -/
def Remedy.ofName? : String → Option Remedy
  | "strict" | "surrogatepass" => some .none
  | "ignore" => some .omission
  | "replace" => some .replacement
  | "backslashreplace" => some .escapes
  | "xmlcharrefreplace" | "namereplace" => some .forWriting
  | _ => Option.none

/-- The text for a stretch, if the remedy has one. -/
def Remedy.text? (r : Remedy) (b : Bytes) (f : DecodeFault) : Option (List Char) :=
  match r with
  | .none | .forWriting => Option.none
  | .omission => some []
  | .replacement => some ['\uFFFD']
  | .escapes =>
    some (((b.drop f.start).take f.length).flatMap fun x => '\\' :: 'x' :: hexPadded 2 x.toNat)

/-- Reads a text with a remedy for what cannot be read. -/
def decodeWith (e : Encoding) (r : Remedy) (b : Bytes) : Except DecodeFault String :=
  let read (p : Piece) : Except DecodeFault (List Char) :=
    match p with
    | .ok c => .ok [c]
    | .error f =>
      match r.text? b f with
      | some cs => .ok cs
      | Option.none => .error f
  ((e.pieces b).mapM read).map fun parts => String.ofList parts.flatten

end Encoding

end StackBridge
