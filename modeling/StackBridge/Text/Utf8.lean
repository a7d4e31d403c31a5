import StackBridge.Bytes

/-!
Reading UTF-8. `Utf8.scan` cuts a byte string into characters and invalid
pieces; an invalid piece is a maximal prefix of a well-formed sequence, or a
single byte that starts none. What an invalid piece comes to is up to the
reader; lenient reading writes one replacement character for each.
-/

namespace StackBridge.Utf8

/-- Why a piece of a byte string is no character. -/
inductive Fault where
  | badStart
  | badContinuation
  | truncated
deriving DecidableEq, Repr

/-- A piece of a scanned byte string; an invalid one knows its place. -/
inductive Piece where
  | char (c : Char)
  | invalid (start length : Nat) (fault : Fault)
deriving DecidableEq, Repr

/-- A sequence under way: the continuation bytes still needed, the range of
the next one, the code point so far and the bytes taken. -/
structure Pending where
  needed : Nat
  low : Nat
  high : Nat
  code : Nat
  taken : Nat
deriving DecidableEq, Repr

/-- What a byte between characters begins. -/
inductive Start where
  | char (c : Char)
  | pending (p : Pending)
  | invalid
deriving DecidableEq, Repr

/-- The well-formed first bytes. The range of the second byte excludes
overlong forms, surrogates and code points beyond the last plane. -/
def start (b : Nat) : Start :=
  if b < 0x80 then .char (Char.ofNat b)
  else if b < 0xC2 then .invalid
  else if b < 0xE0 then .pending ⟨1, 0x80, 0xBF, b - 0xC0, 1⟩
  else if b = 0xE0 then .pending ⟨2, 0xA0, 0xBF, 0, 1⟩
  else if b = 0xED then .pending ⟨2, 0x80, 0x9F, 0xD, 1⟩
  else if b < 0xF0 then .pending ⟨2, 0x80, 0xBF, b - 0xE0, 1⟩
  else if b = 0xF0 then .pending ⟨3, 0x90, 0xBF, 0, 1⟩
  else if b < 0xF4 then .pending ⟨3, 0x80, 0xBF, b - 0xF0, 1⟩
  else if b = 0xF4 then .pending ⟨3, 0x80, 0x8F, 4, 1⟩
  else .invalid

/-- The pieces of a byte string from a position on, with a sequence under
way or none. A byte that cannot continue a sequence ends it as invalid and
is read as a first byte. -/
def scan : Nat → Option Pending → Bytes → List Piece
  | _, none, [] => []
  | pos, some p, [] => [.invalid (pos - p.taken) p.taken .truncated]
  | pos, none, b :: bs =>
    match start b.toNat with
    | .char c => .char c :: scan (pos + 1) none bs
    | .pending p => scan (pos + 1) (some p) bs
    | .invalid => .invalid pos 1 .badStart :: scan (pos + 1) none bs
  | pos, some p, b :: bs =>
    if p.low ≤ b.toNat ∧ b.toNat ≤ p.high then
      let code := p.code * 64 + (b.toNat - 0x80)
      if p.needed = 1 then .char (Char.ofNat code) :: scan (pos + 1) none bs
      else scan (pos + 1) (some ⟨p.needed - 1, 0x80, 0xBF, code, p.taken + 1⟩) bs
    else
      .invalid (pos - p.taken) p.taken .badContinuation ::
        match start b.toNat with
        | .char c => .char c :: scan (pos + 1) none bs
        | .pending q => scan (pos + 1) (some q) bs
        | .invalid => .invalid pos 1 .badStart :: scan (pos + 1) none bs

/-- The pieces of a byte string. -/
def pieces (b : Bytes) : List Piece := scan 0 none b

/-- Reads UTF-8 with a replacement character for each invalid piece. -/
def decodeLenient (b : Bytes) : List Char :=
  (pieces b).map fun
    | .char c => c
    | .invalid .. => '\uFFFD'

end StackBridge.Utf8
