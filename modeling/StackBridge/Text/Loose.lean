import StackBridge.Bytes

/-!
Host texts as they can be raised: a text of the host may hold halves of
surrogate pairs on their own. No encoding writes these, and a text that holds
one has no UTF-8.
-/

namespace StackBridge

/-- A unit of a host text: a character, or half of a surrogate pair on its own,
which is none. -/
inductive TextUnit where
  | char (c : Char)
  | surrogate (n : Fin 2048)
deriving DecidableEq, Repr

def TextUnit.isSurrogate : TextUnit → Bool
  | .char _ => false
  | .surrogate _ => true

/-- A stretch of surrogates in a text: where it begins and the code of the first
one. -/
structure LooseFault where
  code : Nat
  start : Nat
  length : Nat
deriving DecidableEq, Repr

/-- A host text, unit by unit. -/
abbrev HostText := List TextUnit

namespace HostText

def ofString (s : String) : HostText := s.toList.map .char

instance : Coe String HostText := ⟨ofString⟩

/-- The first stretch of surrogates from a position on. -/
def fault? : Nat → HostText → Option LooseFault
  | _, [] => none
  | i, .char _ :: us => fault? (i + 1) us
  | i, .surrogate n :: us => some ⟨0xD800 + n, i, (us.takeWhile (·.isSurrogate)).length + 1⟩

/-- A text on display, with a replacement character for each surrogate. -/
def display (t : HostText) : String :=
  String.ofList <| t.map fun u =>
    match u with
    | .char c => c
    | .surrogate _ => '\uFFFD'

/-- A text in UTF-8, unless there are surrogates in it. -/
def encode (t : HostText) : Except LooseFault Bytes :=
  match fault? 0 t with
  | some f => .error f
  | none => .ok (utf8 t.display)

-- =================================================== what can be written

/-- A text that can be written holds no surrogates, wherever it begins. -/
theorem fault?_eq_none {i : Nat} {t : HostText} :
    fault? i t = none ↔ ∀ u ∈ t, u.isSurrogate = false := by
  induction t generalizing i with
  | nil => simp [fault?]
  | cons u us ih =>
      cases u with
      | char c => simp [fault?, ih, TextUnit.isSurrogate]
      | surrogate n => simp [fault?, TextUnit.isSurrogate]

theorem display_append (t u : HostText) : display (t ++ u) = display t ++ display u := by
  unfold display
  rw [List.map_append, String.ofList_append]

theorem display_ofString (s : String) : display (ofString s) = s := by
  unfold display ofString
  rw [List.map_map]
  exact (congrArg String.ofList (List.map_id _)).trans String.ofList_toList

/-- A text without surrogates in front of another changes nothing about what
can be written. -/
theorem encode_prefixed (s : String) {t : HostText} {b : Bytes} (h : t.encode = .ok b) :
    (ofString s ++ t).encode = .ok (utf8 s ++ b) := by
  unfold encode at h
  cases hf : fault? 0 t with
  | some f =>
      rw [hf] at h
      cases h
  | none =>
      rw [hf] at h
      cases h
      have hprefixed : fault? 0 (ofString s ++ t) = none := by
        rw [fault?_eq_none] at hf ⊢
        intro u hu
        rcases List.mem_append.mp hu with hs | ht
        · obtain ⟨c, _, rfl⟩ := List.mem_map.mp hs
          rfl
        · exact hf u ht
      unfold encode
      rw [hprefixed]
      dsimp only
      rw [display_append, display_ofString, utf8_append]

end HostText

end StackBridge
