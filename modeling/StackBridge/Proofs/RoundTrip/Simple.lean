import StackBridge.Proofs.RoundTrip.Natural
import StackBridge.Proofs.RoundTrip.Yields

/-!
Values that the host and a machine have in common: none, truth values, integers
of 64 bits, floats that are numbers, and texts. Each has a slot of its own, and
reading that slot without a type answers the very value.
-/

namespace StackBridge

namespace HostValue

/-- A value that a machine has of its own. -/
inductive Simple : HostValue → Prop where
  | none : Simple .none
  | boolean (b : Bool) : Simple (.bool b)
  | integer {n : Int} (range : inRange n = true) : Simple (.int n)
  | float {x : Double} (number : x.isNaN = false) : Simple (.float .plain x)
  | text (s : String) : Simple (.str s)

/-- The machine value that such a value is; nil for any other. -/
def slot : HostValue → Value
  | .boolean _ b => .bool b
  | .integer _ n => .int n
  | .float _ x => .float x
  | .text _ s => .str (utf8 s)
  | _ => .nil

/-- Whether there is a value. -/
def isPresent : HostValue → Bool
  | .none => false
  | _ => true

theorem isPresent_iff {v : HostValue} : v.isPresent = true ↔ v ≠ .none := by
  cases v <;> simp [isPresent]

namespace Simple

variable {v : HostValue}

theorem levels (h : v.Simple) : v.levels = 1 := by
  cases h <;> rfl

theorem slot_category (h : v.Simple) : ∃ c, v.slot.category? = some c := by
  cases h <;> exact ⟨_, rfl⟩

theorem slot_nil (h : v.Simple) : v.slot = .nil ↔ v = .none := by
  cases h <;> simp [slot]

/-- The slot of a simple value has it for its natural host value. -/
theorem natural {k : MachineId} {s : Session} (h : v.Simple) (hs : s.encoding = .utf8) :
    Session.Natural k s v.slot v := by
  cases h with
  | none => exact .nil
  | boolean b => exact .boolean b
  | integer range => exact .integer range
  | float number => exact .float number
  | text x => exact .text (by rw [hs]; rfl)

end Simple

end HostValue

namespace Bridge

open Session

variable {ctx : Context} {k : MachineId} {s : Session} {index : Int} {v : HostValue} {t : TypeExpr}

/-- Reading the slot of a simple value without a type. -/
theorem readNatural_slot (h : v.Simple) (hs : s.encoding = .utf8)
    (hat : Vm.valueAt? index (s.vm k) = .ok (some v.slot) (s.vm k)) :
    readNatural k index s = .ok v s := by
  obtain ⟨c, hc⟩ := h.slot_category
  unfold readNatural
  rw [bind_ok (onMachine_look (Vm.categoryAt_eq hat hc)), bind_ok (onMachine_look hat)]
  cases h with
  | none => rfl
  | boolean b => rfl
  | @integer n range => exact guestOr_eq hat rfl (.int n)
  | @float x number =>
      show (individualFloat x >>= fun y => pure (HostValue.float .plain y)) s = _
      rw [bind_ok (individualFloat_ok number s)]
      rfl
  | text x =>
      have htext : decodeText (utf8 x) s = .ok x s := by
        unfold decodeText
        rw [bind_ok (get_apply s), hs, Encoding.decode_encode (e := .utf8) rfl]
        rfl
      show (decodeText (utf8 x) >>= fun t => pure (HostValue.str t)) s = _
      rw [bind_ok htext]
      rfl

/-- No type stands for any. -/
theorem any_of_orNatural (ht : orNatural t = .any) : t = .none ∨ t = .any := by
  unfold orNatural at ht
  by_cases hnone : t = .none
  · exact Or.inl hnone
  · rw [if_neg hnone] at ht
    exact Or.inr ht

/-- A simple value is pushed as its slot, by its class or as a value of any type. -/
theorem pushAs_simple (ctx : Context) (limit : Nat) (hv : v.Simple) (ht : orNatural t = .any) :
    Puts .utf8 k (pushAs ctx k (limit + 2) v t) fun _ _ w => w = v.slot := by
  have hclass : ∀ limit, Puts .utf8 k (pushAs ctx k (limit + 1) v .none) fun _ _ w => w = v.slot := by
    intro limit s hr
    obtain ⟨s', hpush, hadds, _, hreports⟩ :=
      pushAs_natural ctx limit hr.machine hr.live (hv.natural hr.encoding)
    exact ⟨v.slot, s', hpush, hadds, rfl, hreports⟩
  rcases any_of_orNatural ht with rfl | rfl
  · exact hclass (limit + 1)
  · have hdynamic : pushShape ctx (pushAs ctx k (limit + 1)) k v ⟨.any, .dynamic⟩
        = pushAs ctx k (limit + 1) v .none := by
      cases hv <;> rfl
    have hany := hclass limit
    rw [← hdynamic] at hany
    exact puts_pushAs (if_neg nofun) rfl (accepts_enrol rfl accepts_pure) hany

/-- And reading it as a value of any type answers the very value. -/
theorem readAs_simple (run : BlockId → Action Unit) (fuel : Nat) (handler : Handler) (depth : Nat)
    (hr : Coded .utf8 k s) (hv : v.Simple) (hat : At k s index v.slot) :
    Yields k (readAs ctx run fuel k handler (depth + 1) index .any) (· = v) s :=
  readAs_yields run fuel handler depth index hr.live rfl (accepts_enrol rfl accepts_pure)
    fun _ => ⟨v, _, readNatural_slot hv hr.encoding hat.value, rfl, Leaves.refl _⟩

end Bridge

end StackBridge
