import StackBridge.Proofs.Machine.Answered
import StackBridge.Proofs.Machine.Look
import StackBridge.Proofs.Text.Numeral
import StackBridge.Proofs.Session.Reachable

/-!
Slots read as numbers. A slot denotes a number if it holds one, or a byte
string that reads as one; `Numeral.Truncates` says which integer is left of a
number when what is behind the point is cut off.

Main statements: a number slot that is turned into its bytes denotes a number
still, of the same subtype; and what a slot reads as an integer, with the
one way in which that integer can be beyond 64 bits.
-/

namespace StackBridge

namespace Numeral

/-- The slot that holds a number. -/
def slot : Numeral → Value
  | .int n => .int n
  | .float x => .float x

/-- The machine's own numbers: an integer has 64 bits. -/
def Slotted : Numeral → Prop
  | .int n => inRange n = true
  | .float _ => True

/-- The integer that is left of a number when it is cut off toward zero. -/
def Truncates : Numeral → Int → Prop
  | .int m, n => n = m
  | .float x, n =>
    x.isFinite = true ∧ n.natAbs * Double.one ≤ x.units ∧ x.units < (n.natAbs + 1) * Double.one
      ∧ (n ≠ 0 → (n < 0 ↔ x.negative = true))

end Numeral

/-- The number that a value holds, or that its bytes read as. -/
inductive Value.Denotes (v : Value) : Numeral → Prop
  | held {q : Numeral} (h : v.plain = q.slot) : Value.Denotes v q
  | read {q : Numeral} {b : Bytes} (h : v.plain = .str b) (hq : Numeral.ofBytes? b = some q) :
      Value.Denotes v q

-- ================================================================ truncating

namespace Double

variable {x : Double}

theorem truncate_natAbs (x : Double) : x.truncate.natAbs = x.units / one := by
  unfold truncate
  split
  · rw [Int.natAbs_neg, Int.natAbs_natCast]
  · rw [Int.natAbs_natCast]

theorem truncates_truncate (hx : x.isFinite = true) :
    (Numeral.float x).Truncates x.truncate := by
  have habs := truncate_natAbs x
  have hsplit := Nat.div_add_mod' x.units one
  have hrest := Nat.mod_lt x.units one_pos
  refine ⟨hx, ?_, ?_, ?_⟩
  · rw [habs]
    exact Nat.div_mul_le_self _ _
  · rw [habs, Nat.succ_mul]
    omega
  · intro hne
    unfold truncate at hne ⊢
    generalize x.units / one = q at hne ⊢
    cases hn : x.negative with
    | true =>
        rw [hn, if_pos rfl] at hne
        simp only [if_true, iff_true]
        omega
    | false =>
        simp only [Bool.false_eq_true, if_false, iff_false]
        omega

/-- Nothing else is left of a float. -/
theorem truncates_unique {n : Int} (h : (Numeral.float x).Truncates n) : n = x.truncate := by
  obtain ⟨hx, hlow, hhigh, hsign⟩ := h
  have habs : n.natAbs = x.units / one := by
    refine Nat.le_antisymm ?_ ?_
    · exact (Nat.le_div_iff_mul_le one_pos).mpr hlow
    · exact Nat.le_of_lt_succ ((Nat.div_lt_iff_lt_mul one_pos).mpr hhigh)
  unfold truncate
  rw [← habs]
  by_cases hzero : n = 0
  · rw [hzero]
    split <;> rfl
  · have hiff := hsign hzero
    split
    · rename_i hn
      have := hiff.mpr hn
      omega
    · rename_i hn
      have := mt hiff.mp hn
      omega

end Double

namespace Vm

variable {vm vm' : Vm} {index : Int} {v : Value}

-- =============================================================== one slot

/-- The position that an index means in a frame at `base`, of `count` slots in
all. -/
def position? (base count : Nat) (index : Int) : Option Nat :=
  if 0 < index then
    if base + (index - 1).toNat < count then some (base + (index - 1).toNat) else none
  else if registryIndex < index ∧ index < 0 then
    if (count : Int) + index < base then none else some ((count : Int) + index).toNat
  else none

theorem slot_eq {b : Nat} {fs : List Nat} (hf : vm.machine.frames = b :: fs) :
    slot index vm =
      match position? b vm.machine.slots.length index with
      | some position => .ok position vm
      | none => .error (.misuse (.invalidIndex index)) vm := by
  unfold slot position?
  split
  · simp only [getMachine, bind_apply, get_apply, pure_apply, base_eq hf]
    split <;> rfl
  · split
    · simp only [getMachine, bind_apply, get_apply, pure_apply, base_eq hf]
      split <;> rfl
    · rfl

theorem slot_ok {b : Nat} {fs : List Nat} {position : Nat} (hf : vm.machine.frames = b :: fs)
    (h : position? b vm.machine.slots.length index = some position) :
    slot index vm = .ok position vm := by
  rw [slot_eq hf, h]

/-- A value that is not the registry's has a position in the stack. -/
theorem position_of_valueAt? (h : valueAt? index vm = .ok (some v) vm')
    (hregistry : index ≠ registryIndex) :
    ∃ b fs position, vm.machine.frames = b :: fs
      ∧ position? b vm.machine.slots.length index = some position
      ∧ vm.machine.slots[position]? = some v := by
  obtain ⟨b, fs, hf⟩ := framed_of_valueAt? h hregistry
  refine ⟨b, fs, ?_⟩
  by_cases hpositive : 0 < index
  · rw [valueAt?_pos hf hpositive] at h
    injection h with hget _
    refine ⟨b + (index - 1).toNat, hf, ?_, hget⟩
    unfold position?
    rw [if_pos hpositive, if_pos (List.getElem?_eq_some_iff.mp hget).1]
  · unfold valueAt? at h
    rw [if_neg hregistry, if_neg hpositive] at h
    cases hposition : position? b vm.machine.slots.length index with
    | none =>
        rw [bind_apply, slot_eq hf, hposition] at h
        cases h
    | some position =>
        rw [bind_ok (slot_ok hf hposition)] at h
        injection h with hget _
        exact ⟨position, hf, rfl, hget⟩

theorem valueAt?_position {b : Nat} {fs : List Nat} {position : Nat}
    (hf : vm.machine.frames = b :: fs)
    (h : position? b vm.machine.slots.length index = some position) :
    valueAt? index vm = .ok vm.machine.slots[position]? vm := by
  by_cases hpositive : 0 < index
  · unfold position? at h
    rw [if_pos hpositive] at h
    rw [valueAt?_pos hf hpositive]
    split at h
    · injection h with h
      rw [h]
    · cases h
  · have hregistry : index ≠ registryIndex := by
      rintro rfl
      cases h
    unfold valueAt?
    rw [if_neg hregistry, if_neg hpositive, bind_ok (slot_ok hf h)]
    rfl

/-- A slot that gets another value holds that value. -/
theorem valueAt?_set {b : Nat} {fs : List Nat} {position : Nat} {w : Value}
    (hf : vm.machine.frames = b :: fs)
    (h : position? b vm.machine.slots.length index = some position)
    (hv : vm.machine.slots[position]? = some v) :
    valueAt? index (vm.withSlots (vm.machine.slots.set position w))
      = .ok (some w) (vm.withSlots (vm.machine.slots.set position w)) := by
  have hlt := (List.getElem?_eq_some_iff.mp hv).1
  have hposition : position? b (vm.machine.slots.set position w).length index = some position := by
    rw [List.length_set, h]
  have hframes : (vm.withSlots (vm.machine.slots.set position w)).machine.frames = b :: fs := hf
  rw [valueAt?_position hframes hposition, withSlots_slots, List.getElem?_set_self hlt]

-- ============================================================ turned into text

/-- The bytes of a number slot take its place. -/
theorem toBytes?_number {q : Numeral} (h : valueAt? index vm = .ok (some v) vm)
    (hv : v.plain = q.slot) :
    ∃ position, vm.machine.slots[position]? = some v
      ∧ toBytes? index vm
        = .ok (some q.toBytes) (vm.withSlots (vm.machine.slots.set position (.str q.toBytes)))
      ∧ valueAt? index (vm.withSlots (vm.machine.slots.set position (.str q.toBytes)))
        = .ok (some (.str q.toBytes))
          (vm.withSlots (vm.machine.slots.set position (.str q.toBytes))) := by
  have hregistry : index ≠ registryIndex := by
    rintro rfl
    rw [valueAt?_registry] at h
    injection h with hsome _
    injection hsome with htable
    subst htable
    cases q <;> cases hv
  obtain ⟨b, fs, position, hf, hposition, hget⟩ := position_of_valueAt? h hregistry
  refine ⟨position, hget, ?_, valueAt?_set hf hposition hget⟩
  unfold toBytes?
  rw [bind_ok h]
  simp only [Option.map_some, hv]
  cases q with
  | int n =>
      simp only [Numeral.slot]
      rw [bind_ok (slot_ok hf hposition)]
      rfl
  | float x =>
      simp only [Numeral.slot]
      rw [bind_ok (slot_ok hf hposition)]
      rfl

theorem isNumber_str {b : Bytes} {q : Numeral} (h : valueAt? index vm = .ok (some (.str b)) vm)
    (hq : Numeral.ofBytes? b = some q) : isNumber index vm = .ok true vm := by
  unfold isNumber
  rw [bind_ok h]
  simp only [Option.map_some, Value.plain, hq]
  rfl

/-- The text of a number keeps its value and its subtype: an integer's is read
as that integer, a float's as a float under the same sign. So a number slot that
has turned into its bytes reads as a number still. -/
theorem number_text_kept :
    (∀ n : Int, inRange n = true →
      Numeral.ofBytes? (Numeral.int n).toBytes = some (.int n))
    ∧ (∀ x : Double, ∃ y, Numeral.ofBytes? (Numeral.float x).toBytes = some (.float y)
        ∧ y.isNaN = x.isNaN ∧ y.negative = x.negative)
    ∧ ∀ {vm : Vm} {index : Int} {v : Value} {q : Numeral}, q.Slotted → v.plain = q.slot →
        valueAt? index vm = .ok (some v) vm →
        ∃ position vm', vm.machine.slots[position]? = some v
          ∧ toBytes? index vm = .ok (some q.toBytes) vm'
          ∧ vm' = vm.withSlots (vm.machine.slots.set position (.str q.toBytes))
          ∧ valueAt? index vm' = .ok (some (.str q.toBytes)) vm'
          ∧ isNumber index vm' = .ok true vm' := by
  have hint : ∀ n : Int, inRange n = true →
      Numeral.ofBytes? (Numeral.int n).toBytes = some (.int n) := by
    intro n hn
    obtain ⟨hlow, hhigh⟩ : minInteger ≤ n ∧ n ≤ maxInteger := of_decide_eq_true hn
    have hdigits : twoPow 63 < 10 ^ maxIntegerDigits :=
      Nat.lt_of_lt_of_le (by decide : twoPow 63 < 10 ^ 19)
        (Nat.pow_le_pow_right (by decide) (by decide))
    refine Numeral.ofBytes?_int (Nat.lt_of_le_of_lt ?_ hdigits)
    unfold minInteger at hlow
    unfold maxInteger at hhigh
    omega
  refine ⟨hint, Numeral.ofBytes?_float, ?_⟩
  intro vm index v q hslotted hplain hv
  have hread : ∃ q', Numeral.ofBytes? q.toBytes = some q' := by
    cases q with
    | int n => exact ⟨_, hint n hslotted⟩
    | float x =>
        obtain ⟨y, hy, -⟩ := Numeral.ofBytes?_float x
        exact ⟨_, hy⟩
  obtain ⟨q', hq'⟩ := hread
  obtain ⟨position, hget, hbytes, hvalue⟩ := toBytes?_number hv hplain
  exact ⟨position, _, hget, hbytes, rfl, hvalue, isNumber_str hvalue hq'⟩

/-- A machine whose only slot holds a value. -/
def holding (v : Value) : Vm := ((Session.start 1 true).vm 0).withSlots [v]

theorem valueAt?_holding (v : Value) : valueAt? (-1) (holding v) = .ok (some v) (holding v) := rfl

/-- At the least integer and at the negative zero. -/
theorem number_text_kept_least :
    inRange minInteger = true
    ∧ Numeral.ofBytes? (Numeral.int minInteger).toBytes = some (.int minInteger)
    ∧ (∃ y, Numeral.ofBytes? (Numeral.float (Double.ofMagnitude true 0)).toBytes = some (.float y)
        ∧ y.isNaN = false ∧ y.negative = true)
    ∧ ∃ vm', toBytes? (-1) (holding (.int minInteger))
          = .ok (some (Numeral.int minInteger).toBytes) vm'
        ∧ isNumber (-1) vm' = .ok true vm' := by
  have hrange : inRange minInteger = true := by decide
  obtain ⟨hint, hfloat, hslot⟩ := number_text_kept
  obtain ⟨y, hy, hnan, hsign⟩ := hfloat (Double.ofMagnitude true 0)
  obtain ⟨_, vm', _, hbytes, _, _, hnumber⟩ :=
    hslot (q := .int minInteger) hrange rfl (valueAt?_holding (.int minInteger))
  exact ⟨hrange, hint _ hrange, ⟨y, hy, hnan, hsign⟩, vm', hbytes, hnumber⟩

-- ============================================================ read as integers

/-- What a value denotes is what it is read as. -/
theorem numeralOf?_iff {q : Numeral} : numeralOf? (some v) = some q ↔ v.Denotes q := by
  unfold numeralOf?
  simp only [Option.map_some]
  constructor
  · intro h
    split at h
    · rename_i hplain
      injection hplain with hplain
      injection h with h
      exact .held (h ▸ hplain)
    · rename_i hplain
      injection hplain with hplain
      injection h with h
      exact .held (h ▸ hplain)
    · rename_i hplain
      injection hplain with hplain
      exact .read hplain h
    · cases h
  · intro h
    cases h with
    | held hplain =>
        rw [hplain]
        cases q <;> rfl
    | read hplain hq =>
        rw [hplain]
        exact hq

/-- A value denotes one numeral at most. -/
theorem denotes_unique {q q' : Numeral} (h : v.Denotes q) (h' : v.Denotes q') : q' = q := by
  have hq := numeralOf?_iff.mpr h
  rw [numeralOf?_iff.mpr h'] at hq
  exact Option.some.inj hq

theorem integerOf_float (x : Double) :
    integerOf (.float x) = if x.isFinite && inRange x.truncate then x.truncate else 0 := rfl

theorem integerOf_truncates {x : Double} {t : Int} (h : (Numeral.float x).Truncates t) :
    integerOf (.float x) = if inRange t then t else 0 := by
  have ht := Double.truncates_unique h
  rw [integerOf_float, h.1, Bool.true_and, ht]

theorem inRange_integerOf (x : Double) : inRange (integerOf (.float x)) = true := by
  rw [integerOf_float]
  split
  · rename_i hfits
    exact (Bool.and_eq_true_iff.mp hfits).2
  · decide

/-- A float that leaves no integer of 64 bits reads as zero. -/
theorem integerOf_zero {x : Double}
    (h : ∀ t, (Numeral.float x).Truncates t → inRange t = false) : integerOf (.float x) = 0 := by
  cases hfinite : x.isFinite with
  | true =>
      have ht := Double.truncates_truncate hfinite
      rw [integerOf_truncates ht, h _ ht]
      rfl
  | false =>
      rw [integerOf_float, hfinite]
      rfl

/-- Every slot reads as an integer. It is the slot's integer, or what is left of
its float or of the number its bytes read as where that has 64 bits, and zero
otherwise, and it has 64 bits, unless the bytes are an integer's that has more:
that one is answered as it is. -/
theorem toInteger_reads (hv : valueAt? index vm = .ok (some v) vm)
    (hslotted : ∀ q : Numeral, v.plain = q.slot → q.Slotted) :
    ∃ n, toInteger index vm = .ok n vm
      ∧ ((∀ b m, v.plain = .str b → Numeral.ofBytes? b = some (.int m) → inRange m = true) →
          inRange n = true
          ∧ (∀ q t, v.Denotes q → q.Truncates t → inRange t = true → n = t)
          ∧ ((∀ q t, v.Denotes q → q.Truncates t → inRange t = false) → n = 0))
      ∧ ∀ b m, v.plain = .str b → Numeral.ofBytes? b = some (.int m) → n = m := by
  unfold toInteger
  rw [bind_ok hv]
  cases hq : numeralOf? (some v) with
  | none =>
      have hnone : ∀ q, ¬ v.Denotes q := by
        intro q hden
        rw [numeralOf?_iff.mpr hden] at hq
        cases hq
      refine ⟨0, rfl, fun _ => ⟨by decide, ?_, fun _ => rfl⟩, ?_⟩
      · intro q t hden
        exact absurd hden (hnone q)
      · intro b m hb hm
        exact absurd (Value.Denotes.read hb hm) (hnone _)
  | some q =>
      have hden := numeralOf?_iff.mp hq
      cases q with
      | int m =>
          refine ⟨m, rfl, ?_, ?_⟩
          · intro hbytes
            have hrange : inRange m = true := by
              cases hden with
              | held h => exact hslotted _ h
              | read hb hm => exact hbytes _ _ hb hm
            refine ⟨hrange, ?_, ?_⟩
            · intro q' t hden' ht _
              obtain rfl := denotes_unique hden hden'
              exact ht.symm
            · intro hout
              rw [hout _ m hden rfl] at hrange
              cases hrange
          · intro b m' hb hm
            have heq := denotes_unique hden (.read hb hm)
            injection heq with heq
            exact heq.symm
      | float x =>
          refine ⟨integerOf (.float x), rfl, fun _ => ⟨inRange_integerOf x, ?_, ?_⟩, ?_⟩
          · intro q' t hden' ht hrange
            obtain rfl := denotes_unique hden hden'
            rw [integerOf_truncates ht, if_pos hrange]
          · intro hout
            exact integerOf_zero fun t ht => hout _ t hden ht
          · intro b m hb hm
            cases denotes_unique hden (.read hb hm)

/-- A text that is read as a float: minus one and a half. -/
theorem toInteger_reads_text :
    let v : Value := .str [45, 49, 46, 53]
    let x : Double := .ofBits 0xBFF8000000000000
    v.Denotes (.float x) ∧ (Numeral.float x).Truncates (-1)
      ∧ toInteger (-1) (holding v) = .ok (-1) (holding v) := by
  have hden : Value.Denotes (.str [45, 49, 46, 53]) (.float (.ofBits 0xBFF8000000000000)) :=
    .read rfl (by decide +kernel)
  have htruncates : (Numeral.float (.ofBits 0xBFF8000000000000)).Truncates (-1) := by
    refine ⟨?_, ?_, ?_, ?_⟩ <;> decide +kernel
  have hslotted : ∀ q : Numeral, (Value.str [45, 49, 46, 53]).plain = q.slot → q.Slotted := by
    intro q h
    cases q <;> cases h
  obtain ⟨n, hn, hreads, -⟩ := toInteger_reads (valueAt?_holding (.str [45, 49, 46, 53])) hslotted
  have hbytes : ∀ b m, (Value.str [45, 49, 46, 53]).plain = .str b →
      Numeral.ofBytes? b = some (.int m) → inRange m = true := by
    intro b m hb hm
    have hq : Numeral.ofBytes? b = some (.float (.ofBits 0xBFF8000000000000)) := by
      injection hb with hb
      rw [← hb]
      decide +kernel
    rw [hq] at hm
    cases hm
  obtain rfl := (hreads hbytes).2.1 _ _ hden htruncates (by decide)
  exact ⟨hden, htruncates, hn⟩

/-- A text of an integer that has more than 64 bits: two to the power of 63. -/
theorem toInteger_beyond_range :
    let digits : Bytes := [57, 50, 50, 51, 51, 55, 50, 48, 51, 54, 56, 53, 52, 55, 55, 53, 56, 48, 56]
    let s := Session.afterOps Session.plain [.plainPush .lString (.value (.bytes .plain digits))]
    Session.Reachable Session.plain s
      ∧ valueAt? (-1) (s.vm 0) = .ok (some (.str digits)) (s.vm 0)
      ∧ toInteger (-1) (s.vm 0) = .ok 9223372036854775808 (s.vm 0)
      ∧ inRange 9223372036854775808 = false :=
  ⟨Session.afterOps_reachable rfl _, rfl, rfl, by decide⟩

end Vm

end StackBridge
