import StackBridge.Proofs.Frames.Primitives

/-!
What the answer of a machine action says of the machine before it. The equations
on the topmost slots ask that a frame is running and begins below them; where an
action has answered that need not be known beforehand. A closed machine promises
neither, but a pop that has answered has found a slot in the running frame, and
an index at which there is a value means that value until it goes.
-/

namespace StackBridge

namespace Vm

variable {vm vm' : Vm} {b : Nat} {fs : List Nat} {l : List Value} {v w : Value} {i j : Int}

-- ================================================================== the top

theorem looked {α : Type} {a : Action α} {x : α} (ha : Looks a) (h : a vm = .ok x vm') :
    vm' = vm := by
  have hends := ha.ends vm
  rw [h] at hends
  exact hends

/-- A value is taken from above the base of the running frame. -/
theorem take_answered (h : take vm = .ok v vm') :
    ∃ l b fs, vm.machine.frames = b :: fs ∧ vm.machine.slots = l ++ [v] ∧ b ≤ l.length
      ∧ vm' = vm.withSlots l := by
  cases hf : vm.machine.frames with
  | nil =>
      unfold take at h
      rw [bind_error (base_none hf)] at h
      cases h
  | cons b fs =>
      rcases List.eq_nil_or_concat vm.machine.slots with hs | ⟨l, w, hs⟩
      · unfold take at h
        rw [bind_ok (base_eq hf)] at h
        simp only [getMachine, bind_apply, get_apply, pure_apply, hs, List.length_nil,
          Nat.zero_le, if_true] at h
        cases h
      · rw [List.concat_eq_append] at hs
        by_cases hb : b ≤ l.length
        · rw [take_eq hf hs hb] at h
          cases h
          exact ⟨l, b, fs, rfl, hs, hb, rfl⟩
        · have hlen : vm.machine.slots.length ≤ b := by
            rw [hs, List.length_append, List.length_singleton]
            omega
          unfold take at h
          rw [bind_ok (base_eq hf)] at h
          simp only [getMachine, bind_apply, get_apply, pure_apply, if_pos hlen] at h
          cases h

/-- The value that was on top, and what was below it. -/
theorem take_top (h : take vm = .ok v vm') (hs : vm.machine.slots = l ++ [w]) :
    v = w ∧ vm' = vm.withSlots l ∧ ∃ b fs, vm.machine.frames = b :: fs ∧ b ≤ l.length := by
  obtain ⟨l', b, fs, hf, hs', hb, rfl⟩ := take_answered h
  obtain ⟨rfl, hw⟩ := List.append_inj' (hs'.symm.trans hs) rfl
  cases hw
  exact ⟨rfl, rfl, b, fs, hf, hb⟩

theorem pop_answered (h : pop 1 vm = .ok () vm') (hs : vm.machine.slots = l ++ [w]) :
    vm' = vm.withSlots l := by
  cases hf : vm.machine.frames with
  | nil =>
      have htop : getTop vm = .error (.host .noFrame) vm := bind_error (base_none hf)
      unfold pop at h
      rw [bind_error htop] at h
      cases h
  | cons b fs =>
      by_cases hb : b ≤ l.length
      · rw [pop_one hf hs hb] at h
        cases h
        rfl
      · have hshort : (vm.machine.slots.length : Int) - b < 1 := by
          rw [hs, List.length_append, List.length_singleton]
          omega
        rw [pop_short hf hshort] at h
        cases h

theorem tableAt_answered {id : TableId} (h : tableAt i vm = .ok id vm') :
    valueAt? i vm = .ok (some (.table id)) vm := by
  unfold tableAt at h
  obtain ⟨v, vm₁, hv, h⟩ := bind_answered h
  obtain rfl := looked (looks_valueAt? i) hv
  cases v with
  | none => cases h
  | some v =>
      cases v with
      | table id' => cases h; exact hv
      | _ =>
          obtain ⟨c, vm₂, _, h⟩ := bind_answered h
          cases h

/-- A category is that of a value, or says that there is none. -/
theorem categoryAt_answered {c : Category} (h : categoryAt i vm = .ok c vm') :
    ∃ x, valueAt? i vm = .ok x vm
      ∧ (x = none ∧ c = .absent ∨ ∃ v, x = some v ∧ v.category? = some c) := by
  unfold categoryAt at h
  obtain ⟨x, vm₁, hx, hcategory⟩ := bind_answered h
  obtain rfl := looked (looks_valueAt? i) hx
  refine ⟨x, hx, ?_⟩
  cases x with
  | none =>
      cases hcategory
      exact Or.inl ⟨rfl, rfl⟩
  | some v =>
      cases hv : v.category? with
      | none =>
          have hstray : categoryOf v vm₁ = .ok c vm' := hcategory
          rw [categoryOf_stray hv] at hstray
          cases hstray
      | some c' =>
          have hknown : categoryOf v vm₁ = .ok c vm' := hcategory
          rw [categoryOf_eq hv] at hknown
          cases hknown
          exact Or.inr ⟨v, rfl, hv⟩

/-- What a table holds under a key comes on top; it has a category. -/
theorem getKey_answered {k : Value} {c c' : Category} (hk : k.category? = some c')
    (h : getKey i k vm = .ok c vm') :
    ∃ id, valueAt? i vm = .ok (some (.table id)) vm
      ∧ vm' = vm.withSlots (vm.machine.slots ++ [(vm.heap.table id).get k])
      ∧ ((vm.heap.table id).get k).category? = some c := by
  have hlook := h
  unfold getKey at hlook
  obtain ⟨id, vm₁, hid, _⟩ := bind_answered hlook
  have hvalue := tableAt_answered hid
  rw [getKey_apply hvalue] at h
  refine ⟨id, hvalue, ?_⟩
  cases hv : ((vm.heap.table id).get k).category? with
  | none =>
      rw [fetch_stray hk hv] at h
      cases h
  | some c'' =>
      rw [fetch_eq hk hv] at h
      cases h
      exact ⟨rfl, rfl⟩

/-- A step of a traversal has come to the end or to an entry. -/
theorem next_answered {id : TableId} {more : Bool} (h : next i vm = .ok more vm')
    (hi : valueAt? i vm = .ok (some (.table id)) vm) (hs : vm.machine.slots = l ++ [w]) :
    (more = false ∧ (vm.heap.table id).next w = .ok none ∧ vm' = vm.withSlots l)
      ∨ ∃ e, more = true ∧ (vm.heap.table id).next w = .ok (some e)
        ∧ vm' = vm.withSlots (l ++ [e.1.value, e.2]) := by
  have htable := tableAt_eq hi
  have htake := h
  unfold next at htake
  rw [bind_ok htable] at htake
  obtain ⟨v, vm₁, htake, _⟩ := bind_answered htake
  obtain ⟨_, _, b, fs, hf, hb⟩ := take_top htake hs
  cases hnext : (vm.heap.table id).next w with
  | error f =>
      rw [next_apply hf hs hb htable, hnext] at h
      cases f <;> cases h
  | ok e =>
      cases e with
      | none =>
          rw [next_done hf hs hb htable hnext] at h
          cases h
          exact Or.inl ⟨rfl, rfl, rfl⟩
      | some e =>
          rw [next_more hf hs hb htable hnext] at h
          cases h
          exact Or.inr ⟨e, rfl, rfl, rfl⟩

-- ================================================================ indices

/-- There is no value at an index where there is no frame. -/
theorem framed_of_valueAt? {x : Option Value} (h : valueAt? i vm = .ok x vm')
    (hi : i ≠ registryIndex) : ∃ b fs, vm.machine.frames = b :: fs := by
  cases hf : vm.machine.frames with
  | cons b fs => exact ⟨b, fs, rfl⟩
  | nil =>
      have hbase := base_none hf
      unfold valueAt? slot at h
      rw [if_neg hi] at h
      split at h
      · rw [bind_error hbase] at h
        cases h
      · obtain ⟨position, vm₁, h, _⟩ := bind_answered h
        split at h
        · simp only [getMachine, bind_apply, get_apply, pure_apply, hbase] at h
          cases h
        · cases h

/-- A value below the top is at a distance from it. -/
theorem valueAt?_below {x : Option Value} (h : valueAt? i vm = .ok x vm')
    (hf : vm.machine.frames = b :: fs) (hi : ¬ 0 < i) (hregistry : i ≠ registryIndex) :
    ∃ l w r, vm.machine.slots = l ++ w :: r ∧ b ≤ l.length ∧ r.length < 1000999
      ∧ i = -(r.length : Int) - 1 ∧ x = some w := by
  unfold valueAt? slot at h
  rw [if_neg hregistry, if_neg hi, if_neg hi] at h
  obtain ⟨position, vm₁, hslot, h⟩ := bind_answered h
  split at hslot
  · rename_i hrange
    simp only [getMachine, bind_apply, get_apply, pure_apply, base_eq hf] at hslot
    split at hslot
    · cases hslot
    · rename_i hbase
      cases hslot
      cases h
      unfold registryIndex at hrange
      have hlt : ((vm.machine.slots.length : Int) + i).toNat < vm.machine.slots.length := by omega
      refine ⟨vm.machine.slots.take ((vm.machine.slots.length : Int) + i).toNat, _,
        vm.machine.slots.drop (((vm.machine.slots.length : Int) + i).toNat + 1),
        ?_, ?_, ?_, ?_, List.getElem?_eq_getElem hlt⟩
      · rw [← List.drop_eq_getElem_cons hlt, List.take_append_drop]
      · rw [List.length_take]
        omega
      · rw [List.length_drop]
        omega
      · rw [List.length_drop]
        omega
  · cases hslot

/-- The value that some others are on top of. -/
theorem valueAt?_answered {r : List Value} {x : Option Value}
    (h : valueAt? (-(r.length : Int) - 1) vm = .ok x vm')
    (hs : vm.machine.slots = l ++ w :: r) (hr : r.length < 1000999) : x = some w := by
  have hregistry : -(r.length : Int) - 1 ≠ registryIndex := by
    unfold registryIndex
    omega
  obtain ⟨b, fs, hf⟩ := framed_of_valueAt? h hregistry
  obtain ⟨l', w', r', hs', _, _, hlength, rfl⟩ := valueAt?_below h hf (by omega) hregistry
  have hlen : (w' :: r').length = (w :: r).length := by
    rw [List.length_cons, List.length_cons]
    omega
  obtain ⟨_, htail⟩ := List.append_inj' (hs'.symm.trans hs) hlen
  cases htail
  rfl

/-- An absolute index means the same when more values have come on top. -/
theorem absIndex_answered (h : absIndex i vm = .ok j vm)
    (hi : valueAt? i vm = .ok (some w) vm) {xs : List Value}
    (hf : vm'.machine.frames = vm.machine.frames)
    (hregistry : vm'.machine.registry = vm.machine.registry)
    (hs : vm'.machine.slots = vm.machine.slots ++ xs) :
    valueAt? j vm' = .ok (some w) vm' := by
  by_cases hreg : i = registryIndex
  · subst hreg
    have habs : absIndex registryIndex vm = .ok registryIndex vm := rfl
    rw [habs] at h
    rw [valueAt?_registry] at hi
    cases h
    cases hi
    rw [valueAt?_registry, hregistry]
  · obtain ⟨b, fs, hframe⟩ := framed_of_valueAt? hi hreg
    have hframe' := hf.trans hframe
    by_cases hpos : 0 < i
    · unfold absIndex at h
      rw [if_pos (Or.inl hpos)] at h
      cases h
      rw [valueAt?_pos hframe hpos] at hi
      have hvalue : vm.machine.slots[b + (i - 1).toNat]? = some w := by
        injection hi
      rw [valueAt?_pos hframe' hpos, hs,
        List.getElem?_append_left (List.getElem?_eq_some_iff.mp hvalue).1, hvalue]
    · obtain ⟨l, w', r, hslots, hb, hr, rfl, hw⟩ := valueAt?_below hi hframe hpos hreg
      cases hw
      rw [absIndex_behind hframe hslots hr] at h
      cases h
      refine valueAt?_abs (r := r ++ xs) hframe' ?_ hb
      rw [hs, hslots, List.append_assoc]
      rfl

end Vm

end StackBridge
