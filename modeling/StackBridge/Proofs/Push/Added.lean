import StackBridge.Bridge.Push
import StackBridge.Proofs.Session.Parts

/-!
What a push does to the heap. It makes objects, but the tables that were there
before stay as they were: `KeepsTables` is its relation between sessions, and
`Adds k xs s t` says that nothing has come on top of machine `k` but `xs`.
-/

namespace StackBridge

namespace Session

-- ================================================================ the heap

/-- The tables that there were are as they were, no reference has been given
out or given back, and the encoding is the same. -/
structure KeepsTables (k : MachineId) (s t : Session) : Prop where
  encoding : t.encoding = s.encoding
  size : s.heap.tables.size ≤ t.heap.tables.size
  table : ∀ id < s.heap.tables.size, t.heap.table id = s.heap.table id
  freeRefs : (t.machine k).freeRefs = (s.machine k).freeRefs

instance (k : MachineId) : SeesMemory k (KeepsTables k) where
  same he _ hh _ hf := ⟨he, Nat.le_of_eq (by rw [hh]), fun id _ => by rw [hh], hf⟩
  trans h h' :=
    ⟨h'.encoding.trans h.encoding, Nat.le_trans h.size h'.size,
      fun id hid => (h'.table id (Nat.lt_of_lt_of_le hid h.size)).trans (h.table id hid),
      h'.freeRefs.trans h.freeRefs⟩

/-- The values `xs` have come on top of machine `k`. -/
abbrev Adds (k : MachineId) : List Value → Session → Session → Prop := Leaves (KeepsTables k) k

variable {s s₀ t : Session} {k : MachineId} {xs : List Value}

/-- A new table on top. -/
theorem pushTable_ends (hk : k < s.machines.size) :
    ∃ t, onMachine k Vm.pushTable s = .ok () t
      ∧ Adds k [.table s.heap.tables.size] s t
      ∧ t.heap = { s.heap with tables := s.heap.tables.push .empty } := by
  refine ⟨_, onMachine_ok (Vm.pushTable_eq (s.vm k)), ?_, rfl⟩
  refine ⟨?_, ?_, ?_, ?_, withVm_size .., rfl, ?_, ?_, ?_⟩
  · rw [withVm_machine hk]
    rfl
  · rw [withVm_machine hk]
    rfl
  · rw [withVm_machine hk]
    rfl
  · rw [withVm_machine hk]
    rfl
  · show s.heap.tables.size ≤ (s.heap.tables.push .empty).size
    rw [Array.size_push]
    omega
  · exact fun id hid => Heap.table_push_lt hid .empty
  · rw [withVm_machine hk]
    rfl

/-- A new function on top. -/
theorem pushFunction_ends (hk : k < s.machines.size) (f : FunctionObject) :
    ∃ t, onMachine k (Vm.pushFunction f) s = .ok () t
      ∧ Adds k [.function s.heap.functions.size] s t := by
  refine ⟨_, onMachine_ok (Vm.pushFunction_eq f (s.vm k)), ?_⟩
  refine ⟨?_, ?_, ?_, ?_, withVm_size .., rfl, Nat.le_refl _, fun _ _ => rfl, ?_⟩
  all_goals
    rw [withVm_machine hk]
    rfl

/-- Storing into a table that was not there at first. -/
theorem Adds.store (h : Adds k xs s₀ t) (hk : k < s₀.machines.size) {id : TableId}
    (hid : s₀.heap.tables.size ≤ id) (table : Table) (ys : List Value) :
    Adds k ys s₀
      (t.withVm k
        { (t.vm k).withSlots ((s₀.machine k).slots ++ ys) with
          heap := t.heap.setTable id table }) := by
  have hkt : k < t.machines.size := by rw [h.size]; exact hk
  refine ⟨?_, ?_, ?_, ?_, ?_, h.rest.encoding, ?_, ?_, ?_⟩
  · rw [withVm_machine hkt]
    rfl
  · rw [withVm_machine hkt]
    exact h.frames
  · rw [withVm_machine hkt]
    exact h.registry
  · rw [withVm_machine hkt]
    exact h.closed
  · rw [withVm_size]
    exact h.size
  · rw [withVm_heap, Heap.setTable_size]
    exact h.rest.size
  · intro id' hid'
    have hne : id ≠ id' := Nat.ne_of_gt (Nat.lt_of_lt_of_le hid' hid)
    rw [withVm_heap, Heap.table_setTable_ne hne]
    exact h.rest.table id' hid'
  · rw [withVm_machine hkt]
    exact h.rest.freeRefs

-- ============================================================= into a table

variable {id : TableId} {key v : Value} {ys : List Value}

/-- An action that comes down to storing, where the key can be one. -/
theorem storing_ok (h : Adds k xs s₀ s) (hk : k < s₀.machines.size)
    (hid : s₀.heap.tables.size ≤ id) {a : Vm.Action Unit} {table : Table}
    (ha : a (s.vm k) = Vm.store id key v ((s.vm k).withSlots ((s₀.machine k).slots ++ ys)))
    (hset : (s.heap.table id).set key v = .ok table) :
    ∃ t, onMachine k a s = .ok () t ∧ Adds k ys s₀ t ∧ t.heap = s.heap.setTable id table :=
  ⟨_, onMachine_ok (ha.trans (Vm.store_eq hset)), h.store hk hid table ys, rfl⟩

/-- An action that comes down to storing into a table that was not there at
first. -/
theorem storing_ends (h : Adds k xs s₀ s) (hk : k < s₀.machines.size)
    (hid : s₀.heap.tables.size ≤ id) {a : Vm.Action Unit}
    (ha : a (s.vm k) = Vm.store id key v ((s.vm k).withSlots ((s₀.machine k).slots ++ ys))) :
    Ends (onMachine k a s) (fun _ t => Adds k ys s₀ t)
      fun e t => e.Met ∧ ∃ zs, Adds k zs s₀ t := by
  cases hset : (s.heap.table id).set key v with
  | ok table =>
      obtain ⟨t, ht, hadds, _⟩ := storing_ok h hk hid ha hset
      rw [ht]
      exact hadds
  | error f =>
      rw [onMachine_error (ha.trans (Vm.store_error hset))]
      exact ⟨⟨_, rfl⟩, ys, h.withSlots hk ys⟩

/-- Where what has been put on top of a machine lies for the one that may run. -/
theorem Adds.seat (h : Adds k (v :: ys) s₀ s) (hl : (s₀.machine k).Live) :
    ∃ b fs, (s.vm k).machine.frames = b :: fs ∧ b ≤ (s₀.machine k).slots.length
      ∧ (s.vm k).machine.slots = (s₀.machine k).slots ++ v :: ys
      ∧ (s.vm k).machine.slots = ((s₀.machine k).slots ++ [v]) ++ ys
      ∧ b ≤ ((s₀.machine k).slots ++ [v]).length := by
  obtain ⟨_, b, fs, hf, hb⟩ := hl
  have hslots : (s.vm k).machine.slots = (s₀.machine k).slots ++ v :: ys := h.slots
  refine ⟨b, fs, h.frames.trans hf, hb, hslots, ?_, ?_⟩
  · rw [hslots, List.append_cons]
  · rw [List.length_append]
    exact Nat.le_add_right_of_le hb

/-- Storing the top into the table below it. -/
theorem setKey_store (h : Adds k [.table id, v] s₀ s) (hl : (s₀.machine k).Live) (key : Value) :
    Vm.setKey (-2) key (s.vm k)
      = Vm.store id key v ((s.vm k).withSlots ((s₀.machine k).slots ++ [.table id])) := by
  obtain ⟨_, _, hf, hb, hs, hs', hb'⟩ := h.seat hl
  exact Vm.setKey_apply hf hs' hb' (Vm.valueAt?_second hf hs hb)

/-- Storing the top under the key below it into the table below that. -/
theorem rawSet_store (h : Adds k [.table id, key, v] s₀ s) (hl : (s₀.machine k).Live) :
    Vm.rawSet (-3) (s.vm k)
      = Vm.store id key v ((s.vm k).withSlots ((s₀.machine k).slots ++ [.table id])) := by
  obtain ⟨_, _, hf, hb, hs, hs', hb'⟩ := h.seat hl
  exact Vm.rawSet_apply hf hs' hb' (Vm.valueAt?_third hf hs hb)

end Session

end StackBridge
