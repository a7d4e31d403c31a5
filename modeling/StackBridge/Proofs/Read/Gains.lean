import StackBridge.Bridge.Wrapper
import StackBridge.Proofs.Machine.Table
import StackBridge.Proofs.Session.Parts

/-!
What a read does to the heap. It makes no table and writes to none, but a
value without a host value of its own is wrapped, and a wrapper is a new
reference in the registry. `GainsEntries` says where: at a reference that has
been given back, or under a key that there was not.

A reference that has been given back twice, and handed out again in between,
is in use and given back at once; only an entry under such a reference can be
lost (`GainsEntries.kept`).
-/

namespace StackBridge

namespace Session

/-- The registry of a machine. -/
def registryTable (s : Session) (k : MachineId) : Table := s.heap.table (s.machine k).registry

/-- The references given back of a machine's registry. -/
def givenBack (s : Session) (k : MachineId) : List Int := (s.machine k).free (s.machine k).registry

/-- No table but the registry has changed, and the registry only where a
reference was given back or nothing was kept. -/
structure GainsEntries (k : MachineId) (s t : Session) : Prop where
  size : t.heap.tables.size = s.heap.tables.size
  registry : (t.machine k).registry = (s.machine k).registry
  table : ∀ id ≠ (s.machine k).registry, t.heap.table id = s.heap.table id
  entry : ∀ key, (t.registryTable k).find? key = (s.registryTable k).find? key
    ∨ ∃ r, key = .int r ∧ ((t.registryTable k).find? key).isSome
      ∧ (r ∈ s.givenBack k ∨ (s.registryTable k).find? key = none)
  given : ∀ r ∈ t.givenBack k, r ∈ s.givenBack k

namespace GainsEntries

variable {s t u : Session} {k : MachineId}

theorem of_same (hh : t.heap = s.heap) (hr : (t.machine k).registry = (s.machine k).registry)
    (hf : (t.machine k).freeRefs = (s.machine k).freeRefs) : GainsEntries k s t where
  size := by rw [hh]
  registry := hr
  table id _ := by rw [hh]
  entry key := by
    left
    unfold registryTable
    rw [hh, hr]
  given r hmem := by
    unfold givenBack Machine.free at hmem ⊢
    rw [hf, hr] at hmem
    exact hmem

theorem trans (h : GainsEntries k s t) (h' : GainsEntries k t u) : GainsEntries k s u where
  size := h'.size.trans h.size
  registry := h'.registry.trans h.registry
  table id hid := (h'.table id (by rw [h.registry]; exact hid)).trans (h.table id hid)
  given r hr := h.given r (h'.given r hr)
  entry key := by
    rcases h'.entry key with heq' | ⟨r, rfl, hsome, hfree'⟩
    · rw [heq']
      exact h.entry key
    · refine Or.inr ⟨r, rfl, hsome, ?_⟩
      rcases hfree' with hmem | hnone
      · exact Or.inl (h.given r hmem)
      · rcases h.entry (.int r) with heq | ⟨r', hr', hsome', _⟩
        · exact Or.inr (heq.symm.trans hnone)
        · rw [hnone] at hsome'
          cases hsome'

/-- An entry under no reference that has been given back stays what it is. -/
theorem kept (h : GainsEntries k s t) {key : Key}
    (hfree : ∀ r, key = .int r → r ∉ s.givenBack k) {v : Value}
    (hs : (s.registryTable k).find? key = some v) : (t.registryTable k).find? key = some v := by
  rcases h.entry key with heq | ⟨r, hr, _, hmem | hnone⟩
  · exact heq.trans hs
  · exact absurd hmem (hfree r hr)
  · rw [hs] at hnone
    cases hnone

end GainsEntries

instance (k : MachineId) : SeesMemory k (GainsEntries k) where
  same _ _ := GainsEntries.of_same
  trans := GainsEntries.trans

end Session

-- ============================================================ references

namespace Vm

variable {vm : Vm} {b : Nat} {fs : List Nat} {l : List Value} {v : Value}

/-- The reference that a machine hands out next for its registry. -/
def nextRef (vm : Vm) : Int :=
  match vm.machine.free vm.machine.registry with
  | r :: _ => r
  | [] => ((vm.heap.table vm.machine.registry).length : Int) + 1

/-- The machine after a value other than nil has been kept in its registry. -/
def afterRef (vm : Vm) (l : List Value) (v : Value) : Vm where
  heap := vm.heap.setTable vm.machine.registry
    ((vm.heap.table vm.machine.registry).put (.int vm.nextRef) v)
  machine :=
    match vm.machine.free vm.machine.registry with
    | _ :: rest => { vm.machine with slots := l }.setFree vm.machine.registry rest
    | [] => { vm.machine with slots := l }

/-- Nil is kept nowhere. -/
theorem ref_nil (hf : vm.machine.frames = b :: fs) (hs : vm.machine.slots = l ++ [.nil])
    (hb : b ≤ l.length) : ref registryIndex vm = .ok nilRef (vm.withSlots l) := by
  have habs : absIndex registryIndex vm = .ok registryIndex vm := rfl
  unfold ref
  rw [bind_ok habs, bind_ok (tableAt_eq (valueAt?_registry vm)), bind_ok (take_eq hf hs hb)]
  rfl

/-- Any other value is kept under the next reference. -/
theorem ref_apply (vm : Vm) (hf : vm.machine.frames = b :: fs) (hs : vm.machine.slots = l ++ [v])
    (hb : b ≤ l.length) (hv : v ≠ .nil) :
    ref registryIndex vm = .ok vm.nextRef (vm.afterRef l v) := by
  have habs : absIndex registryIndex vm = .ok registryIndex vm := rfl
  unfold ref
  rw [bind_ok habs, bind_ok (tableAt_eq (valueAt?_registry vm)), bind_ok (take_eq hf hs hb),
    if_neg hv]
  unfold nextRef afterRef nextRef
  have hset : ∀ (t : Table) (r : Int), t.set (.int r) v = .ok (t.put (.int r) v) := by
    intro t r
    simp only [Table.set, Value.key, if_neg hv]
  cases hfree : vm.machine.free vm.machine.registry with
  | nil =>
      have hfree' : (vm.withSlots l).machine.free vm.machine.registry = [] := hfree
      simp only [getMachine, getHeap, bind_apply, get_apply, pure_apply, hfree']
      rw [store_eq (hset _ _)]
      rfl
  | cons r rest =>
      have hfree' : (vm.withSlots l).machine.free vm.machine.registry = r :: rest := hfree
      simp only [getMachine, bind_apply, get_apply, pure_apply, hfree', modifyMachine,
        modify_apply]
      rw [store_eq (hset _ _)]
      rfl

@[simp] theorem afterRef_slots (vm : Vm) (l : List Value) (v : Value) :
    (vm.afterRef l v).machine.slots = l := by
  unfold afterRef
  dsimp only
  split <;> rfl

@[simp] theorem afterRef_frames (vm : Vm) (l : List Value) (v : Value) :
    (vm.afterRef l v).machine.frames = vm.machine.frames := by
  unfold afterRef
  dsimp only
  split <;> rfl

@[simp] theorem afterRef_registry (vm : Vm) (l : List Value) (v : Value) :
    (vm.afterRef l v).machine.registry = vm.machine.registry := by
  unfold afterRef
  dsimp only
  split <;> rfl

@[simp] theorem afterRef_closed (vm : Vm) (l : List Value) (v : Value) :
    (vm.afterRef l v).machine.closed = vm.machine.closed := by
  unfold afterRef
  dsimp only
  split <;> rfl

/-- The reference handed out was given back, or is no key yet. -/
theorem nextRef_unused (vm : Vm) :
    vm.nextRef ∈ vm.machine.free vm.machine.registry
      ∨ (vm.heap.table vm.machine.registry).find? (.int vm.nextRef) = none := by
  unfold nextRef
  cases vm.machine.free vm.machine.registry with
  | cons r rest => exact Or.inl (List.mem_cons_self ..)
  | nil =>
      right
      have h := Table.has_length_succ (vm.heap.table vm.machine.registry)
      unfold Table.has at h
      exact Option.not_isSome_iff_eq_none.mp (Bool.eq_false_iff.mp h)

/-- What is given back afterwards was given back before. -/
theorem afterRef_free (vm : Vm) (l : List Value) (v : Value) :
    ∀ r ∈ (vm.afterRef l v).machine.free vm.machine.registry,
      r ∈ vm.machine.free vm.machine.registry := by
  intro r hr
  unfold afterRef at hr
  dsimp only at hr
  split at hr
  case h_1 r' rest hfree =>
    rw [hfree]
    have hrest : r ∈ rest := by
      simpa [Machine.free, Machine.setFree] using hr
    exact List.mem_cons_of_mem r' hrest
  case h_2 hfree =>
    exact hr

end Vm

-- =============================================================== wrapping

namespace Session

variable {s s₀ : Session} {k : MachineId} {l : List Value} {v : Value}

theorem afterRef_gains (hk : k < s.machines.size) (l : List Value) (v : Value) :
    GainsEntries k s (s.withVm k ((s.vm k).afterRef l v)) := by
  have hm := withVm_machine hk ((s.vm k).afterRef l v)
  have hreg : ((s.withVm k ((s.vm k).afterRef l v)).machine k).registry
      = (s.machine k).registry := by
    rw [hm]
    exact Vm.afterRef_registry ..
  refine ⟨Heap.setTable_size .., hreg, ?_, ?_, ?_⟩
  · intro id hid
    exact Heap.table_setTable_ne (Ne.symm hid) _
  · intro key
    have htable : (s.withVm k ((s.vm k).afterRef l v)).registryTable k
        = (s.heap.setTable (s.machine k).registry
            ((s.registryTable k).put (.int (s.vm k).nextRef) v)).table (s.machine k).registry := by
      unfold registryTable
      rw [hreg]
      rfl
    rw [htable]
    by_cases hsize : (s.machine k).registry < s.heap.tables.size
    · rw [Heap.table_setTable hsize, Table.find?_put]
      by_cases hkey : key = .int (s.vm k).nextRef
      · rw [if_pos hkey]
        exact Or.inr ⟨_, hkey, rfl, by rw [hkey]; exact (s.vm k).nextRef_unused⟩
      · rw [if_neg hkey]
        exact Or.inl rfl
    · rw [Heap.setTable_none hsize]
      exact Or.inl rfl
  · intro r hr
    unfold givenBack at hr
    rw [hreg, hm] at hr
    exact Vm.afterRef_free _ _ _ r hr

/-- Keeping the top in the registry takes it from the stack. -/
theorem ref_ends (h : Leaves (GainsEntries k) k [v] s₀ s) (hk : k < s₀.machines.size)
    (hl : (s₀.machine k).Live) :
    ∃ r t, onMachine k (Vm.ref registryIndex) s = .ok r t
      ∧ Leaves (GainsEntries k) k [] s₀ t := by
  obtain ⟨hopen, b, fs, hf, hb⟩ := hl
  have hks : k < s.machines.size := by rw [h.size]; exact hk
  have hf' : (s.vm k).machine.frames = b :: fs := h.frames.trans hf
  by_cases hv : v = .nil
  · subst hv
    have hleft := h.withSlots hk []
    rw [List.append_nil] at hleft
    exact ⟨_, _, onMachine_ok (Vm.ref_nil hf' h.slots hb), hleft⟩
  · refine ⟨_, _, onMachine_ok (Vm.ref_apply _ hf' h.slots hb hv), ?_⟩
    have hm := withVm_machine hks ((s.vm k).afterRef (s₀.machine k).slots v)
    refine ⟨?_, ?_, ?_, ?_, ?_, h.rest.trans (afterRef_gains hks _ v)⟩
    · rw [hm, Vm.afterRef_slots, List.append_nil]
    · rw [hm, Vm.afterRef_frames]
      exact h.frames
    · rw [hm, Vm.afterRef_registry]
      exact h.registry
    · rw [hm, Vm.afterRef_closed]
      exact h.closed
    · rw [withVm_size]
      exact h.size

/-- A copy of a slot comes on top, or nothing if there is none. -/
theorem addsOne_pushCopy {R : Session → Session → Prop} [SeesMemory k R] {stop : Stop → Prop}
    [Fails stop] (index : Int) : AddsOne R stop k (onMachine k (Vm.pushCopy index)) := by
  intro s hk _
  have hlook := (Vm.looks_valueAt? index).ends (s.vm k)
  cases hr : Vm.valueAt? index (s.vm k) with
  | error f vm =>
      rw [hr] at hlook
      obtain rfl : vm = s.vm k := hlook
      have hcopy : Vm.pushCopy index (s.vm k) = .error f (s.vm k) := bind_error hr
      rw [onMachine_error hcopy, withVm_vm]
      exact ⟨Fails.failed f, Leaves.refl s⟩
  | ok v vm =>
      rw [hr] at hlook
      obtain rfl : vm = s.vm k := hlook
      cases v with
      | none =>
          have hcopy : Vm.pushCopy index (s.vm k)
              = .error (.misuse (.invalidIndex index)) (s.vm k) := bind_ok hr
          rw [onMachine_error hcopy, withVm_vm]
          exact ⟨Fails.failed _, Leaves.refl s⟩
      | some v =>
          have hcopy : Vm.pushCopy index (s.vm k)
              = .ok () ((s.vm k).withSlots ((s.machine k).slots ++ [v])) := bind_ok hr
          rw [onMachine_ok hcopy]
          exact ⟨v, push_leaves hk v⟩

/-- Wrapping a slot leaves the stack as it was. -/
theorem idle_wrap {stop : Stop → Prop} [Fails stop] (index : Int) :
    Idle (GainsEntries k) stop k (Bridge.wrap k index) := by
  intro s hk hl
  refine (addsOne_pushCopy index s hk hl).bind ?_
  rintro _ t ⟨v, ht⟩
  obtain ⟨r, u, hu, hleft⟩ := ref_ends ht hk hl
  rw [bind_ok hu]
  have hnoted : Leaves (GainsEntries k) k [] u
      { u with wrappers := u.wrappers.push ⟨k, .ofRef r⟩ } := Leaves.same rfl rfl rfl rfl rfl
  exact hleft.trans hnoted

end Session

end StackBridge
