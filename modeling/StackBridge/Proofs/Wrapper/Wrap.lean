import StackBridge.Proofs.Wrapper.Registered
import StackBridge.Proofs.Wrapper.Tracked

/-!
Wrapping one value after the other. A value that is wrapped is kept under a
reference that was given back or that nothing was kept under, so no earlier
wrapper loses its value as long as references that have been given back are not
in use (`Tidy`); and that they are not stays so, because each is handed out once
(`Collects`).
-/

namespace StackBridge

namespace Session

variable {k : MachineId} {s t u : Session} {w : Value} {index : Int}

/-- No reference of a machine's registry has been given back twice, and none that
has been given back is in use. -/
structure Tidy (k : MachineId) (s : Session) : Prop where
  distinct : (s.givenBack k).Nodup
  unused : ∀ r ∈ s.givenBack k, (s.registryTable k).find? (.int r) = none

/-- Entries have come into the registry of a machine, and wrappers for them. -/
structure Collects (k : MachineId) (s t : Session) : Prop where
  gains : GainsEntries k s t
  encoding : t.encoding = s.encoding
  functions : t.heap.functions = s.heap.functions
  wrappers : s.wrappers.size ≤ t.wrappers.size
  wrapper : ∀ id < s.wrappers.size, t.wrapper id = s.wrapper id
  registered : (s.machine k).Registered s.heap.tables.size →
    (t.machine k).Registered t.heap.tables.size
  tidy : s.Tidy k → t.Tidy k

namespace Collects

/-- Nothing of that has changed. -/
theorem of_same (hheap : t.heap = s.heap)
    (hregistry : (t.machine k).registry = (s.machine k).registry)
    (hfree : (t.machine k).freeRefs = (s.machine k).freeRefs) (hencoding : t.encoding = s.encoding)
    (hwrappers : t.wrappers = s.wrappers) : Collects k s t where
  gains := .of_same hheap hregistry hfree
  encoding := hencoding
  functions := by rw [hheap]
  wrappers := by rw [hwrappers]
  wrapper id _ := by
    unfold Session.wrapper
    rw [hwrappers]
  registered h := h.of_same (Nat.le_of_eq (by rw [hheap])) hregistry hfree
  tidy h := by
    have hgiven : t.givenBack k = s.givenBack k := by
      unfold givenBack Machine.free
      rw [hregistry, hfree]
    have htable : t.registryTable k = s.registryTable k := by
      unfold registryTable
      rw [hregistry, hheap]
    exact ⟨hgiven ▸ h.distinct, by rw [hgiven, htable]; exact h.unused⟩

theorem refl (k : MachineId) (s : Session) : Collects k s s := of_same rfl rfl rfl rfl rfl

theorem slots (s : Session) (k : MachineId) (l : List Value) : Collects k s (s.withSlots k l) := by
  by_cases hk : k < s.machines.size
  · refine of_same rfl ?_ ?_ rfl rfl <;> rw [withSlots_machine hk]
  · refine of_same rfl ?_ ?_ rfl rfl <;> rw [withSlots_machine_none hk]

theorem trans (h : Collects k s t) (h' : Collects k t u) : Collects k s u where
  gains := h.gains.trans h'.gains
  encoding := h'.encoding.trans h.encoding
  functions := h'.functions.trans h.functions
  wrappers := Nat.le_trans h.wrappers h'.wrappers
  wrapper id hid := (h'.wrapper id (Nat.lt_of_lt_of_le hid h.wrappers)).trans (h.wrapper id hid)
  registered hs := h'.registered (h.registered hs)
  tidy hs := h'.tidy (h.tidy hs)

/-- Where references are tidy, what is kept is kept on. -/
theorem kept (h : Collects k s t) (hs : s.Tidy k) {key : Key}
    (hkey : (s.registryTable k).find? key = some w) : (t.registryTable k).find? key = some w := by
  refine h.gains.kept (fun r hr hmem => ?_) hkey
  rw [hr, hs.unused r hmem] at hkey
  cases hkey

end Collects

-- ================================================================ wrapping

/-- A new reference is one of an entry. -/
theorem nextRef_nonneg (vm : Vm) {tables : Nat} (h : vm.machine.Registered tables) :
    0 ≤ vm.nextRef := by
  unfold Vm.nextRef
  split
  · rename_i r rest hfree
    exact h.free _ r (by rw [hfree]; exact List.mem_cons_self ..)
  · omega

theorem afterRef_registered (vm : Vm) (l : List Value) (v : Value)
    (h : vm.machine.Registered vm.heap.tables.size) :
    (vm.afterRef l v).machine.Registered (vm.afterRef l v).heap.tables.size := by
  have hsize : (vm.afterRef l v).heap.tables.size = vm.heap.tables.size :=
    Heap.setTable_size ..
  rw [hsize]
  unfold Vm.afterRef
  dsimp only
  split
  case h_1 r rest hfree =>
    have hslots : ({ vm.machine with slots := l } : Machine).Registered vm.heap.tables.size :=
      h.of_same (Nat.le_refl _) rfl rfl
    refine hslots.setFree _ fun r' hr' => h.free vm.machine.registry r' ?_
    rw [hfree]
    exact List.mem_cons_of_mem r hr'
  case h_2 => exact h.of_same (Nat.le_refl _) rfl rfl

/-- The references that are given back after one has been handed out. -/
theorem afterRef_givenBack (vm : Vm) (l : List Value) (v : Value) :
    (vm.afterRef l v).machine.free (vm.afterRef l v).machine.registry
      = (vm.machine.free vm.machine.registry).tail := by
  rw [Vm.afterRef_registry]
  unfold Vm.afterRef
  cases hfree : vm.machine.free vm.machine.registry with
  | nil => exact hfree
  | cons r rest => simp [Machine.free, Machine.setFree]

/-- A session in which a value has been kept and wrapped. -/
def withWrapped (s : Session) (k : MachineId) (w : Value) : Session :=
  { s.withVm k ((s.vm k).afterRef (s.machine k).slots w) with
    wrappers := s.wrappers.push ⟨k, .ofRef (s.vm k).nextRef⟩ }

/-- The new wrapper holds on to an entry, under which the value is kept. -/
theorem collects_withWrapped (hk : k < s.machines.size)
    (hreg : (s.machine k).Registered s.heap.tables.size) (w : Value) :
    Collects k s (s.withWrapped k w)
      ∧ (s.withWrapped k w).wrapper s.wrappers.size = ⟨k, .entry (s.vm k).nextRef⟩
      ∧ ((s.withWrapped k w).registryTable k).find? (.int (s.vm k).nextRef) = some w := by
  have hanchor : Anchor.ofRef (s.vm k).nextRef = .entry (s.vm k).nextRef := by
    have hnonneg := nextRef_nonneg (s.vm k) hreg
    unfold Anchor.ofRef Vm.nilRef
    rw [if_neg (by omega)]
  have hmachine : (s.withWrapped k w).machine k = ((s.vm k).afterRef (s.machine k).slots w).machine :=
    withVm_machine hk _
  have hwrapper : ∀ id, (s.withWrapped k w).wrapper id
      = if id = s.wrappers.size then ⟨k, .ofRef (s.vm k).nextRef⟩ else s.wrapper id :=
    fun id => wrapper_push (s.withVm k _) _ id
  have hregistry : (s.withWrapped k w).registryTable k
      = (s.registryTable k).put (.int (s.vm k).nextRef) w := by
    unfold registryTable
    rw [hmachine, Vm.afterRef_registry]
    exact Heap.table_setTable hreg.registry _
  have hgiven : (s.withWrapped k w).givenBack k = (s.givenBack k).tail := by
    unfold givenBack
    rw [hmachine]
    exact afterRef_givenBack _ _ _
  have hgains : GainsEntries k s (s.withWrapped k w) :=
    (afterRef_gains hk (s.machine k).slots w).trans (.of_same rfl rfl rfl)
  refine ⟨⟨hgains, rfl, rfl, ?_, ?_, fun _ => ?_, fun hs => ?_⟩, ?_, ?_⟩
  · show s.wrappers.size ≤ (s.wrappers.push _).size
    rw [Array.size_push]
    exact Nat.le_succ _
  · intro id hid
    rw [hwrapper, if_neg (Nat.ne_of_lt hid)]
  · rw [hmachine]
    exact afterRef_registered (s.vm k) _ w hreg
  · constructor
    · rw [hgiven]
      exact hs.distinct.tail
    · intro r hr
      rw [hgiven] at hr
      have hmem := List.mem_of_mem_tail hr
      -- the reference handed out is not given back any more
      have hne : Key.int r ≠ .int (s.vm k).nextRef := by
        intro heq
        cases hfree : s.givenBack k with
        | nil =>
            rw [hfree] at hr
            cases hr
        | cons r' rest =>
            have hnext : (s.vm k).nextRef = r' := by
              unfold Vm.nextRef
              rw [show (s.vm k).machine.free (s.vm k).machine.registry = r' :: rest from hfree]
            have hdistinct := hs.distinct
            rw [hfree] at hr hdistinct
            rw [Key.int.inj heq, hnext] at hr
            exact (List.nodup_cons.mp hdistinct).1 hr
      rw [hregistry, Table.find?_put, if_neg hne]
      exact hs.unused r hmem
  · rw [hwrapper, if_pos rfl, hanchor]
  · rw [hregistry, Table.find?_put, if_pos rfl]

end Session

namespace Bridge

open Session

variable {k : MachineId} {s : Session} {w : Value} {index : Int}

/-- Wrapping a value other than nil keeps it in the registry. -/
theorem wrap_ok (hk : k < s.machines.size) (hl : (s.machine k).Live)
    (hat : Vm.valueAt? index (s.vm k) = .ok (some w) (s.vm k)) (hw : w ≠ .nil) :
    wrap k index s = .ok s.wrappers.size (s.withWrapped k w) := by
  obtain ⟨_, b, fs, hf, hb⟩ := hl
  have hcopy : onMachine k (Vm.pushCopy index) s
      = .ok () (s.withSlots k ((s.machine k).slots ++ [w])) :=
    onMachine_ok (bind_ok hat)
  have hvm : (s.withSlots k ((s.machine k).slots ++ [w])).vm k
      = (s.vm k).withSlots ((s.machine k).slots ++ [w]) := vm_withVm hk _
  have href : Vm.ref registryIndex ((s.vm k).withSlots ((s.machine k).slots ++ [w]))
      = .ok (s.vm k).nextRef ((s.vm k).afterRef (s.machine k).slots w) :=
    Vm.ref_apply ((s.vm k).withSlots _) hf rfl hb hw
  unfold wrap
  rw [bind_ok hcopy, bind_ok (onMachine_ok (by rw [hvm]; exact href)), withSlots, withVm_withVm]
  rfl

/-- The new wrapper is the next one, it holds on to an entry, and nothing comes
on the stack. -/
theorem wrap_collects (hk : k < s.machines.size) (hl : (s.machine k).Live)
    (hreg : (s.machine k).Registered s.heap.tables.size)
    (hat : Vm.valueAt? index (s.vm k) = .ok (some w) (s.vm k)) (hw : w ≠ .nil) :
    ∃ t r, wrap k index s = .ok s.wrappers.size t ∧ t.wrapper s.wrappers.size = ⟨k, .entry r⟩
      ∧ (t.registryTable k).find? (.int r) = some w ∧ Leaves (GainsEntries k) k [] s t
      ∧ Collects k s t := by
  have hwrap := wrap_ok hk hl hat hw
  have hleaves : Leaves (GainsEntries k) k [] s (s.withWrapped k w) := by
    have hidle : Idle (GainsEntries k) (fun _ => True) k (wrap k index) := idle_wrap index
    have h := hidle s hk hl
    rw [hwrap] at h
    exact h
  obtain ⟨hcollects, hheld, hkept⟩ := collects_withWrapped hk hreg w
  exact ⟨s.withWrapped k w, _, hwrap, hheld, hkept, hleaves, hcollects⟩

end Bridge

end StackBridge
