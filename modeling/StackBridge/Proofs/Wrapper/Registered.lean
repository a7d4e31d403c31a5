import StackBridge.Proofs.Session.Reachable

/-!
Registries wherever a program comes to: each machine's is a table of the heap,
and no reference that has been given back is negative (`Reachable.registered`),
so that a new reference stands for an entry.
-/

namespace StackBridge

/-- The registry is one of the first tables, and the references given back are
those of entries. -/
structure Machine.Registered (tables : Nat) (m : Machine) : Prop where
  registry : m.registry < tables
  refs : ∀ p ∈ m.freeRefs, ∀ r ∈ p.2, 0 ≤ r

theorem Machine.Registered.free {tables : Nat} {m : Machine} (h : m.Registered tables)
    (id : TableId) : ∀ r ∈ m.free id, 0 ≤ r := by
  intro r hr
  unfold Machine.free at hr
  cases hfind : m.freeRefs.find? (·.1 == id) with
  | none =>
      rw [hfind] at hr
      cases hr
  | some p =>
      rw [hfind] at hr
      exact h.refs p (List.mem_of_find?_eq_some hfind) r hr

theorem Machine.Registered.setFree {tables : Nat} {m : Machine} (h : m.Registered tables)
    (id : TableId) {refs : List Int} (hrefs : ∀ r ∈ refs, 0 ≤ r) :
    (m.setFree id refs).Registered tables where
  registry := h.registry
  refs p hp := by
    rcases List.mem_cons.mp hp with rfl | hmem
    · exact hrefs
    · exact h.refs p (List.mem_filter.mp hmem).1

theorem Machine.Registered.of_same {tables tables' : Nat} {m m' : Machine}
    (h : m.Registered tables) (htables : tables ≤ tables') (hr : m'.registry = m.registry)
    (hf : m'.freeRefs = m.freeRefs) : m'.Registered tables' where
  registry := by
    rw [hr]
    exact Nat.lt_of_lt_of_le h.registry htables
  refs := by
    rw [hf]
    exact h.refs

-- ============================================================== one machine

namespace Vm

/-- Tables are added only, and a machine stays registered. -/
structure Registers (vm vm' : Vm) : Prop where
  tables : vm.heap.tables.size ≤ vm'.heap.tables.size
  machine : vm.machine.Registered vm.heap.tables.size →
    vm'.machine.Registered vm'.heap.tables.size

instance : Std.Refl Registers := ⟨fun _ => ⟨Nat.le_refl _, id⟩⟩

instance : IsTrans Vm Registers :=
  ⟨fun _ _ _ h h' => ⟨Nat.le_trans h.tables h'.tables, fun hm => h'.machine (h.machine hm)⟩⟩

variable {α : Type} {vm : Vm}

theorem registers_steady {a : Action α} (ha : Steady a) : Keeps Registers a :=
  ha.keeps.mono fun vm vm' h => by
    have hsize : vm.heap.tables.size ≤ vm'.heap.tables.size := by rw [h.tables]
    exact ⟨hsize, fun hm => hm.of_same hsize h.registry h.freeRefs⟩

theorem registers_looks {a : Action α} (ha : Looks a) : Keeps Registers a := ha.keeps

theorem registers_store (id : TableId) (k v : Value) : Keeps Registers (store id k v) := by
  intro vm
  unfold store
  rw [bind_apply]
  simp only [getHeap, bind_apply, get_apply, pure_apply]
  cases (vm.heap.table id).set k v with
  | error f => exact Std.Refl.refl vm
  | ok t =>
      have hsize : vm.heap.tables.size ≤ (vm.heap.setTable id t).tables.size := by
        rw [Heap.setTable_size]
      exact ⟨hsize, fun hm => hm.of_same hsize rfl rfl⟩

theorem registers_rawSet (index : Int) : Keeps Registers (rawSet index) :=
  (registers_looks (looks_tableAt index)).bind fun id =>
    (registers_steady steady_take).bind fun v =>
      (registers_steady steady_take).bind fun k => registers_store id k v

theorem registers_setKey (index : Int) (k : Value) : Keeps Registers (setKey index k) :=
  (registers_looks (looks_tableAt index)).bind fun id =>
    (registers_steady steady_take).bind fun v => registers_store id k v

/-- A machine of which some references are given out or given back. -/
theorem registers_setFree (id : TableId) {refs : List Int}
    (h : vm.machine.Registered vm.heap.tables.size → ∀ r ∈ refs, 0 ≤ r) :
    Registers vm { vm with machine := vm.machine.setFree id refs } :=
  ⟨Nat.le_refl _, fun hm => hm.setFree id (h hm)⟩

theorem registers_ref (index : Int) : Keeps Registers (ref index) := by
  refine (registers_looks (looks_absIndex index)).bind fun index => ?_
  refine (registers_looks (looks_tableAt index)).bind fun id =>
    (registers_steady steady_take).bind fun v => ?_
  split
  · exact registers_looks (looks_pure _)
  · intro vm
    simp only [getMachine, bind_apply, get_apply, pure_apply]
    have hstore : ∀ r : Int, Keeps Registers (do store id (.int r) v; return r) := fun r =>
      (registers_store _ _ _).bind fun _ => registers_looks (looks_pure _)
    cases hfree : vm.machine.free id with
    | nil => exact hstore _ vm
    | cons r rest =>
        -- what is left of the references are some of them
        refine IsTrans.trans _ _ _ (registers_setFree id fun hm r' hr' => ?_) (hstore r _)
        exact hm.free id r' (by rw [hfree]; exact List.mem_cons_of_mem _ hr')

theorem registers_unref (index r : Int) : Keeps Registers (unref index r) := by
  unfold unref
  split
  · exact registers_looks (looks_pure _)
  · rename_i hr
    refine (registers_looks (looks_tableAt index)).bind fun id =>
      (registers_store _ _ _).bind fun _ vm => registers_setFree id fun hm r' hr' => ?_
    rcases List.mem_cons.mp hr' with rfl | hmem
    · omega
    · exact hm.free id r' hmem

theorem registers_close : Keeps Registers close := by
  intro vm
  have hsize : (vm.heap.tables.push .empty).size = vm.heap.tables.size + 1 := Array.size_push ..
  refine ⟨?_, fun _ => ⟨?_, fun p hp => nomatch hp⟩⟩
  · show vm.heap.tables.size ≤ (vm.heap.tables.push .empty).size
    omega
  · show vm.heap.tables.size < (vm.heap.tables.push .empty).size
    omega

theorem registers_pushTable : Keeps Registers pushTable := by
  intro vm
  have hsize : vm.heap.tables.size ≤ (vm.heap.tables.push .empty).size := by
    rw [Array.size_push]
    omega
  exact ⟨hsize, fun hm => hm.of_same hsize rfl rfl⟩

end Vm

-- ================================================================= sessions

namespace Session

variable {ctx : Context} {s t : Session} {k : MachineId}

/-- Every machine is registered. -/
def Registered (s : Session) : Prop :=
  ∀ k < s.machines.size, (s.machine k).Registered s.heap.tables.size

/-- From a session with its machines registered comes another one. -/
def StaysRegistered (s t : Session) : Prop := s.Registered → t.Registered

theorem Registered.of_same (h : s.Registered) (hheap : t.heap = s.heap)
    (hmachines : t.machines = s.machines) : t.Registered := by
  intro k hk
  have hm := h k (by rw [← hmachines]; exact hk)
  unfold Session.machine at hm ⊢
  rw [hmachines, hheap]
  exact hm

/-- One machine is put back with the heap. -/
theorem Registered.withVm (h : s.Registered) {vm : Vm} (hvm : Vm.Registers (s.vm k) vm) :
    (s.withVm k vm).Registered := by
  intro j hj
  rw [withVm_size] at hj
  by_cases hjk : k = j
  · subst hjk
    rw [withVm_machine hj]
    exact hvm.machine (h k hj)
  · rw [withVm_machine_ne hjk]
    exact (h j hj).of_same hvm.tables rfl rfl

theorem registers_onMachine {α : Type} {a : Vm.Action α} (k : MachineId)
    (ha : Keeps Vm.Registers a) : Keeps StaysRegistered (onMachine k a) := by
  intro s hs
  rw [onMachine_final]
  exact hs.withVm (ha (s.vm k))

instance : Calm StaysRegistered where
  refl _ := id
  trans _ _ _ h h' := h' ∘ h
  unseen hheap hmachines _ _ h := h.of_same hheap hmachines

instance : Writes StaysRegistered where
  steady k ha := registers_onMachine k (Vm.registers_steady ha)
  pushTable k := registers_onMachine k Vm.registers_pushTable
  close k := registers_onMachine k Vm.registers_close
  rewrapped hheap hmachines _ h := h.of_same hheap hmachines
  rawSet k index := registers_onMachine k (Vm.registers_rawSet index)
  setKey k index key := registers_onMachine k (Vm.registers_setKey index key)
  ref k index := registers_onMachine k (Vm.registers_ref index)
  unref k index r := registers_onMachine k (Vm.registers_unref index r)

instance : Describes ctx StaysRegistered :=
  describes_of_blind ctx fun hheap hmachines _ h => h.of_same hheap hmachines

instance : FrameBlind StaysRegistered where
  shuffled _ _ _ _ h := h.withVm ⟨Nat.le_refl _, fun hm => hm.of_same (Nat.le_refl _) rfl rfl⟩

theorem Registered.addMachine (h : s.Registered) : s.addMachine.Registered := by
  intro k hk
  have hsize : s.addMachine.heap.tables.size = s.heap.tables.size + 1 := Array.size_push ..
  rw [hsize]
  by_cases hlast : k = s.machines.size
  · have hmachine : s.addMachine.machine k = .fresh s.heap.tables.size := by
      simp [Session.addMachine, Session.machine, hlast, Array.getD_eq_getD_getElem?,
        Heap.newTable]
    rw [hmachine]
    exact ⟨Nat.lt_succ_self _, fun p hp => absurd hp List.not_mem_nil⟩
  · have hmachine : s.addMachine.machine k = s.machine k := by
      simp [Session.addMachine, Session.machine, Array.getD_eq_getD_getElem?,
        Array.getElem?_push, hlast]
    have hk' : k < s.machines.size + 1 := Nat.lt_of_lt_of_eq hk (Array.size_push ..)
    rw [hmachine]
    exact (h k (by omega)).of_same (Nat.le_succ _) rfl rfl

/-- A session begins with each machine on a registry of its own. -/
theorem start_registered (machines : Nat) (checks : Bool) :
    (Session.start machines checks).Registered := by
  induction machines with
  | zero => exact fun k hk => absurd hk (Nat.not_lt_zero k)
  | succ n ih =>
      rw [start_succ]
      exact ih.addMachine

theorem Reachable.registered (hs : Reachable ctx s) : s.Registered :=
  hs.kept StaysRegistered (start_registered _ _)

end Session

end StackBridge
