import StackBridge.Proofs.Session.Kept

/-!
Sessions whose machines keep to their running frames. `Confined` is what an
operation may do to a session, `Within` what holds at any moment on the way.
Writing to a table is none of the frames' concern, so all that is left to be
said of the parts of operations is what the primitives do.
-/

namespace StackBridge

namespace Session

variable {s t u : Session} {k : MachineId} {α β : Type}

-- ============================================================== the relations

/-- Every machine is confined to its running frame. -/
structure Confined (s t : Session) : Prop where
  size : t.machines.size = s.machines.size
  machine : ∀ k, (s.machine k).Confines (t.machine k)

/-- Every machine has its frames still, perhaps under further ones. -/
structure Within (s t : Session) : Prop where
  size : t.machines.size = s.machines.size
  machine : ∀ k, (s.machine k).Within (t.machine k)

instance : Std.Refl Confined := ⟨fun _ => ⟨rfl, fun _ => Machine.Confines.refl _⟩⟩

instance : IsTrans Session Confined :=
  ⟨fun _ _ _ h h' => ⟨h'.size.trans h.size, fun k => (h.machine k).trans (h'.machine k)⟩⟩

theorem Confined.trans (h : Confined s t) (h' : Confined t u) : Confined s u :=
  IsTrans.trans _ _ _ h h'

theorem Confined.within (h : Confined s t) : Within s t :=
  ⟨h.size, fun k => (h.machine k).within⟩

theorem Within.trans (h : Within s t) (h' : Within t u) : Within s u :=
  ⟨h'.size.trans h.size, fun k => (h.machine k).trans (h'.machine k)⟩

theorem Confined.of_machines (h : t.machines = s.machines) : Confined s t where
  size := by rw [h]
  machine k := by
    unfold Session.machine
    rw [h]
    exact Machine.Confines.refl _

/-- One machine is put back, confined like the others. -/
theorem Confined.withVm (h : Confined s t) {vm : Vm} (hvm : (s.machine k).Confines vm.machine) :
    Confined s (t.withVm k vm) where
  size := (withVm_size t k vm).trans h.size
  machine j := by
    by_cases hjk : k = j
    · subst hjk
      by_cases hk : k < t.machines.size
      · rw [withVm_machine hk]
        exact hvm
      · rw [withVm_machine_none hk]
        exact h.machine k
    · rw [withVm_machine_ne hjk]
      exact h.machine j

theorem keeps_onMachine {a : Vm.Action α} (ha : Vm.Confined a) :
    Keeps Confined (onMachine k a) := by
  intro s
  rw [onMachine_final]
  exact Confined.withVm (Std.Refl.refl s) (ha.keeps (s.vm k))

instance : Writes Confined where
  unseen _ hmachines _ _ := Confined.of_machines hmachines
  steady _ ha := keeps_onMachine ha.confined
  pushTable _ := keeps_onMachine Vm.confined_pushTable
  close _ := keeps_onMachine Vm.confined_close
  rewrapped _ hmachines _ := Confined.of_machines hmachines
  rawSet _ index := keeps_onMachine (Vm.confined_rawSet index)
  setKey _ index key := keeps_onMachine (Vm.confined_setKey index key)
  ref _ index := keeps_onMachine (Vm.confined_ref index)
  unref _ index r := keeps_onMachine (Vm.confined_unref index r)

instance (ctx : Context) : Describes ctx Confined :=
  describes_of_blind ctx fun _ hmachines _ => Confined.of_machines hmachines

/-- Keeps to the frames if what runs its blocks does, and runs blocks only
within the frames of the state that it began in. -/
abbrev Contained (F : (BlockId → Action Unit) → Action α) : Prop := Passes Within Confined F

end Session

end StackBridge
