import StackBridge.Bridge.Read
import StackBridge.Proofs.Machine.Answered
import StackBridge.Proofs.Read.Gains
import StackBridge.Proofs.Session.Answered
import StackBridge.Proofs.Session.WellKept

/-!
Reads that have answered. A read may be asked of any machine, also of one that
has been closed, but where it has answered each of its steps has, and nothing
more is needed for the stack to be as it was (`Returns`).

`Grows` is what such a read does to the heap. It adds to `GainsEntries` that the
keys of the registry stay in order, so that a traversal of the registry gets
past the references that it hands out on its way.
-/

namespace StackBridge

-- ============================================================== categories

namespace Bridge

theorem eq_nil_of_category {v : Value} (h : v.category? = some .nil) : v = .nil := by
  cases v with
  | nil => rfl
  | guest id role => cases role <;> cases h
  | _ => cases h

theorem table_of_category {v : Value} (h : v.category? = some .table) : ∃ id, v = .table id := by
  cases v with
  | table id => exact ⟨id, rfl⟩
  | guest id role => cases role <;> cases h
  | _ => cases h

end Bridge

-- ================================================================= growing

namespace Session

variable {α β : Type} {s s₀ t u : Session} {k : MachineId} {xs : List Value}

/-- The registry has gained entries, and those that it had stay in order. -/
structure Grows (k : MachineId) (s t : Session) : Prop extends GainsEntries k s t where
  wellKept : s.heap.WellKept → t.heap.WellKept
  live : (s.registryTable k).live.Sublist (t.registryTable k).live

namespace Grows

theorem of_same (hh : t.heap = s.heap) (hr : (t.machine k).registry = (s.machine k).registry)
    (hf : (t.machine k).freeRefs = (s.machine k).freeRefs) : Grows k s t where
  toGainsEntries := .of_same hh hr hf
  wellKept hw := by
    rw [hh]
    exact hw
  live := by
    unfold registryTable
    rw [hh, hr]

theorem trans (h : Grows k s t) (h' : Grows k t u) : Grows k s u where
  toGainsEntries := h.toGainsEntries.trans h'.toGainsEntries
  wellKept hw := h'.wellKept (h.wellKept hw)
  live := h.live.trans h'.live

/-- In every table the keys stay in order. -/
theorem liveTable (h : Grows k s t) (id : TableId) :
    (s.heap.table id).live.Sublist (t.heap.table id).live := by
  by_cases hid : id = (s.machine k).registry
  · subst hid
    have hlive := h.live
    unfold registryTable at hlive
    rw [h.registry] at hlive
    exact hlive
  · rw [h.table id hid]

end Grows

instance (k : MachineId) : SeesMemory k (Grows k) where
  same _ _ := Grows.of_same
  trans := Grows.trans

/-- Nothing but `xs` has come on top, and the registry may have grown. -/
abbrev Gathers (k : MachineId) : List Value → Session → Session → Prop := Leaves (Grows k) k

theorem afterRef_grows (hk : k < s.machines.size) (l : List Value) (v : Value) :
    Grows k s (s.withVm k ((s.vm k).afterRef l v)) where
  toGainsEntries := afterRef_gains hk l v
  wellKept hw := by
    have hreg : ((s.vm k).heap.table (s.vm k).machine.registry).WellKept := hw _
    exact Heap.Throughout.setTable hw (hreg.put rfl v)
  live := by
    have hsame : ((s.withVm k ((s.vm k).afterRef l v)).machine k).registry
        = (s.machine k).registry := by
      rw [withVm_machine hk]
      exact Vm.afterRef_registry ..
    unfold registryTable
    rw [hsame]
    show List.Sublist _ ((s.heap.setTable (s.machine k).registry
      ((s.registryTable k).put (.int (s.vm k).nextRef) v)).table (s.machine k).registry).live
    by_cases hsize : (s.machine k).registry < s.heap.tables.size
    · rw [Heap.table_setTable hsize]
      exact Table.live_sublist_put ..
    · rw [Heap.setTable_none hsize]

-- ================================================================= returning

/-- An action that leaves the stack as it was, if it answers. -/
def Returns (k : MachineId) (a : Action α) : Prop :=
  ∀ s x t, k < s.machines.size → a s = .ok x t → Gathers k [] s t

theorem Returns.bind {a : Action α} {f : α → Action β} (ha : Returns k a)
    (hf : ∀ x, Returns k (f x)) : Returns k (a >>= f) := by
  intro s y u hk h
  obtain ⟨x, t, hx, hy⟩ := bind_answered h
  have ht := ha s x t hk hx
  exact ht.trans (hf x t y u (by rw [ht.size]; exact hk) hy)

/-- An action that leaves its session as it is. -/
theorem returns_same {a : Action α} (ha : ∀ s x t, a s = .ok x t → t = s) : Returns k a := by
  intro s x t _ h
  obtain rfl := ha s x t h
  exact Leaves.refl t

theorem returns_pure (x : α) : Returns k (pure x : Action α) :=
  returns_same fun _ _ _ h => by cases h; rfl

theorem returns_look {a : Vm.Action α} (ha : Vm.Looks a) : Returns k (onMachine k a) :=
  returns_same fun _ _ _ h => (looked_onMachine ha h).1

theorem returns_ofHost (r : Except HostFault α) : Returns k (ofHost r) := by
  cases r with
  | ok x => exact returns_pure x
  | error f => exact returns_same fun _ _ _ h => by cases h

theorem returns_decodeText (b : Bytes) : Returns k (decodeText b) := by
  refine returns_same fun s x t h => ?_
  unfold decodeText at h
  rw [bind_ok (get_apply s)] at h
  cases hd : s.encoding.decode b with
  | ok text =>
      rw [hd] at h
      cases h
      rfl
  | error f =>
      rw [hd] at h
      cases h

theorem returns_nextIndividual : Returns k nextIndividual := by
  intro s x t _ h
  cases h
  exact Leaves.same rfl rfl rfl rfl rfl

theorem returns_individual (v : HostValue) : Returns k (individual v) := by
  have hfloat : ∀ x : Double, Returns k (individualFloat x) := by
    intro x
    unfold individualFloat
    split
    · exact returns_nextIndividual.bind fun _ => returns_pure _
    · exact returns_pure _
  unfold individual
  split
  · exact (hfloat _).bind fun _ => returns_pure _
  · exact returns_nextIndividual.bind fun _ => returns_pure _
  · exact returns_nextIndividual.bind fun _ => returns_pure _
  · exact returns_pure _

/-- Wrapping a slot that there is hands out a reference. -/
theorem returns_wrap (index : Int) : Returns k (Bridge.wrap k index) := by
  intro s x u hk h
  unfold Bridge.wrap at h
  obtain ⟨_, t, hcopy, h⟩ := bind_answered h
  obtain ⟨r, t', href, h⟩ := bind_answered h
  cases h
  have hlook : Vm.Looks (Vm.valueAt? index) := Vm.looks_valueAt? index
  have hpushed : ∃ v, Gathers k [v] s t := by
    obtain ⟨vm, hvm⟩ := onMachine_answered hcopy
    have hvm' := hvm
    unfold Vm.pushCopy at hvm'
    obtain ⟨v, vm₁, hv, hpush⟩ := bind_answered hvm'
    obtain rfl := Vm.looked hlook hv
    cases v with
    | none => cases hpush
    | some v =>
        cases hpush
        rw [onMachine_ok hvm] at hcopy
        cases hcopy
        exact ⟨v, push_leaves hk v⟩
  obtain ⟨v, ht⟩ := hpushed
  have hkt : k < t.machines.size := by rw [ht.size]; exact hk
  obtain ⟨vm, hvm⟩ := onMachine_answered href
  have hframed : ∃ b fs, (t.vm k).machine.frames = b :: fs ∧ b ≤ (s.machine k).slots.length := by
    have habs : Vm.absIndex registryIndex (t.vm k) = .ok registryIndex (t.vm k) := rfl
    have htake := hvm
    unfold Vm.ref at htake
    rw [bind_ok habs, bind_ok (Vm.tableAt_eq (Vm.valueAt?_registry _))] at htake
    obtain ⟨w, vm₁, htake, _⟩ := bind_answered htake
    exact (Vm.take_top htake ht.slots).2.2
  obtain ⟨b, fs, hf, hb⟩ := hframed
  have hnoted : ∀ t', Gathers k [] s t' →
      Gathers k [] s { t' with wrappers := t'.wrappers.push ⟨k, .ofRef r⟩ } := by
    intro t' ht'
    have hsame : Gathers k [] t' { t' with wrappers := t'.wrappers.push ⟨k, .ofRef r⟩ } :=
      Leaves.same rfl rfl rfl rfl rfl
    exact ht'.trans hsame
  refine hnoted t' ?_
  by_cases hv : v = .nil
  · subst hv
    rw [onMachine_ok (Vm.ref_nil hf ht.slots hb)] at href
    cases href
    have hleft := ht.withSlots hk []
    rw [List.append_nil] at hleft
    exact hleft
  · rw [onMachine_ok (Vm.ref_apply _ hf ht.slots hb hv)] at href
    cases href
    have hm := withVm_machine hkt ((t.vm k).afterRef (s.machine k).slots v)
    refine ⟨?_, ?_, ?_, ?_, ?_, ht.rest.trans (afterRef_grows hkt _ v)⟩
    · rw [hm, Vm.afterRef_slots, List.append_nil]
    · rw [hm, Vm.afterRef_frames]
      exact ht.frames
    · rw [hm, Vm.afterRef_registry]
      exact ht.registry
    · rw [hm, Vm.afterRef_closed]
      exact ht.closed
    · rw [withVm_size]
      exact ht.size

/-- The value that has come last is popped. -/
theorem pop_gathers (w : Value) (h : Gathers k (xs ++ [w]) s t) (hk : k < s.machines.size)
    (hpop : onMachine k (Vm.pop 1) t = .ok () u) : Gathers k xs s u ∧ Grows k t u := by
  obtain ⟨vm, hvm⟩ := onMachine_answered hpop
  rw [onMachine_ok hvm] at hpop
  cases hpop
  have hs : (t.vm k).machine.slots = ((s.machine k).slots ++ xs) ++ [w] := by
    rw [List.append_assoc]
    exact h.slots
  rw [Vm.pop_answered hvm hs]
  exact ⟨h.withSlots hk xs, slots_unseen t _⟩

end Session

end StackBridge
