import StackBridge.Proofs.Machine.Look
import StackBridge.Proofs.Machine.Table
import StackBridge.Proofs.Machine.Top

/-!
What can be reached from a machine: what is in its slots, its registry, and the
keys and values of the tables reached. Whatever an action of the machine puts
into a slot has been reached before, or is an object just made, or refers to no
object at all (`Vm.Knows`).
-/

namespace StackBridge

/-- A value that refers to nothing on the heap, and if it is an integer is one of
64 bits. -/
def Value.Native : Value → Prop
  | .int n => inRange n = true
  | .table _ | .function _ | .userdata _ | .guest _ _ => False
  | _ => True

-- =================================================================== heaps

/-- A function that there was is still the same. -/
def Heap.KeepsFunctions (h h' : Heap) : Prop :=
  ∀ id f, h.function? id = some f → h'.function? id = some f

theorem Heap.KeepsFunctions.refl (h : Heap) : h.KeepsFunctions h := fun _ _ hf => hf

theorem Heap.KeepsFunctions.trans {h h' h'' : Heap} (hk : h.KeepsFunctions h')
    (hk' : h'.KeepsFunctions h'') : h.KeepsFunctions h'' :=
  fun id f hf => hk' id f (hk id f hf)

/-- A new function is none of the old ones. -/
theorem Heap.keepsFunctions_newFunction (h : Heap) (f : FunctionObject) :
    h.KeepsFunctions (h.newFunction f).2 := by
  intro id g hg
  obtain ⟨hlt, rfl⟩ := Array.getElem?_eq_some_iff.mp hg
  show (h.functions.push f)[id]? = some _
  rw [Array.getElem?_push_lt hlt]

/-- Nothing goes from a heap. -/
structure Heap.Grows (h h' : Heap) : Prop where
  tables : h.tables.size ≤ h'.tables.size
  functions : h.functions.size ≤ h'.functions.size
  userdata : h.userdata.size ≤ h'.userdata.size
  guests : h.guests.size ≤ h'.guests.size

theorem Heap.Grows.refl (h : Heap) : h.Grows h :=
  ⟨Nat.le_refl _, Nat.le_refl _, Nat.le_refl _, Nat.le_refl _⟩

theorem Heap.Grows.trans {h h' h'' : Heap} (hg : h.Grows h') (hg' : h'.Grows h'') : h.Grows h'' :=
  ⟨Nat.le_trans hg.tables hg'.tables, Nat.le_trans hg.functions hg'.functions,
    Nat.le_trans hg.userdata hg'.userdata, Nat.le_trans hg.guests hg'.guests⟩

/-- What a value refers to is on the heap, if it refers to anything there. -/
def Heap.Has (h : Heap) : Value → Prop
  | .table id => id < h.tables.size
  | .function id => id < h.functions.size
  | .userdata id => id < h.userdata.size
  | _ => True

/-- An object of one heap that is not on another. -/
def Heap.Brings (h h' : Heap) (v : Value) : Prop := h'.Has v ∧ ¬ h.Has v

theorem Heap.Has.grows {h h' : Heap} {v : Value} (hv : h.Has v) (hg : h.Grows h') : h'.Has v := by
  cases v with
  | table id => exact Nat.lt_of_lt_of_le hv hg.tables
  | function id => exact Nat.lt_of_lt_of_le hv hg.functions
  | userdata id => exact Nat.lt_of_lt_of_le hv hg.userdata
  | _ => trivial

/-- A table that is not on the heap has no entries. -/
theorem Heap.table_entries_of_not_has {h : Heap} {id : TableId} (hid : ¬ h.Has (.table id)) :
    (h.table id).entries = [] := by
  unfold Heap.table
  rw [Array.getD_eq_getD_getElem?, Array.getElem?_eq_none (Nat.le_of_not_lt hid)]
  rfl

-- ================================================================== tables

namespace Table

/-- What a table answers is in it, if it is not nil. -/
theorem get_cases (t : Table) (k : Value) :
    t.get k = .nil ∨ ∃ e ∈ t.entries, t.get k = e.2 := by
  unfold Table.get
  cases k.key with
  | error f => exact Or.inl rfl
  | ok key =>
      dsimp only
      unfold Table.find?
      cases hfind : t.entries.find? (·.1 == key) with
      | none => exact Or.inl rfl
      | some e => exact Or.inr ⟨e, List.mem_of_find?_eq_some hfind, rfl⟩

/-- The entry that a traversal finds is one of the table. -/
theorem firstEntry_mem {t : Table} {ks : List Key} {e : Key × Value}
    (h : t.firstEntry ks = some e) : e ∈ t.entries := by
  induction ks with
  | nil => cases h
  | cons k ks ih =>
      unfold Table.firstEntry Table.find? at h
      cases hfind : t.entries.find? (·.1 == k) with
      | none =>
          rw [hfind] at h
          exact ih h
      | some e' =>
          rw [hfind] at h
          cases h
          have hkey := List.find?_some hfind
          rw [← eq_of_beq hkey]
          exact List.mem_of_find?_eq_some hfind

theorem next_mem {t : Table} {k : Value} {e : Key × Value} (h : t.next k = .ok (some e)) :
    e ∈ t.entries := by
  unfold Table.next at h
  split at h
  · exact firstEntry_mem (Except.ok.inj h)
  · split at h
    · cases h
    · split at h
      · cases h
      · exact firstEntry_mem (Except.ok.inj h)

end Table

-- =================================================================== reach

namespace Vm

/-- What can be reached from a machine. -/
inductive Reaches (vm : Vm) : Value → Prop where
  | slot {v : Value} (slot : v ∈ vm.machine.slots) : Reaches vm v
  | registry : Reaches vm (.table vm.machine.registry)
  | key {id : TableId} {e : Key × Value} (table : Reaches vm (.table id))
      (entry : e ∈ (vm.heap.table id).entries) : Reaches vm e.1.value
  | value {id : TableId} {e : Key × Value} (table : Reaches vm (.table id))
      (entry : e ∈ (vm.heap.table id).entries) : Reaches vm e.2

/-- What may be in a slot of a machine later on: what refers to no object, what
could be reached before, and objects made since. -/
def Knows (vm vm' : Vm) (v : Value) : Prop := v.Native ∨ vm.Reaches v ∨ vm.heap.Brings vm'.heap v

variable {vm vm' vm'' : Vm} {v : Value}

theorem Knows.native (hv : v.Native) : vm.Knows vm' v := Or.inl hv

theorem Knows.reaches (hv : vm.Reaches v) : vm.Knows vm' v := Or.inr (Or.inl hv)

theorem Knows.made (hv : vm.heap.Brings vm'.heap v) : vm.Knows vm' v := Or.inr (Or.inr hv)

theorem Knows.grows (hv : vm.Knows vm' v) (hg : vm'.heap.Grows vm''.heap) : vm.Knows vm'' v :=
  hv.imp_right fun h => h.imp_right fun hmade => ⟨hmade.1.grows hg, hmade.2⟩

/-- A table known on a heap with the same tables could be reached before. -/
theorem Knows.table {id : TableId} (hv : vm.Knows vm' (.table id))
    (htables : vm'.heap.tables = vm.heap.tables) : vm.Reaches (.table id) := by
  rcases hv with hnative | hreach | ⟨hhas, hnot⟩
  · exact hnative.elim
  · exact hreach
  · refine absurd ?_ hnot
    unfold Heap.Has at hhas ⊢
    rw [← htables]
    exact hhas

/-- What can be reached later, in the same tables, was known before. -/
theorem Reaches.before (h : vm'.Reaches v) (htables : vm'.heap.tables = vm.heap.tables)
    (hregistry : vm'.machine.registry = vm.machine.registry)
    (hslots : ∀ v ∈ vm'.machine.slots, vm.Knows vm' v) : vm.Knows vm' v := by
  have htable : ∀ id, vm'.heap.table id = vm.heap.table id := fun id => by
    unfold Heap.table
    rw [htables]
  induction h with
  | slot slot => exact hslots _ slot
  | registry =>
      rw [hregistry]
      exact .reaches .registry
  | @key id e _ entry ih =>
      rw [htable] at entry
      exact .reaches (.key (ih.table htables) entry)
  | @value id e _ entry ih =>
      rw [htable] at entry
      exact .reaches (.value (ih.table htables) entry)

/-- What is known later was known before. -/
theorem Knows.before (h : vm'.Knows vm'' v) (hgrows : vm'.heap.Grows vm''.heap)
    (hgrows₀ : vm.heap.Grows vm'.heap) (htables : vm'.heap.tables = vm.heap.tables)
    (hregistry : vm'.machine.registry = vm.machine.registry)
    (hslots : ∀ v ∈ vm'.machine.slots, vm.Knows vm' v) : vm.Knows vm'' v := by
  rcases h with hnative | hreach | ⟨hhas, hnot⟩
  · exact .native hnative
  · exact (hreach.before htables hregistry hslots).grows hgrows
  · exact .made ⟨hhas, fun hv => hnot (hv.grows hgrows₀)⟩

-- ================================================================= indices

theorem base_none (hf : vm.machine.frames = []) : base vm = .error (.host .noFrame) vm := by
  unfold base
  rw [bind_ok (get_apply vm), hf]
  rfl

/-- What is at an index can be reached. -/
theorem valueAt?_reaches {index : Int} (h : valueAt? index vm = .ok (some v) vm') :
    vm.Reaches v := by
  have hslots : ∀ (position : Nat), vm.machine.slots[position]? = some v → vm.Reaches v :=
    fun _ hget => .slot (List.mem_of_getElem? hget)
  unfold valueAt? at h
  split at h
  · cases h
    exact .registry
  · split at h
    · cases hf : vm.machine.frames with
      | nil =>
          rw [bind_error (base_none hf)] at h
          cases h
      | cons b fs =>
          rw [bind_ok (base_eq hf)] at h
          simp only [getMachine, bind_apply, get_apply, pure_apply, EStateM.Result.ok.injEq] at h
          exact hslots _ h.1
    · have hlook := (looks_slot index).ends vm
      cases hr : slot index vm with
      | error f vm₁ =>
          rw [bind_error hr] at h
          cases h
      | ok position vm₁ =>
          rw [hr] at hlook
          obtain rfl : vm₁ = vm := hlook
          rw [bind_ok hr] at h
          simp only [getMachine, bind_apply, get_apply, pure_apply, EStateM.Result.ok.injEq] at h
          exact hslots _ h.1

/-- The table at an index can be reached. -/
theorem tableAt_reaches {index : Int} {id : TableId} (h : tableAt index vm = .ok id vm') :
    vm.Reaches (.table id) := by
  unfold tableAt at h
  have hlook := (looks_valueAt? index).ends vm
  cases hr : valueAt? index vm with
  | error f vm₁ =>
      rw [bind_error hr] at h
      cases h
  | ok w vm₁ =>
      rw [hr] at hlook
      obtain rfl : vm₁ = vm := hlook
      rw [bind_ok hr] at h
      have hfails : ∀ w : Value,
          (do fail (.tableExpected index (← categoryOf w)) : Action TableId) vm₁ ≠ .ok id vm' := by
        intro w heq
        have hcategory := (looks_categoryOf w).ends vm₁
        cases hc : categoryOf w vm₁ with
        | error f vm₂ =>
            rw [bind_error hc] at heq
            cases heq
        | ok c vm₂ =>
            rw [bind_ok hc] at heq
            cases heq
      cases w with
      | none => cases h
      | some w =>
          cases w with
          | table id' =>
              cases h
              exact valueAt?_reaches hr
          | _ => exact absurd h (hfails _)

end Vm

end StackBridge
