import StackBridge.Machine.Fields
import StackBridge.Proofs.Frames.Framed
import StackBridge.Proofs.Machine.Reach

/-!
Every primitive of a machine is confined to the running frame, whatever its
indices and counts: each finds its positions from the base of the frame or
from the top, refuses what would come out below the base, and otherwise
changes no slot but from there on. What it fails with is no value of the
program's.

Most of them are more than that, `Steady`: they leave the tables alone, and
which references have been given back, and put nothing into slots but what
could be reached, new objects and what refers to none. The others make a table,
write to one, raise a value of the program's, or close the machine.
-/

namespace StackBridge

namespace Vm

/-- The machine of one state is confined to the running frame of the other. -/
def MachineConfines (vm vm' : Vm) : Prop := vm.machine.Confines vm'.machine

instance : Std.Refl MachineConfines := ⟨fun vm => Machine.Confines.refl vm.machine⟩

instance : IsTrans Vm MachineConfines := ⟨fun _ _ _ h h' => Machine.Confines.trans h h'⟩

/-- Keeps to the running frame, whether it answers or fails, and fails with a
failure of its own. -/
abbrev Confined {α : Type} (a : Action α) : Prop := Carries MachineConfines Failure.Bare a

/-- The machine of one state is confined to the running frame of the other and
keeps its frames, its registry and its references, the tables are the same, as
are the functions that there were, and the slots hold what was known. -/
structure Steadies (vm vm' : Vm) : Prop where
  confines : vm.machine.Confines vm'.machine
  frames : vm'.machine.frames = vm.machine.frames
  registry : vm'.machine.registry = vm.machine.registry
  freeRefs : vm'.machine.freeRefs = vm.machine.freeRefs
  closed : vm'.machine.closed = vm.machine.closed
  tables : vm'.heap.tables = vm.heap.tables
  functions : vm.heap.KeepsFunctions vm'.heap
  grows : vm.heap.Grows vm'.heap
  values : ∀ v ∈ vm'.machine.slots, vm.Knows vm' v

instance : Std.Refl Steadies :=
  ⟨fun _ => ⟨Machine.Confines.refl _, rfl, rfl, rfl, rfl, rfl, .refl _, .refl _,
    fun _ hv => .reaches (.slot hv)⟩⟩

instance : IsTrans Vm Steadies :=
  ⟨fun _ _ _ h h' => ⟨h.confines.trans h'.confines, h'.frames.trans h.frames,
    h'.registry.trans h.registry, h'.freeRefs.trans h.freeRefs, h'.closed.trans h.closed,
    h'.tables.trans h.tables, h.functions.trans h'.functions, h.grows.trans h'.grows,
    fun v hv => (h'.values v hv).before h'.grows h.grows h.tables h.registry h.values⟩⟩

/-- Moves values in the running frame and makes objects other than tables, and
fails with a failure of its own. -/
abbrev Steady {α : Type} (a : Action α) : Prop := Carries Steadies Failure.Bare a

variable {α β : Type} {vm : Vm}

theorem Confined.bind {a : Action α} {f : α → Action β} (ha : Confined a)
    (hf : ∀ x, Confined (f x)) : Confined (a >>= f) :=
  Carries.bind ha hf

theorem Steady.bind {a : Action α} {f : α → Action β} (ha : Steady a)
    (hf : ∀ x, Steady (f x)) : Steady (a >>= f) :=
  Carries.bind ha hf

theorem Steady.confined {a : Action α} (ha : Steady a) : Confined a :=
  fun vm => (ha vm).mono (fun _ _ h => h.confines) fun _ _ h => ⟨h.1.confines, h.2⟩

theorem confined_looks {a : Action α} (ha : Looks a) : Confined a := ha.carries

theorem steady_looks {a : Action α} (ha : Looks a) : Steady a := ha.carries

/-- The heap is none of the frames' concern. -/
theorem confined_heap (h : Vm → Heap) :
    Confined (modify fun vm => { vm with heap := h vm } : Action Unit) :=
  fun vm => Machine.Confines.refl vm.machine

/-- What only changes the slots, and none below the running frame. -/
theorem Steadies.of_slots {l : List Value}
    (h : vm.machine.Confines { vm.machine with slots := l }) (hl : ∀ v ∈ l, vm.Knows vm v) :
    Steadies vm (vm.withSlots l) :=
  ⟨h, rfl, rfl, rfl, rfl, rfl, .refl _, .refl _, hl⟩

theorem Steadies.refl (vm : Vm) : Steadies vm vm := Std.Refl.refl vm

theorem baseOf_eq {b : Nat} {fs : List Nat} (hf : vm.machine.frames = b :: fs) :
    vm.machine.baseOf = b := by
  unfold Machine.baseOf
  rw [hf]
  rfl

-- ================================================================== pushing

theorem confines_push (m : Machine) (v : Value) :
    m.Confines { m with slots := m.slots ++ [v] } := by
  refine Machine.Confines.of_slots fun hm => ⟨?_, ?_⟩
  · rw [List.length_append]
    exact Nat.le_trans hm.base_le (Nat.le_add_right _ _)
  · exact List.take_append_of_le_length hm.base_le

/-- A value that was known may be pushed. -/
theorem Steadies.push {vm₀ : Vm} {v : Value} (h : Steadies vm₀ vm) (hv : vm₀.Knows vm v) :
    Steadies vm₀ (vm.withSlots (vm.machine.slots ++ [v])) where
  confines := h.confines.trans (confines_push vm.machine v)
  frames := h.frames
  registry := h.registry
  freeRefs := h.freeRefs
  closed := h.closed
  tables := h.tables
  functions := h.functions
  grows := h.grows
  values w hw := by
    rcases List.mem_append.mp hw with hslot | hlast
    · exact h.values w hslot
    · rw [List.mem_singleton.mp hlast]
      exact hv

theorem steady_push {v : Value} (hv : v.Native) : Steady (push v) :=
  fun vm => (Steadies.refl vm).push (.native hv)

theorem steady_pushCopy (index : Int) : Steady (pushCopy index) := by
  intro vm
  have hlook := looks_valueAt? index vm
  unfold pushCopy
  cases hr : valueAt? index vm with
  | error f vm' =>
      rw [hr] at hlook
      rw [bind_error hr]
      exact ⟨hlook.1 ▸ Steadies.refl vm, hlook.2⟩
  | ok v vm' =>
      rw [hr] at hlook
      obtain rfl : vm = vm' := hlook
      rw [bind_ok hr]
      cases v with
      | none => exact ⟨Steadies.refl vm, trivial⟩
      | some v => exact (Steadies.refl vm).push (.reaches (valueAt?_reaches hr))

/-- New objects on the heap, but no tables. -/
theorem Steadies.of_heap {h : Heap} (htables : h.tables = vm.heap.tables)
    (hfunctions : vm.heap.KeepsFunctions h) (hgrows : vm.heap.Grows h) :
    Steadies vm { vm with heap := h } :=
  ⟨Machine.Confines.refl _, rfl, rfl, rfl, rfl, htables, hfunctions, hgrows,
    fun _ hv => .reaches (.slot hv)⟩

theorem steady_pushFunction (f : FunctionObject) : Steady (pushFunction f) := by
  intro vm
  have hmade : Steadies vm { vm with heap := (vm.heap.newFunction f).2 } :=
    .of_heap rfl (vm.heap.keepsFunctions_newFunction f)
      ⟨Nat.le_refl _, by simp [Heap.newFunction], Nat.le_refl _, Nat.le_refl _⟩
  refine hmade.push (v := .function vm.heap.functions.size) (.made ⟨?_, Nat.lt_irrefl _⟩)
  simp [Heap.Has, Heap.newFunction]

theorem steady_pushUserdata (payload : HostValue) : Steady (pushUserdata payload) := by
  intro vm
  have hmade : Steadies vm { vm with heap := (vm.heap.newUserdata payload).2 } :=
    .of_heap rfl (.refl _) ⟨Nat.le_refl _, Nat.le_refl _, by simp [Heap.newUserdata],
      Nat.le_refl _⟩
  refine hmade.push (v := .userdata vm.heap.userdata.size) (.made ⟨?_, Nat.lt_irrefl _⟩)
  simp [Heap.Has, Heap.newUserdata]

theorem steady_newGuestValue (g : Guest) (role : Role) : Steady (newGuestValue g role) :=
  fun _ => .of_heap rfl (.refl _) ⟨Nat.le_refl _, Nat.le_refl _, Nat.le_refl _,
    by simp⟩

theorem confined_pushTable : Confined pushTable := fun vm =>
  confines_push vm.machine (.table vm.heap.tables.size)

-- =================================================================== the top

/-- The new top may be anywhere in the frame, and above it are nils. -/
theorem steady_setTop (index : Int) : Steady (setTop index) := by
  intro vm
  unfold setTop
  cases hf : vm.machine.frames with
  | nil =>
      rw [bind_error (base_none hf)]
      exact ⟨Steadies.refl _, trivial⟩
  | cons b fs =>
      rw [bind_ok (base_eq hf)]
      simp only [getMachine, bind_apply, get_apply, pure_apply]
      generalize (if 0 ≤ index then (b : Int) + index
        else (vm.machine.slots.length : Int) + index + 1) = target
      by_cases htarget : target < b
      · rw [if_pos htarget]
        exact ⟨Steadies.refl _, trivial⟩
      · rw [if_neg htarget]
        refine Steadies.of_slots (Machine.Confines.of_take (fun _ => ?_) _) fun v hv => ?_
        · rw [baseOf_eq hf]
          omega
        · rcases List.mem_append.mp hv with hold | hnil
          · exact .reaches (.slot (List.mem_of_mem_take hold))
          · rw [List.eq_of_mem_replicate hnil]
            exact .native trivial

theorem steady_pop (count : Int) : Steady (pop count) := by
  refine (steady_looks looks_getTop).bind fun depth => ?_
  split
  · exact steady_looks (looks_fail _)
  · exact steady_setTop _

/-- Nothing is taken from below the frame. -/
theorem steady_take : Steady take := by
  intro vm
  unfold take
  cases hf : vm.machine.frames with
  | nil =>
      rw [bind_error (base_none hf)]
      exact ⟨Steadies.refl _, trivial⟩
  | cons b fs =>
      rw [bind_ok (base_eq hf)]
      simp only [getMachine, bind_apply, get_apply, pure_apply]
      by_cases hempty : vm.machine.slots.length ≤ b
      · rw [if_pos hempty]
        exact ⟨Steadies.refl _, trivial⟩
      · rw [if_neg hempty]
        cases vm.machine.slots.getLast? with
        | none => exact ⟨Steadies.refl _, trivial⟩
        | some v =>
            have hcut : vm.machine.slots.dropLast
                = vm.machine.slots.take (vm.machine.slots.length - 1) ++ [] := by
              rw [List.append_nil, List.dropLast_eq_take]
            refine Steadies.of_slots (l := vm.machine.slots.dropLast) ?_
              fun v hv => .reaches (.slot (List.dropLast_subset _ hv))
            rw [hcut]
            refine Machine.Confines.of_take (fun _ => ?_) []
            rw [baseOf_eq hf]
            omega

-- =================================================================== tables

/-- What a table answers that could be reached was known. -/
theorem Reaches.get {id : TableId} (hid : vm.Reaches (.table id)) (k : Value) :
    vm.Knows vm' ((vm.heap.table id).get k) := by
  rcases (vm.heap.table id).get_cases k with hnil | ⟨e, he, hget⟩
  · rw [hnil]
    exact .native trivial
  · rw [hget]
    exact .reaches (.value hid he)

theorem Steadies.table {vm₀ : Vm} (h : Steadies vm₀ vm) (id : TableId) :
    vm.heap.table id = vm₀.heap.table id := by
  unfold Heap.table
  rw [h.tables]

theorem Steadies.fetch {vm₀ : Vm} {id : TableId} (h : Steadies vm₀ vm)
    (hid : vm₀.Reaches (.table id)) (k : Value) :
    Follows Steadies Failure.Bare vm₀ (fetch id k vm) := by
  have hlook := looks_categoryOf k vm
  unfold Vm.fetch
  cases hr : categoryOf k vm with
  | error f vm' =>
      rw [hr] at hlook
      rw [bind_error hr]
      exact ⟨hlook.1 ▸ h, hlook.2⟩
  | ok c vm' =>
      rw [hr] at hlook
      obtain rfl : vm = vm' := hlook
      rw [bind_ok hr]
      have hpushed : Steadies vm₀ (vm.withSlots
          (vm.machine.slots ++ [(vm.heap.table id).get k])) := by
        refine h.push ?_
        rw [h.table]
        exact hid.get k
      have hrest : Steady (categoryOf ((vm.heap.table id).get k)) :=
        steady_looks (looks_categoryOf _)
      exact (hrest _).after hpushed

/-- An action on the table at an index, which could be reached. -/
theorem steady_tableAt {index : Int} {f : TableId → Action α}
    (hf : ∀ id vm, vm.Reaches (.table id) → Follows Steadies Failure.Bare vm (f id vm)) :
    Steady (tableAt index >>= f) := by
  intro vm
  have hlook := looks_tableAt index vm
  cases hr : tableAt index vm with
  | error g vm' =>
      rw [hr] at hlook
      rw [bind_error hr]
      exact ⟨hlook.1 ▸ Steadies.refl vm, hlook.2⟩
  | ok id vm' =>
      rw [hr] at hlook
      obtain rfl : vm = vm' := hlook
      rw [bind_ok hr]
      exact hf id vm (tableAt_reaches hr)

/-- And then on the value on top. -/
theorem steady_tableAt_take {index : Int} {f : TableId → Value → Action α}
    (hf : ∀ id k vm₀ vm, Steadies vm₀ vm → vm₀.Reaches (.table id) →
      Follows Steadies Failure.Bare vm₀ (f id k vm)) :
    Steady (tableAt index >>= fun id => take >>= fun k => f id k) := by
  refine steady_tableAt fun id vm hid => ?_
  have htake := steady_take vm
  rw [bind_apply]
  cases hr : take vm with
  | error g vm' =>
      rw [hr] at htake
      exact htake
  | ok k vm' =>
      rw [hr] at htake
      exact hf id k vm vm' htake hid

theorem steady_rawGet (index : Int) : Steady (rawGet index) :=
  steady_tableAt_take fun _ k _ _ h hid => h.fetch hid k

theorem steady_getKey (index : Int) (k : Value) : Steady (getKey index k) :=
  steady_tableAt fun _ vm hid => (Steadies.refl vm).fetch hid k

theorem steady_next (index : Int) : Steady (next index) := by
  refine steady_tableAt_take fun id k vm₀ vm h hid => ?_
  rw [bind_ok (rfl : getHeap vm = .ok vm.heap vm)]
  cases hnext : (vm.heap.table id).next k with
  | error f => cases f <;> exact ⟨h, trivial⟩
  | ok e =>
      cases e with
      | none => exact h
      | some e =>
          have hentry := Table.next_mem hnext
          rw [h.table] at hentry
          exact (h.push (.reaches (.key hid hentry))).push (.reaches (.value hid hentry))

theorem confined_store (id : TableId) (k v : Value) : Confined (store id k v) := by
  refine (confined_looks looks_getHeap).bind fun heap => ?_
  cases (heap.table id).set k v with
  | error f => exact confined_looks (looks_fail _)
  | ok t => exact confined_heap _

theorem confined_rawSet (index : Int) : Confined (rawSet index) :=
  (confined_looks (looks_tableAt index)).bind fun id =>
    steady_take.confined.bind fun v => steady_take.confined.bind fun k => confined_store id k v

theorem confined_setKey (index : Int) (k : Value) : Confined (setKey index k) :=
  (confined_looks (looks_tableAt index)).bind fun id =>
    steady_take.confined.bind fun v => confined_store id k v

/-- Which references have been given back is none of the frames' concern. -/
theorem confined_setFree (id : TableId) (refs : Machine → List Int) :
    Confined (modifyMachine fun m => m.setFree id (refs m)) :=
  fun _ => Machine.Confines.of_same rfl rfl rfl

theorem confined_ref (index : Int) : Confined (ref index) := by
  refine (confined_looks (looks_absIndex index)).bind fun index => ?_
  refine (confined_looks (looks_tableAt index)).bind fun id =>
    steady_take.confined.bind fun v => ?_
  split
  · exact confined_looks (looks_pure _)
  · refine (confined_looks looks_getMachine).bind fun m => ?_
    split
    · exact (confined_setFree id _).bind fun _ => (confined_store _ _ _).bind fun _ =>
        confined_looks (looks_pure _)
    · exact (confined_looks looks_getHeap).bind fun _ => (confined_store _ _ _).bind fun _ =>
        confined_looks (looks_pure _)

theorem confined_unref (index r : Int) : Confined (unref index r) := by
  unfold unref
  split
  · exact confined_looks (looks_pure _)
  · exact (confined_looks (looks_tableAt index)).bind fun id =>
      (confined_store _ _ _).bind fun _ => confined_setFree id _

-- =========================================================== in place, errors

/-- An existing slot is one of the running frame's. -/
theorem slot_ge {index : Int} {vm' : Vm} {position : Nat}
    (h : slot index vm = .ok position vm') : vm.machine.baseOf ≤ position := by
  unfold slot at h
  cases hf : vm.machine.frames with
  | nil =>
      split at h
      · rw [bind_error (base_none hf)] at h
        cases h
      · split at h
        · simp only [getMachine, bind_apply, get_apply, pure_apply, base_none hf] at h
          cases h
        · cases h
  | cons b fs =>
      rw [baseOf_eq hf]
      split at h
      · rw [bind_ok (base_eq hf)] at h
        simp only [getMachine, bind_apply, get_apply, pure_apply] at h
        split at h
        · cases h
          omega
        · cases h
      · split at h
        · simp only [getMachine, bind_apply, get_apply, pure_apply, base_eq hf] at h
          split at h
          · cases h
          · cases h
            omega
        · cases h

/-- A number turns into a string where it is. -/
theorem steady_toBytes? (index : Int) : Steady (toBytes? index) := by
  have hinPlace : ∀ b : Bytes, Steady (do
      let position ← slot index
      modifyMachine fun m => { m with slots := m.slots.set position (.str b) }
      return some b) := by
    intro b vm
    have hlook := looks_slot index vm
    cases hr : slot index vm with
    | error f vm' =>
        rw [hr] at hlook
        rw [bind_error hr]
        exact ⟨hlook.1 ▸ Steadies.refl vm, hlook.2⟩
    | ok position vm' =>
        rw [hr] at hlook
        obtain rfl : vm = vm' := hlook
        rw [bind_ok hr]
        refine Steadies.of_slots (Machine.Confines.of_slots fun hm => ⟨?_, ?_⟩) fun v hv => ?_
        · rw [List.length_set]
          exact hm.base_le
        · exact List.take_set_of_le (slot_ge hr)
        · rcases List.mem_or_eq_of_mem_set hv with hold | hnew
          · exact .reaches (.slot hold)
          · rw [hnew]
            exact .native trivial
  refine (steady_looks (looks_valueAt? index)).bind fun v => ?_
  split
  · exact steady_looks (looks_pure _)
  · exact hinPlace _
  · exact hinPlace _
  · exact steady_looks (looks_pure _)

/-- The primitives that only move values in the running frame, and make objects
other than tables. -/
inductive Primitive : {α : Type} → Action α → Prop where
  | push {v : Value} (native : v.Native) : Primitive (Vm.push v)
  | pushCopy (index : Int) : Primitive (Vm.pushCopy index)
  | pushFunction (f : FunctionObject) : Primitive (Vm.pushFunction f)
  | pushUserdata (payload : HostValue) : Primitive (Vm.pushUserdata payload)
  | newGuestValue (g : Guest) (role : Role) : Primitive (Vm.newGuestValue g role)
  | setTop (index : Int) : Primitive (Vm.setTop index)
  | pop (count : Int) : Primitive (Vm.pop count)
  | rawGet (index : Int) : Primitive (Vm.rawGet index)
  | getKey (index : Int) (k : Value) : Primitive (Vm.getKey index k)
  | next (index : Int) : Primitive (Vm.next index)
  | toBytes? (index : Int) : Primitive (Vm.toBytes? index)

theorem Primitive.steady {a : Action α} (ha : Primitive a) : Steady a := by
  cases ha with
  | push native => exact steady_push native
  | pushCopy index => exact steady_pushCopy index
  | pushFunction f => exact steady_pushFunction f
  | pushUserdata payload => exact steady_pushUserdata payload
  | newGuestValue g role => exact steady_newGuestValue g role
  | setTop index => exact steady_setTop index
  | pop count => exact steady_pop count
  | rawGet index => exact steady_rawGet index
  | getKey index k => exact steady_getKey index k
  | next index => exact steady_next index
  | toBytes? index => exact steady_toBytes? index

/-- A relation between the states before and after that moving values keeps, and
writing to tables and giving references back. -/
class Lasts (R : Vm → Vm → Prop) : Prop extends Std.Refl R, IsTrans Vm R where
  steady : ∀ {vm vm' : Vm}, Steadies vm vm' → R vm vm'
  store : ∀ {vm : Vm} {id : TableId} {k v : Value} {t : Table},
    (vm.heap.table id).set k v = .ok t → R vm { vm with heap := vm.heap.setTable id t }
  setFree : ∀ (vm : Vm) (id : TableId) (refs : List Int),
    R vm { vm with machine := vm.machine.setFree id refs }

section

variable {R : Vm → Vm → Prop} [Lasts R]

theorem keeps_steady {a : Action α} (ha : Steady a) : Keeps R a :=
  ha.keeps.mono fun _ _ h => Lasts.steady h

theorem keeps_store (id : TableId) (k v : Value) : Keeps R (store id k v) := by
  intro vm
  unfold store
  rw [bind_apply]
  simp only [getHeap, bind_apply, get_apply, pure_apply]
  cases hset : (vm.heap.table id).set k v with
  | error f => exact Std.Refl.refl vm
  | ok t => exact Lasts.store hset

theorem keeps_setFree (id : TableId) (refs : Machine → List Int) :
    Keeps R (modifyMachine fun m => m.setFree id (refs m)) :=
  fun vm => Lasts.setFree vm id (refs vm.machine)

theorem keeps_rawSet (index : Int) : Keeps R (rawSet index) :=
  (looks_tableAt index).keeps.bind fun id =>
    (keeps_steady steady_take).bind fun v =>
      (keeps_steady steady_take).bind fun k => keeps_store id k v

theorem keeps_setKey (index : Int) (k : Value) : Keeps R (setKey index k) :=
  (looks_tableAt index).keeps.bind fun id =>
    (keeps_steady steady_take).bind fun v => keeps_store id k v

theorem keeps_ref (index : Int) : Keeps R (ref index) := by
  refine (looks_absIndex index).keeps.bind fun index => ?_
  refine (looks_tableAt index).keeps.bind fun id =>
    (keeps_steady steady_take).bind fun v => ?_
  split
  · exact (looks_pure _).keeps
  · refine looks_getMachine.keeps.bind fun m => ?_
    split
    · exact (keeps_setFree id _).bind fun _ => (keeps_store _ _ _).bind fun _ =>
        (looks_pure _).keeps
    · exact looks_getHeap.keeps.bind fun _ => (keeps_store _ _ _).bind fun _ =>
        (looks_pure _).keeps

theorem keeps_unref (index r : Int) : Keeps R (unref index r) := by
  unfold unref
  split
  · exact (looks_pure _).keeps
  · exact (looks_tableAt index).keeps.bind fun id =>
      (keeps_store _ _ _).bind fun _ => keeps_setFree id _

end

/-- Closing ends all promises. -/
theorem confined_close : Confined close := fun _ => Machine.Confines.of_closed rfl

end Vm

end StackBridge
