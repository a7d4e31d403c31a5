import StackBridge.Proofs.RoundTrip.Holds
import StackBridge.Proofs.Session.Answered
import StackBridge.Proofs.Session.Kept

/-!
What a push leaves alone on whatever machine it is done, also on one that has
been closed or that does not exist: every table that there was, every wrapper,
and on every machine the registry and the references given back (`Fresh`). So
does whatever else moves values and makes objects; closing a machine replaces its
registry by a new table.

A push writes to tables, but only to those that it has made, which it finds by
their distance from the top. That they are there follows from the parts having
answered: a value that has been pushed is on top of what was there before.
-/

namespace StackBridge

/-- To a machine with the same registry and references, as open as before. -/
structure Machine.Remembers (m m' : Machine) : Prop where
  closed : m'.closed = m.closed
  registry : m'.registry = m.registry
  freeRefs : m'.freeRefs = m.freeRefs

theorem Machine.Remembers.withSlots {m m' : Machine} (h : m.Remembers m') (l : List Value) :
    m.Remembers { m' with slots := l } :=
  ⟨h.closed, h.registry, h.freeRefs⟩

namespace Session

/-- There may be new tables and other slots, and machines may have been closed. -/
structure Fresh (s t : Session) : Prop where
  wrappers : t.wrappers = s.wrappers
  size : t.machines.size = s.machines.size
  tables : s.heap.tables.size ≤ t.heap.tables.size
  table : ∀ id < s.heap.tables.size, t.heap.table id = s.heap.table id
  machine : ∀ j, (s.machine j).Remembers (t.machine j)
    ∨ (t.machine j).closed = true ∧ s.heap.tables.size ≤ (t.machine j).registry

variable {s s₀ t u : Session} {j k : MachineId} {α β : Type} {ctx : Context}

namespace Fresh

theorem of_same (hheap : t.heap = s.heap) (hmachines : t.machines = s.machines)
    (hwrappers : t.wrappers = s.wrappers) : Fresh s t where
  wrappers := hwrappers
  size := by rw [hmachines]
  tables := by rw [hheap]
  table id _ := by rw [hheap]
  machine j := by
    have hsame : t.machine j = s.machine j := by
      unfold Session.machine
      rw [hmachines]
    rw [hsame]
    exact Or.inl ⟨rfl, rfl, rfl⟩

theorem refl (s : Session) : Fresh s s := of_same rfl rfl rfl

theorem trans (h : Fresh s t) (h' : Fresh t u) : Fresh s u where
  wrappers := h'.wrappers.trans h.wrappers
  size := h'.size.trans h.size
  tables := Nat.le_trans h.tables h'.tables
  table id hid := (h'.table id (Nat.lt_of_lt_of_le hid h.tables)).trans (h.table id hid)
  machine j := by
    rcases h'.machine j with hlater | ⟨hclosed, hnew⟩
    · rcases h.machine j with hearlier | ⟨hclosed, hnew⟩
      · exact Or.inl ⟨hlater.closed.trans hearlier.closed,
          hlater.registry.trans hearlier.registry, hlater.freeRefs.trans hearlier.freeRefs⟩
      · refine Or.inr ⟨hlater.closed.trans hclosed, ?_⟩
        rw [hlater.registry]
        exact hnew
    · exact Or.inr ⟨hclosed, Nat.le_trans h.tables hnew⟩

/-- What is open afterwards remembers. -/
theorem remembers (h : Fresh s t) (hopen : (t.machine j).closed = false) :
    (s.machine j).Remembers (t.machine j) := by
  rcases h.machine j with hm | ⟨hclosed, _⟩
  · exact hm
  · rw [hclosed] at hopen
    cases hopen

theorem opened (h : Fresh s t) (hopen : (t.machine j).closed = false) :
    (s.machine j).closed = false :=
  (h.remembers hopen).closed.symm.trans hopen

theorem wrapper (h : Fresh s t) (id : Nat) : t.wrapper id = s.wrapper id := by
  unfold Session.wrapper
  rw [h.wrappers]

/-- One machine is put back with the heap. -/
theorem withVm (h : Fresh s t) {vm : Vm} (htables : s.heap.tables.size ≤ vm.heap.tables.size)
    (htable : ∀ id < s.heap.tables.size, vm.heap.table id = s.heap.table id)
    (hm : (s.machine k).Remembers vm.machine
      ∨ vm.machine.closed = true ∧ s.heap.tables.size ≤ vm.machine.registry) :
    Fresh s (t.withVm k vm) where
  wrappers := h.wrappers
  size := (withVm_size t k vm).trans h.size
  tables := htables
  table := htable
  machine j := by
    by_cases hjk : k = j
    · subst hjk
      by_cases hk : k < t.machines.size
      · rw [withVm_machine hk]
        exact hm
      · rw [withVm_machine_none hk]
        exact h.machine k
    · rw [withVm_machine_ne hjk]
      exact h.machine j

/-- Whatever is on the stack of a machine. -/
theorem withSlots (h : Fresh s t) (l : List Value) : Fresh s (t.withSlots k l) :=
  h.withVm h.tables h.table ((h.machine k).imp_left fun hm => hm.withSlots l)

/-- Storing into a table that was not there at first. -/
theorem store (h : Fresh s t) {id : TableId} (hid : s.heap.tables.size ≤ id) (table : Table)
    (l : List Value) :
    Fresh s (t.withVm k { (t.vm k).withSlots l with heap := t.heap.setTable id table }) := by
  refine h.withVm ?_ (fun id' hid' => ?_) ((h.machine k).imp_left fun hm => hm.withSlots l)
  · rw [Heap.setTable_size]
    exact h.tables
  · rw [Heap.table_setTable_ne (Nat.ne_of_gt (Nat.lt_of_lt_of_le hid' hid))]
    exact h.table id' hid'

/-- The tables that are newer than some moment. -/
theorem keepsFrom (h : Fresh s t) (lo : Nat) : Heap.KeepsFrom lo s.heap t.heap :=
  ⟨h.tables, fun id _ hid => h.table id hid⟩

end Fresh

instance : Calm Fresh where
  refl := Fresh.refl
  trans _ _ _ := Fresh.trans
  unseen hheap hmachines hwrappers _ := Fresh.of_same hheap hmachines hwrappers

instance : Describes ctx Fresh := describes_of_blind ctx Fresh.of_same

instance : Moves Fresh where
  steady {_ a} k ha s := by
    have h := ha.keeps (s.vm k)
    rw [onMachine_final]
    refine (Fresh.refl s).withVm ?_ (fun id _ => ?_) (Or.inl ⟨h.closed, h.registry, h.freeRefs⟩)
    · rw [h.tables]
      exact Nat.le_refl _
    · unfold Heap.table
      rw [h.tables]
      rfl
  pushTable k s := by
    rw [onMachine_final]
    refine (Fresh.refl s).withVm ?_ (fun id hid => Heap.table_push_lt hid .empty)
      (Or.inl ⟨rfl, rfl, rfl⟩)
    show s.heap.tables.size ≤ (s.heap.tables.push .empty).size
    rw [Array.size_push]
    exact Nat.le_succ _
  close k s := by
    rw [onMachine_final]
    refine (Fresh.refl s).withVm ?_ (fun id hid => Heap.table_push_lt hid .empty)
      (Or.inr ⟨rfl, Nat.le_refl _⟩)
    show s.heap.tables.size ≤ (s.heap.tables.push .empty).size
    rw [Array.size_push]
    exact Nat.le_succ _

-- ================================================================== the stack

/-- If it answers, the stack of a machine is as it was. -/
def Levels (k : MachineId) (a : Action α) : Prop :=
  ∀ s x t, a s = .ok x t → (t.machine k).slots = (s.machine k).slots

theorem Levels.bind {a : Action α} {f : α → Action β} (ha : Levels k a)
    (hf : ∀ x, Levels k (f x)) : Levels k (a >>= f) := by
  intro s y u h
  obtain ⟨x, t, hx, hy⟩ := bind_answered h
  exact (hf x t y u hy).trans (ha s x t hx)

/-- An action that only touches what is no machine. -/
theorem levels_same {a : Action α} (ha : ∀ s x t, a s = .ok x t → t.machines = s.machines) :
    Levels k a := by
  intro s x t h
  unfold Session.machine
  rw [ha s x t h]

theorem levels_pure (x : α) : Levels k (pure x : Action α) :=
  levels_same fun _ _ _ h => by cases h; rfl

theorem levels_get : Levels k (get : Action Session) := levels_same fun _ _ _ h => by cases h; rfl

theorem levels_fail (f : Failure) : Levels k (fail f : Action α) := fun _ _ _ h => nomatch h

theorem levels_ofHost (r : Except HostFault α) : Levels k (ofHost r) :=
  levels_same fun _ _ _ h => by rw [(ofHost_answered h).2]

theorem levels_individualFloat (x : Double) : Levels k (individualFloat x) := by
  unfold individualFloat
  split
  · exact (levels_same fun _ _ _ h => by cases h; rfl : Levels k nextIndividual).bind
      fun _ => levels_pure _
  · exact levels_pure _

theorem levels_individual (v : HostValue) : Levels k (individual v) := by
  have hnumber : Levels k nextIndividual := levels_same fun _ _ _ h => by cases h; rfl
  unfold individual
  split
  · exact (levels_individualFloat _).bind fun _ => levels_pure _
  · exact hnumber.bind fun _ => levels_pure _
  · exact hnumber.bind fun _ => levels_pure _
  · exact levels_pure _

theorem levels_encodeText (text : String) : Levels k (encodeText text) := by
  refine levels_get.bind fun s => ?_
  cases s.encoding.encode text with
  | ok b => exact levels_pure b
  | error f => exact levels_fail _

theorem levels_describe (t : TypeExpr) (operation : String) :
    Levels k (Bridge.describe ctx t operation) := by
  refine levels_same fun s host u h => ?_
  obtain ⟨_, noted, rfl⟩ := Bridge.describe_answered h
  rfl

-- ================================================================== wrappers

/-- The value of a wrapper has come on top of its machine. -/
theorem pushWrapped_answered {id : Nat} (h : Bridge.pushWrapped id s = .ok () t) :
    ∃ w, s.wrapped? id = some w
      ∧ t = s.withSlots (s.wrapper id).machine ((s.machine (s.wrapper id).machine).slots ++ [w]) := by
  unfold Bridge.pushWrapped at h
  rw [bind_ok (get_apply s)] at h
  unfold wrapped?
  dsimp only
  cases ha : (s.wrapper id).anchor with
  | released =>
      rw [ha] at h
      cases h
  | nil =>
      rw [ha] at h
      cases h
      exact ⟨.nil, rfl, rfl⟩
  | entry r =>
      rw [ha] at h
      obtain ⟨c, u, hget, hpure⟩ := bind_answered h
      cases hpure
      obtain ⟨vm, hvm⟩ := onMachine_answered hget
      rw [onMachine_ok hvm] at hget
      cases hget
      have hnumber : (Value.int r).category? = some .number := rfl
      obtain ⟨table, hvalue, hslots, _⟩ := Vm.getKey_answered hnumber hvm
      rw [Vm.valueAt?_registry] at hvalue
      cases hvalue
      rw [hslots]
      exact ⟨_, rfl, rfl⟩

/-- Popping what has come on top of a machine. -/
theorem pop_level {l : List Value} {w : Value} (h : onMachine j (Vm.pop 1) s = .ok () t)
    (hs : (s.machine j).slots = l ++ [w]) (hj : j < s.machines.size) :
    (t.machine j).slots = l := by
  obtain ⟨vm, hvm⟩ := onMachine_answered h
  rw [onMachine_ok hvm] at h
  cases h
  rw [withVm_machine hj, Vm.pop_answered hvm hs]
  rfl

/-- Looking at the category of a wrapped value pushes it and pops it again. -/
theorem levels_wrappedCategory (id : Nat) : Levels k (Bridge.wrappedCategory id) := by
  intro s c u h
  unfold Bridge.wrappedCategory at h
  rw [bind_ok (get_apply s)] at h
  obtain ⟨_, t, hpush, hrest⟩ := bind_answered h
  obtain ⟨w, _, rfl⟩ := pushWrapped_answered hpush
  obtain ⟨v, hlook, hpop⟩ := ensuring_ok hrest
  obtain ⟨rfl, _⟩ := looked_onMachine (Vm.looks_categoryAt _) hlook
  generalize hj : (s.wrapper id).machine = j at hpop
  by_cases hk : j = k
  · subst hk
    by_cases hsize : j < s.machines.size
    · have hs : ((s.withSlots j ((s.machine j).slots ++ [w])).machine j).slots
          = (s.machine j).slots ++ [w] := by
        rw [withSlots_machine hsize]
      exact pop_level hpop hs (by rw [withSlots_size]; exact hsize)
    · obtain ⟨vm, hvm⟩ := onMachine_answered hpop
      rw [onMachine_ok hvm] at hpop
      cases hpop
      rw [withVm_machine_none (by rw [withSlots_size]; exact hsize), withSlots_machine_none hsize]
  · obtain ⟨vm, hvm⟩ := onMachine_answered hpop
    rw [onMachine_ok hvm] at hpop
    cases hpop
    rw [withVm_machine_ne hk]
    unfold withSlots
    rw [withVm_machine_ne hk]

theorem levels_memberOf (v : HostValue) (name : String) : Levels k (Bridge.memberOf ctx v name) := by
  have hwrapper : ∀ (v : HostValue) (id : Nat), Levels k (Bridge.wrapperMember v id name) := by
    intro v id
    unfold Bridge.wrapperMember
    split
    · exact (levels_wrappedCategory id).bind fun _ => levels_pure _
    · exact (levels_wrappedCategory id).bind fun _ => levels_pure _
    · exact levels_get.bind fun _ => levels_pure _
    · exact levels_pure _
    · exact levels_pure _
  have hspecial : Levels k (Bridge.specialMember? v name) := by
    unfold Bridge.specialMember?
    split
    · exact hwrapper _ _
    · exact levels_pure _
    · exact levels_pure _
  refine hspecial.bind fun special => ?_
  cases special with
  | some x => exact levels_pure x
  | none => exact (levels_ofHost _).bind fun x => levels_individual x

end Session

-- ============================================================= into a table

namespace Vm

variable {vm vm' : Vm} {i : Int} {l r : List Value} {w key : Value} {id : TableId}
  {x : Option Value}

/-- There is no value below the top of an empty stack. -/
theorem slots_of_valueAt? (h : valueAt? i vm = .ok x vm') (hi : i < 0)
    (hregistry : i ≠ registryIndex) : vm.machine.slots ≠ [] := by
  obtain ⟨b, fs, hf⟩ := framed_of_valueAt? h hregistry
  obtain ⟨l, w, r, hs, _⟩ := valueAt?_below h hf (by omega) hregistry
  rw [hs]
  simp

/-- A value that some others are on top of is in the running frame. -/
theorem framed_below (h : valueAt? (-(r.length : Int) - 1) vm = .ok x vm')
    (hs : vm.machine.slots = l ++ w :: r) (hr : r.length < 1000999) :
    ∃ b fs, vm.machine.frames = b :: fs ∧ b ≤ l.length := by
  have hregistry : -(r.length : Int) - 1 ≠ registryIndex := by
    unfold registryIndex
    omega
  obtain ⟨b, fs, hf⟩ := framed_of_valueAt? h hregistry
  obtain ⟨l', w', r', hs', hb, _, hlength, _⟩ := valueAt?_below h hf (by omega) hregistry
  have hlen := congrArg List.length (hs'.symm.trans hs)
  simp only [List.length_append, List.length_cons] at hlen
  exact ⟨b, fs, hf, by omega⟩

/-- What comes of storing a value in a table: it is there, or the stack is all
that has changed. -/
def Stored (id : TableId) (key w : Value) (l : List Value) (vm vm' : Vm) : Prop :=
  ∃ table, (vm.heap.table id).set key w = .ok table
    ∧ vm' = { vm.withSlots l with heap := vm.heap.setTable id table }

theorem store_ends (id : TableId) (key w : Value) (l : List Value) (vm : Vm) :
    Ends (store id key w (vm.withSlots l)) (fun _ vm' => Stored id key w l vm vm')
      fun _ vm' => ∃ l', vm' = vm.withSlots l' := by
  cases hset : ((vm.withSlots l).heap.table id).set key w with
  | ok table =>
      rw [store_eq hset]
      exact ⟨table, hset, rfl⟩
  | error f =>
      rw [store_error hset]
      exact ⟨l, rfl⟩

/-- What comes of asking for the table below some values and storing one of them, if
there is anything on the stack at all. -/
theorem storingAt_ends {rest : TableId → Action Unit} (hi : i = -(r.length : Int) - 1)
    (hr : r.length < 1000999) (hs : vm.machine.slots ≠ [] → vm.machine.slots = l ++ .table id :: r)
    (hstore : ∀ {b fs}, vm.machine.frames = b :: fs → b ≤ l.length →
      b ≤ (l ++ [Value.table id]).length → vm.machine.slots = l ++ .table id :: r →
      vm.machine.slots = (l ++ [.table id]) ++ r →
      (tableAt i >>= rest) vm = store id key w (vm.withSlots (l ++ [.table id]))) :
    Ends ((tableAt i >>= rest) vm) (fun _ vm' => Stored id key w (l ++ [.table id]) vm vm')
      fun _ vm' => ∃ l', vm' = vm.withSlots l' := by
  cases htable : tableAt i vm with
  | error f vm' =>
      have hsame := (looks_tableAt i).ends vm
      rw [htable] at hsame
      obtain rfl : vm' = vm := hsame
      rw [bind_error htable]
      exact ⟨_, vm'.withSlots_self.symm⟩
  | ok id' vm' =>
      have hvalue := tableAt_answered htable
      have hregistry : i ≠ registryIndex := by
        unfold registryIndex
        omega
      have hslots := hs (slots_of_valueAt? hvalue (by omega) hregistry)
      obtain ⟨b, fs, hf, hb⟩ := framed_below (hi ▸ hvalue) hslots hr
      have hb' : b ≤ (l ++ [Value.table id]).length := by
        rw [List.length_append]
        exact Nat.le_add_right_of_le hb
      rw [hstore hf hb hb' hslots (hslots.trans (List.append_cons ..))]
      exact store_ends id key w _ vm

/-- Storing the top into the table below it, if there is anything on the stack
at all. -/
theorem setKey_ends (hs : vm.machine.slots ≠ [] → vm.machine.slots = l ++ [.table id, w]) :
    Ends (setKey (-2) key vm) (fun _ vm' => Stored id key w (l ++ [.table id]) vm vm')
      fun _ vm' => ∃ l', vm' = vm.withSlots l' :=
  storingAt_ends (r := [w]) rfl (by simp) hs fun hf hb hb' hslots hslots' =>
    setKey_apply hf hslots' hb' (valueAt?_second hf hslots hb)

/-- Storing the top under the key below it into the table below that. -/
theorem rawSet_ends (hs : vm.machine.slots ≠ [] → vm.machine.slots = l ++ [.table id, key, w]) :
    Ends (rawSet (-3) vm) (fun _ vm' => Stored id key w (l ++ [.table id]) vm vm')
      fun _ vm' => ∃ l', vm' = vm.withSlots l' :=
  storingAt_ends (r := [key, w]) rfl (by simp) hs fun hf hb hb' hslots hslots' =>
    rawSet_apply hf hslots' hb' (valueAt?_third hf hslots hb)

end Vm

end StackBridge
