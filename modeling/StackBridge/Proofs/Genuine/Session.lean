import StackBridge.Proofs.Genuine.Machine
import StackBridge.Proofs.Push.Fresh
import StackBridge.Proofs.Wrapper.Course

/-!
Sessions of genuine values, and when a session has no room left for more of them
(`Cramped`): for another reference, because a table has as many entries as there are
positive integers of 64 bits, or for a list, because one longer than that has been
made a table. A session without room is not said to have genuine values; but it stays
without, whatever a bridge operation does to it, so that no such operation leads from a
session that is in order (`Sane`) to one that is not.

Room for references is counted in entries, together with the wrappers that have been
released: each of those may have taken an entry away.
-/

namespace StackBridge

namespace Table

variable {t : Table} {k : Key} {v : Value} {n : Int}

/-- All keys are positive integers. -/
def Numbered (t : Table) : Prop := ∀ e ∈ t.entries, ∃ n : Int, e.1 = .int n ∧ 0 < n

/-- What becomes of a list with more elements than there are positive integers of 64
bits: a table with nothing but such numbers for keys, one of which no value addresses. -/
def Overlong (t : Table) : Prop := t.Numbered ∧ ∃ n, ¬ Storable n ∧ t.has (.int n) = true

theorem Overlong.not_empty (h : t.Overlong) : t ≠ .empty := by
  rintro rfl
  obtain ⟨_, n, _, hn⟩ := h
  cases hn

theorem length_putEntry (k : Key) (v : Value) (es : List (Key × Value)) :
    es.length ≤ (putEntry k v es).length := by
  induction es with
  | nil => exact Nat.zero_le _
  | cons e es ih =>
      unfold putEntry
      split
      · exact Nat.le_refl _
      · exact Nat.succ_le_succ ih

/-- Nothing goes when something is stored. -/
theorem size_put (t : Table) (k : Key) (v : Value) : t.size ≤ (t.put k v).size := by
  have h := length_putEntry k v t.entries
  unfold size put
  dsimp only
  rw [position_entries]
  exact h

/-- One entry goes at most when a key is cleared. -/
theorem size_erase (hkeyed : t.Keyed) (k : Key) : t.size ≤ (t.erase k).size + 1 := by
  have hkeys : (t.erase k).entries.map (·.1) = (t.entries.map (·.1)).erase k := by
    rw [hkeyed.nodup.erase_eq_filter, List.filter_map]
    rfl
  have hlength := congrArg List.length hkeys
  have hless := (t.entries.map (·.1)).le_length_erase (a := k)
  rw [List.length_map] at hlength hless
  unfold size
  omega

end Table

/-- Between two states of a machine tables have been made at most, and the registry is
there if it was. -/
def Vm.Seats (vm vm' : Vm) : Prop :=
  vm.heap.tables.size ≤ vm'.heap.tables.size
    ∧ (vm.machine.registry < vm.heap.tables.size → vm'.machine.registry < vm'.heap.tables.size)

instance : Vm.Lasts Vm.Seats where
  refl _ := ⟨Nat.le_refl _, id⟩
  trans _ _ _ h h' := ⟨Nat.le_trans h.1 h'.1, h'.2 ∘ h.2⟩
  steady h := by
    unfold Vm.Seats
    rw [h.tables, h.registry]
    exact ⟨Nat.le_refl _, id⟩
  store _ := by
    unfold Vm.Seats
    rw [Heap.setTable_size]
    exact ⟨Nat.le_refl _, id⟩
  setFree _ _ _ := ⟨Nat.le_refl _, id⟩

theorem Vm.seats_pushTable : Keeps Vm.Seats Vm.pushTable := by
  intro vm
  have hsize : (vm.heap.tables.push Table.empty).size = vm.heap.tables.size + 1 :=
    Array.size_push _
  refine ⟨?_, fun h => ?_⟩
  · show vm.heap.tables.size ≤ (vm.heap.tables.push Table.empty).size
    omega
  · show vm.machine.registry < (vm.heap.tables.push Table.empty).size
    rw [hsize]
    exact Nat.lt_succ_of_lt h

theorem Vm.seats_close : Keeps Vm.Seats Vm.close := by
  intro vm
  have hsize : (vm.heap.tables.push Table.empty).size = vm.heap.tables.size + 1 :=
    Array.size_push _
  refine ⟨?_, fun _ => ?_⟩
  · show vm.heap.tables.size ≤ (vm.heap.tables.push Table.empty).size
    omega
  · show vm.heap.tables.size < (vm.heap.tables.push Table.empty).size
    omega

/-- How many wrappers have been released. -/
def Wrapper.released (ws : Array Wrapper) : Nat := ws.countP fun w => decide (w.anchor = .released)

namespace Session

/-- One of the tables from some identity on, and no registry, is that of a list which
is too long. -/
def Overgrown (lo : TableId) (s : Session) : Prop :=
  ∃ id, lo ≤ id ∧ (∀ k, (s.machine k).registry ≠ id) ∧ (s.heap.table id).Overlong

/-- A session without room for another reference, or for a list that is in it. -/
def Cramped (s : Session) : Prop :=
  (∃ id, maxInteger ≤ ((s.heap.table id).size : Int) + Wrapper.released s.wrappers) ∨ s.Overgrown 0

/-- A session of genuine values. -/
structure Genuine (s : Session) : Prop where
  vm : ∀ k, (s.vm k).Genuine
  registry : ∀ k, (s.machine k).registry < s.heap.tables.size
  anchors : ∀ id r, (s.wrapper id).anchor = .entry r → inRange r = true

/-- A session in order: its tables are tidy, and its values are genuine as long as there
is room for them. -/
structure Sane (s : Session) : Prop where
  tidy : s.heap.Throughout Table.Tidy
  genuine : s.Genuine ∨ s.Cramped

variable {s t u : Session} {k : MachineId} {lo : TableId} {ctx : Context}

/-- A machine is put back with the registry that it had. -/
theorem withVm_registry {vm : Vm} (h : vm.machine.registry = (s.machine k).registry)
    (j : MachineId) : ((s.withVm k vm).machine j).registry = (s.machine j).registry := by
  by_cases hjk : k = j
  · subst hjk
    by_cases hk : k < s.machines.size
    · rw [withVm_machine hk, h]
    · rw [withVm_machine_none hk]
  · rw [withVm_machine_ne hjk]

-- ============================================================== genuine values

theorem Genuine.same (hs : s.Genuine) (hheap : t.heap = s.heap)
    (hmachines : t.machines = s.machines)
    (hanchors : ∀ id r, (t.wrapper id).anchor = .entry r → inRange r = true) : t.Genuine := by
  have hmachine : ∀ k, t.machine k = s.machine k := fun k => by
    unfold Session.machine
    rw [hmachines]
  refine ⟨fun k => ?_, fun k => ?_, hanchors⟩
  · unfold Session.vm
    rw [hheap, hmachine]
    exact hs.vm k
  · rw [hheap, hmachine]
    exact hs.registry k

/-- One machine and the heap are put back. -/
theorem Genuine.withVm (hs : s.Genuine) {vm : Vm} (hvm : vm.Genuine)
    (htables : s.heap.tables.size ≤ vm.heap.tables.size)
    (hregistry : vm.machine.registry < vm.heap.tables.size) : (s.withVm k vm).Genuine := by
  have hmachine : ∀ j, (s.withVm k vm).machine j = vm.machine
      ∨ (s.withVm k vm).machine j = s.machine j := by
    intro j
    by_cases hjk : k = j
    · subst hjk
      by_cases hk : k < s.machines.size
      · exact .inl (withVm_machine hk vm)
      · exact .inr (withVm_machine_none hk vm)
    · exact .inr (withVm_machine_ne hjk s vm)
  refine ⟨fun j => ⟨?_, hvm.tables, ?_⟩, fun j => ?_, hs.anchors⟩
  · show ∀ v ∈ ((s.withVm k vm).machine j).slots, v.Genuine
    rcases hmachine j with h | h
    · rw [h]
      exact hvm.slots
    · rw [h]
      exact (hs.vm j).slots
  · show ∀ e ∈ ((s.withVm k vm).machine j).freeRefs, ∀ r ∈ e.2, inRange r = true
    rcases hmachine j with h | h
    · rw [h]
      exact hvm.refs
    · rw [h]
      exact (hs.vm j).refs
  · show ((s.withVm k vm).machine j).registry < vm.heap.tables.size
    rcases hmachine j with h | h
    · rw [h]
      exact hregistry
    · rw [h]
      exact Nat.lt_of_lt_of_le (hs.registry j) htables

/-- On a machine that keeps its registry. -/
theorem Genuine.onMachine (hs : s.Genuine) {α : Type} {P : α → Prop} {a : Vm.Action α}
    (ha : Vm.Yields P a) (hseats : Keeps Vm.Seats a) :
    (final (onMachine k a s)).Genuine := by
  obtain ⟨htables, hregistry⟩ := hseats (s.vm k)
  rw [onMachine_final]
  exact hs.withVm (ha.final (hs.vm k)) htables (hregistry (hs.registry k))

-- ================================================================ without room

/-- A session that leaves no more room than the one before: entries go only with
wrappers that are released, and from no other tables than registries. -/
structure Crowds (s t : Session) : Prop where
  size : ∀ id, (s.heap.table id).size + Wrapper.released s.wrappers
    ≤ (t.heap.table id).size + Wrapper.released t.wrappers
  table : ∀ id, (∀ k, (s.machine k).registry ≠ id) → s.heap.table id ≠ .empty →
    t.heap.table id = s.heap.table id
  registry : ∀ id, (∀ k, (s.machine k).registry ≠ id) → s.heap.table id ≠ .empty →
    ∀ k, (t.machine k).registry ≠ id

theorem Overgrown.crowds (hs : s.Overgrown lo) (h : Crowds s t) : t.Overgrown lo := by
  obtain ⟨id, hlo, hregistry, hlong⟩ := hs
  refine ⟨id, hlo, h.registry id hregistry hlong.not_empty, ?_⟩
  rw [h.table id hregistry hlong.not_empty]
  exact hlong

theorem Cramped.crowds (hs : s.Cramped) (h : Crowds s t) : t.Cramped := by
  rcases hs with ⟨id, hfull⟩ | hlong
  · have hsize := h.size id
    exact .inl ⟨id, by omega⟩
  · exact .inr (hlong.crowds h)

theorem Overgrown.mono {lo' : TableId} (hs : s.Overgrown lo) (hlo : lo' ≤ lo) :
    s.Overgrown lo' := by
  obtain ⟨id, hid, h⟩ := hs
  exact ⟨id, Nat.le_trans hlo hid, h⟩

/-- A table that is not empty is on the heap. -/
theorem lt_size_of_table {h : Heap} {id : TableId} (hid : h.table id ≠ .empty) :
    id < h.tables.size := by
  by_contra hout
  refine hid ?_
  unfold Heap.table
  rw [Array.getD_eq_getD_getElem?, Array.getElem?_eq_none (Nat.le_of_not_lt hout)]
  rfl

theorem Fresh.crowds (h : Fresh s t) : Crowds s t where
  size id := by
    rw [h.wrappers]
    by_cases hid : id < s.heap.tables.size
    · rw [h.table id hid]
    · have hempty : s.heap.table id = .empty := by
        by_contra hsome
        exact hid (lt_size_of_table hsome)
      rw [hempty]
      exact Nat.add_le_add_right (Nat.zero_le _) _
  table id _ hid := h.table id (lt_size_of_table hid)
  registry id hregistry hid k := by
    rcases h.machine k with hsame | ⟨_, hnew⟩
    · rw [hsame.registry]
      exact hregistry k
    · exact Nat.ne_of_gt (Nat.lt_of_lt_of_le (lt_size_of_table hid) hnew)

-- ============================================================ sessions in order

/-- From a session that is in order comes one that is; one without room stays without. -/
def Saves (s t : Session) : Prop := s.Sane → t.Sane ∧ (s.Cramped → t.Cramped)

/-- What changes no table that there was. -/
theorem Saves.fresh (htidy : OnHeap (Heap.Stays Table.Tidy) s t) (hst : Fresh s t)
    (hgenuine : s.Genuine → t.Genuine ∨ t.Cramped) : Saves s t := fun hs =>
  have hcramped : s.Cramped → t.Cramped := fun h => h.crowds hst.crowds
  ⟨⟨htidy hs.tidy, hs.genuine.elim hgenuine fun h => .inr (hcramped h)⟩, hcramped⟩

theorem Saves.same (hheap : t.heap = s.heap) (hmachines : t.machines = s.machines)
    (hwrappers : t.wrappers = s.wrappers) : Saves s t := by
  refine .fresh (onHeap_same hheap) (.of_same hheap hmachines hwrappers) fun hg =>
    .inl (hg.same hheap hmachines fun id => ?_)
  unfold Session.wrapper
  rw [hwrappers]
  exact hg.anchors id

instance : Calm Saves where
  refl _ h := ⟨h, id⟩
  trans _ _ _ h h' hs := ⟨(h' (h hs).1).1, (h' (h hs).1).2 ∘ (h hs).2⟩
  unseen hheap hmachines hwrappers _ := .same hheap hmachines hwrappers

instance : Describes ctx Saves := describes_of_blind ctx Saves.same

instance : Moves Saves where
  steady k ha s := .fresh (Moves.steady k ha s) (Moves.steady k ha s) fun hg =>
    .inl (hg.onMachine (Vm.yields_steady ha) (Vm.keeps_steady ha))
  pushTable k s := .fresh (Moves.pushTable k s) (Moves.pushTable k s) fun hg =>
    .inl (hg.onMachine Vm.yields_pushTable Vm.seats_pushTable)
  close k s := .fresh (Moves.close k s) (Moves.close k s) fun hg =>
    .inl (hg.onMachine Vm.yields_close Vm.seats_close)

-- =================================================================== wrappers

/-- Writing to the registry of a machine, with other wrappers than before. -/
theorem crowds_registry {vm : Vm} {wrappers : Array Wrapper}
    (hregistry : vm.machine.registry = (s.machine k).registry)
    (htable : ∀ id ≠ (s.machine k).registry, vm.heap.table id = s.heap.table id)
    (hreleased : Wrapper.released s.wrappers ≤ Wrapper.released wrappers)
    (hsize : (s.heap.table (s.machine k).registry).size + Wrapper.released s.wrappers
      ≤ (vm.heap.table (s.machine k).registry).size + Wrapper.released wrappers) :
    Crowds s { s.withVm k vm with wrappers } where
  size id := by
    by_cases hid : id = (s.machine k).registry
    · rw [hid]
      exact hsize
    · show _ ≤ (vm.heap.table id).size + Wrapper.released wrappers
      rw [htable id hid]
      exact Nat.add_le_add_left hreleased _
  table id hid _ := htable id (Ne.symm (hid k))
  registry id hid _ j := by
    show ((s.withVm k vm).machine j).registry ≠ id
    rw [withVm_registry hregistry]
    exact hid j

theorem released_push (ws : Array Wrapper) (k : MachineId) (r : Int) :
    Wrapper.released (ws.push ⟨k, .ofRef r⟩) = Wrapper.released ws := by
  have hkept : Anchor.ofRef r ≠ .released := by
    unfold Anchor.ofRef
    split <;> exact Anchor.noConfusion
  unfold Wrapper.released
  rw [Array.countP_push]
  simp [hkept]

/-- A wrapper is released once. -/
theorem released_set {id : Nat} (k : MachineId) (hid : (s.wrapper id).anchor ≠ .released) :
    Wrapper.released (s.wrappers.setIfInBounds id ⟨k, .released⟩)
      = Wrapper.released s.wrappers + 1 := by
  have hlt : id < s.wrappers.size := lt_size_of_wrapper (j := (s.wrapper id).machine) rfl hid
  have hold : s.wrappers[id].anchor ≠ .released := by
    simpa [Session.wrapper, Array.getD_eq_getD_getElem?, hlt] using hid
  have hset : s.wrappers.setIfInBounds id ⟨k, .released⟩
      = s.wrappers.set id ⟨k, .released⟩ hlt := by
    simp [Array.setIfInBounds, hlt]
  unfold Wrapper.released
  rw [hset, Array.countP_set]
  simp [hold]

/-- Takes the top for a new wrapper; a wrapper is made of a copy of a slot. -/
def wrapTop (k : MachineId) : Action Nat := do
  let r ← onMachine k (Vm.ref registryIndex)
  let s ← get
  set { s with wrappers := s.wrappers.push ⟨k, .ofRef r⟩ }
  return s.wrappers.size

/-- A session without room has none for another reference either. -/
theorem Cramped.wrapTop (hs : s.Cramped) (k : MachineId) : (final (wrapTop k s)).Cramped := by
  unfold Session.wrapTop
  have hreleased : ∀ r, Wrapper.released s.wrappers
      = Wrapper.released (s.wrappers.push ⟨k, .ofRef r⟩) :=
    fun r => (released_push s.wrappers k r).symm
  rcases Vm.ref_cases (s.vm k) with ⟨f, href⟩ | ⟨l, v, _, ⟨rfl, href⟩ | ⟨_, href⟩⟩
  · rw [bind_error (onMachine_error href), withVm_vm]
    exact hs
  · rw [bind_ok (onMachine_ok href)]
    exact hs.crowds (crowds_registry rfl (fun _ _ => rfl) (Nat.le_of_eq (hreleased _))
      (Nat.add_le_add_left (Nat.le_of_eq (hreleased _)) _))
  · rw [bind_ok (onMachine_ok href)]
    refine hs.crowds (crowds_registry (Vm.afterRef_registry ..)
      (fun id hid => Heap.table_setTable_ne (Ne.symm hid) _) (Nat.le_of_eq (hreleased _))
      (Nat.add_le_add ?_ (Nat.le_of_eq (hreleased _))))
    show _ ≤ ((s.heap.setTable (s.machine k).registry
      ((s.heap.table (s.machine k).registry).put _ v)).table (s.machine k).registry).size
    by_cases hid : (s.machine k).registry < s.heap.tables.size
    · rw [Heap.table_setTable hid]
      exact Table.size_put _ _ _
    · rw [Heap.setTable_none hid]

theorem saves_wrapTop (k : MachineId) : Keeps Saves (wrapTop k) := by
  intro s hs
  have htidy : Keeps (OnHeap (Heap.Stays Table.Tidy)) (wrapTop k) :=
    (Writes.ref _ registryIndex).bind fun r => fun s => Writes.rewrapped rfl rfl rfl
  refine ⟨⟨htidy s hs.tidy, ?_⟩, fun hc => hc.wrapTop k⟩
  by_cases hcramped : s.Cramped
  · exact .inr (hcramped.wrapTop k)
  unfold wrapTop
  have hg := hs.genuine.resolve_right hcramped
  have href := Vm.ref_genuine registryIndex (hg.vm k) fun id => by
    have hroom := not_exists.mp (not_or.mp hcramped).1 id
    show ((s.heap.table id).size : Int) < maxInteger
    omega
  obtain ⟨htables, hregistry⟩ := Vm.keeps_ref (R := Vm.Seats) registryIndex (s.vm k)
  cases hr : Vm.ref registryIndex (s.vm k) with
  | error f vm =>
      rw [hr] at href htables hregistry
      rw [bind_error (onMachine_error hr)]
      exact .inl (hg.withVm href htables (hregistry (hg.registry k)))
  | ok r vm =>
      rw [hr] at href htables hregistry
      rw [bind_ok (onMachine_ok hr)]
      have hput := hg.withVm (k := k) href.2 htables (hregistry (hg.registry k))
      refine .inl (hput.same rfl rfl fun id r' hanchor => ?_)
      have hwrapper := congrArg Wrapper.anchor (wrapper_push (s.withVm k vm) ⟨k, .ofRef r⟩ id)
      replace hanchor := hwrapper.symm.trans hanchor
      split at hanchor
      · -- the new wrapper
        unfold Anchor.ofRef at hanchor
        split at hanchor
        · cases hanchor
        · cases hanchor
          exact href.1
      · exact hg.anchors id r' hanchor

/-- What a wrapper gives back is of 64 bits, if there is anything. -/
theorem Genuine.inRange_number (hs : s.Genuine) (id : Nat) :
    inRange (s.wrapper id).anchor.number = true := by
  cases ha : (s.wrapper id).anchor with
  | released => decide
  | nil => exact Vm.inRange_nilRef
  | entry r => exact hs.anchors id r ha

/-- A wrapper that has not been released is, and its reference is given back unless the
machine is closed or there is none. -/
theorem release_cases {id : Nat} (hid : (s.wrapper id).anchor ≠ .released) :
    ∃ vm, (vm = s.vm (s.wrapper id).machine ∨ 0 ≤ (s.wrapper id).anchor.number
        ∧ vm = (s.vm (s.wrapper id).machine).afterUnref (s.wrapper id).anchor.number)
      ∧ Bridge.release id s = .ok () { s.withVm (s.wrapper id).machine vm with
          wrappers := s.wrappers.setIfInBounds id ⟨(s.wrapper id).machine, .released⟩ } := by
  cases hclosed : (s.machine (s.wrapper id).machine).closed with
  | true =>
      refine ⟨_, .inl rfl, ?_⟩
      rw [release_closed hid hclosed, withVm_vm]
  | false =>
      by_cases hr : (s.wrapper id).anchor.number < 0
      · exact ⟨_, .inl rfl, release_open hid hclosed (Vm.unref_none hr)⟩
      · exact ⟨_, .inr ⟨Int.not_lt.mp hr, rfl⟩,
          release_open hid hclosed (Vm.unref_apply (Int.not_lt.mp hr))⟩

/-- Releasing a wrapper makes no room: it takes no more than its entry away. -/
theorem Cramped.release (hs : s.Cramped) (htidy : s.heap.Throughout Table.Tidy) {id : Nat}
    (hid : (s.wrapper id).anchor ≠ .released) : (final (Bridge.release id s)).Cramped := by
  obtain ⟨vm, hvm, heq⟩ := release_cases hid
  rw [heq]
  have hset := released_set (s.wrapper id).machine hid
  generalize (s.wrapper id).machine = k, (s.wrapper id).anchor.number = r at hset hvm ⊢
  rcases hvm with rfl | ⟨_, rfl⟩
  · refine hs.crowds (crowds_registry rfl (fun _ _ => rfl) (by omega) ?_)
    show (s.heap.table (s.machine k).registry).size + _
      ≤ (s.heap.table (s.machine k).registry).size + _
    omega
  · refine hs.crowds (crowds_registry rfl
      (fun id hid => Heap.table_setTable_ne (Ne.symm hid) _) (by omega) ?_)
    have herase := Table.size_erase (htidy (s.machine k).registry).keyed (.int r)
    show _ ≤ ((s.heap.setTable (s.machine k).registry
      ((s.heap.table (s.machine k).registry).erase _)).table (s.machine k).registry).size + _
    by_cases hregistry : (s.machine k).registry < s.heap.tables.size
    · rw [Heap.table_setTable hregistry]
      omega
    · rw [Heap.setTable_none hregistry]
      omega

/-- And genuine values stay genuine. -/
theorem Genuine.release (hs : s.Genuine) {id : Nat} (hid : (s.wrapper id).anchor ≠ .released) :
    (final (Bridge.release id s)).Genuine := by
  obtain ⟨vm, hvm, heq⟩ := release_cases hid
  rw [heq]
  have hput : (s.withVm (s.wrapper id).machine vm).Genuine := by
    rcases hvm with rfl | ⟨hr, rfl⟩
    · rw [withVm_vm]
      exact hs
    · have hgiven := hs.onMachine (k := (s.wrapper id).machine)
        (Vm.yields_unref registryIndex (hs.inRange_number id)) (Vm.keeps_unref registryIndex _)
      rw [onMachine_ok (Vm.unref_apply hr)] at hgiven
      exact hgiven
  refine hput.same rfl rfl fun id' r hanchor => ?_
  have hwrapper := congrArg Wrapper.anchor
    (wrapper_set s id id' ⟨(s.wrapper id).machine, .released⟩)
  replace hanchor := hwrapper.symm.trans hanchor
  split at hanchor
  · cases hanchor
  · exact hs.anchors id' r hanchor

theorem saves_release (w : Nat) : Keeps Saves (Bridge.release w) := by
  intro s hs
  by_cases hw : (s.wrapper w).anchor = .released
  · rw [release_released hw]
    exact ⟨hs, id⟩
  · have hcramped : s.Cramped → (final (Bridge.release w s)).Cramped :=
      fun hc => hc.release hs.tidy hw
    exact ⟨⟨Wraps.release (R := OnHeap (Heap.Stays Table.Tidy)) w s hs.tidy,
      hs.genuine.imp (fun hg => hg.release hw) hcramped⟩, hcramped⟩

instance : Wraps Saves where
  wrap k index := (Moves.steady k (Vm.steady_pushCopy index)).bind fun _ => saves_wrapTop k
  release := saves_release

end Session

end StackBridge
