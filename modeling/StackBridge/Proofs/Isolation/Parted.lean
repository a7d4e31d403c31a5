import StackBridge.Proofs.Frames.Calls
import StackBridge.Proofs.Isolation.Inherited
import StackBridge.Proofs.Session.Kept

/-!
The machines of a session have no object in common, though they share a heap
(`Parted`). An action of one machine that inherits what it reaches
(`Vm.Inherits`) takes nothing from the others and writes to none of their tables,
so the machines stay apart, and each of them reaches nothing but what it has
reached before and what is new (`Derives`).

A value that has been raised is on no stack until a protected call takes it over,
and yet it must be nobody else's when that comes. So what is kept (`KeepsApart`) is
asked for with any values held besides, as if they were on the stacks, and a value
that is raised may then be held by the machine that it comes from.
-/

namespace StackBridge

namespace Session

open Bridge Law

variable {s s' t u : Session} {j k : MachineId} {n : Nat} {v : Value} {α β : Type}
  {g : Option MachineId} {ctx : Context} {fuel : Nat} {args wanted : Int}

-- ==================================================================== reaching

/-- What can be reached from a machine of a session. -/
def Reaches (s : Session) (k : MachineId) (v : Value) : Prop := (s.vm k).Reaches v

/-- A session of `n` machines, no two of which reach the same object; all that they
reach is on the heap. The current machine and the ones of the wrappers are among
them. -/
structure Parted (n : Nat) (s : Session) : Prop where
  size : s.machines.size = n
  current : s.current < n
  home : ∀ id, (s.wrapper id).machine < n
  whole : ∀ k < n, ∀ v : Value, s.Reaches k v → s.heap.Has v
  apart : ∀ j < n, ∀ k < n, j ≠ k → ∀ v : Value, v.IsObject → s.Reaches j v → ¬ s.Reaches k v

/-- Nothing goes from the heap, and each machine reaches no objects but those that it
has reached before and new ones. -/
structure Derives (n : Nat) (s t : Session) : Prop where
  grows : s.heap.Grows t.heap
  objects : ∀ k < n, ∀ v : Value, v.IsObject → t.Reaches k v →
    s.Reaches k v ∨ s.heap.Brings t.heap v

theorem Derives.refl (n : Nat) (s : Session) : Derives n s s :=
  ⟨.refl _, fun _ _ _ _ h => .inl h⟩

theorem Derives.trans (h : Derives n s t) (h' : Derives n t u) : Derives n s u where
  grows := h.grows.trans h'.grows
  objects k hk v hv hreach := by
    rcases h'.objects k hk v hv hreach with hbefore | ⟨hhas, hnew⟩
    · exact (h.objects k hk v hv hbefore).imp_right fun hmade =>
        ⟨hmade.1.grows h'.grows, hmade.2⟩
    · exact .inr ⟨hhas, fun hold => hnew (hold.grows h.grows)⟩

/-- Once it is there, an object that a machine does not reach is one that it never
reaches. -/
theorem Derives.unreached (h : Derives n s t) (hk : k < n) (hv : v.IsObject)
    (hhas : s.heap.Has v) (hnot : ¬ s.Reaches k v) : ¬ t.Reaches k v := fun hreach =>
  (h.objects k hk v hv hreach).elim hnot fun hmade => hmade.2 hhas

/-- Where nothing is different on the machines and the heap. -/
theorem reaches_same (hheap : t.heap = s.heap) (hmachines : t.machines = s.machines) :
    t.Reaches k v ↔ s.Reaches k v := by
  unfold Session.Reaches Session.vm Session.machine
  rw [hheap, hmachines]

theorem derives_same (hheap : t.heap = s.heap) (hmachines : t.machines = s.machines) :
    Derives n s t := by
  refine ⟨?_, fun k _ v _ h => .inl ((reaches_same hheap hmachines).1 h)⟩
  rw [hheap]
  exact .refl _

theorem Parted.same (h : Parted n s) (hheap : t.heap = s.heap) (hmachines : t.machines = s.machines)
    (hcurrent : t.current < n) (hhome : ∀ id, (t.wrapper id).machine < n) : Parted n t where
  size := by rw [hmachines, h.size]
  current := hcurrent
  home := hhome
  whole k hk v hv := by
    rw [hheap]
    exact h.whole k hk v ((reaches_same hheap hmachines).1 hv)
  apart j hj k hk hne v hv hreach hreach' :=
    h.apart j hj k hk hne v hv ((reaches_same hheap hmachines).1 hreach)
      ((reaches_same hheap hmachines).1 hreach')

theorem Parted.lt_size (h : Parted n s) (hk : k < n) : k < s.machines.size := by
  rw [h.size]
  exact hk

-- ================================================================ one machine

theorem reaches_withVm (hk : k < s.machines.size) {vm : Vm} :
    (s.withVm k vm).Reaches k v ↔ vm.Reaches v := by
  unfold Session.Reaches
  rw [vm_withVm hk]

/-- An action of one machine changes nothing of what another one reaches. -/
theorem Parted.reaches_other (h : Parted n s) (hj : j < n) (hk : k < n) (hne : j ≠ k) {vm : Vm}
    (hin : (s.vm k).Inherits vm) (hreach : (s.withVm k vm).Reaches j v) : s.Reaches j v := by
  have hmachine : ((s.withVm k vm).vm j).machine = s.machine j := withVm_machine_ne hne.symm s vm
  have htable : ∀ id, s.Reaches j (.table id) → vm.heap.table id = s.heap.table id := fun id hid =>
    hin.others id (h.whole j hj _ hid) (h.apart j hj k hk hne (.table id) trivial hid)
  unfold Session.Reaches at hreach
  induction hreach with
  | slot slot =>
      rw [hmachine] at slot
      exact .slot slot
  | registry =>
      rw [hmachine]
      exact .registry
  | key _ entry ih =>
      have hentry := htable _ ih ▸ (show _ ∈ (vm.heap.table _).entries from entry)
      exact Vm.Reaches.key ih hentry
  | value _ entry ih =>
      have hentry := htable _ ih ▸ (show _ ∈ (vm.heap.table _).entries from entry)
      exact Vm.Reaches.value ih hentry

theorem Parted.derives_withVm (h : Parted n s) (hk : k < n) {vm : Vm}
    (hin : (s.vm k).Inherits vm) : Derives n s (s.withVm k vm) where
  grows := hin.grows
  objects j hj v hv hreach := by
    by_cases hjk : j = k
    · subst hjk
      exact hin.inherited ((reaches_withVm (h.lt_size hk)).1 hreach) hv
    · exact .inl (h.reaches_other hj hk hjk hin hreach)

/-- Where one machine inherits what it reaches the machines stay apart. -/
theorem Parted.withVm (h : Parted n s) (hk : k < n) {vm : Vm} (hin : (s.vm k).Inherits vm) :
    Parted n (s.withVm k vm) := by
  have hother : ∀ {j v}, j < n → j ≠ k → (s.withVm k vm).Reaches j v → s.Reaches j v :=
    fun hj hne => h.reaches_other hj hk hne hin
  have hthere : ∀ {j v}, j < n → j ≠ k → v.IsObject → (s.withVm k vm).Reaches j v →
      ¬ (s.withVm k vm).Reaches k v := by
    intro j v hj hne hv hreach hreach'
    have hbefore := hother hj hne hreach
    rcases (h.derives_withVm hk hin).objects k hk v hv hreach' with hk' | ⟨_, hnew⟩
    · exact h.apart j hj k hk hne v hv hbefore hk'
    · exact hnew (h.whole j hj v hbefore)
  refine ⟨(withVm_size s k vm).trans h.size, h.current, h.home, fun j hj v hreach => ?_,
    fun i hi j hj hne v hv hreach hreach' => ?_⟩
  · by_cases hv : v.IsObject
    · rcases (h.derives_withVm hk hin).objects j hj v hv hreach with hbefore | hmade
      · exact (h.whole j hj v hbefore).grows hin.grows
      · exact hmade.1
    · cases v <;> first | trivial | exact absurd trivial hv
  · by_cases hik : i = k
    · subst hik
      exact hthere hj (Ne.symm hne) hv hreach' hreach
    · by_cases hjk : j = k
      · subst hjk
        exact hthere hi hik hv hreach hreach'
      · exact h.apart i hi j hj hne v hv (hother hi hik hreach) (hother hj hjk hreach')

-- ==================================================================== holding

/-- A session whose machines hold other values besides. -/
def holding (s : Session) (held : MachineId → List Value) : Session :=
  { s with machines := s.machines.mapIdx fun k m => { m with slots := m.slots ++ held k } }

theorem holding_size (s : Session) (held : MachineId → List Value) :
    (s.holding held).machines.size = s.machines.size :=
  Array.size_mapIdx

theorem holding_vm (hk : k < s.machines.size) (held : MachineId → List Value) :
    (s.holding held).vm k = (s.vm k).withSlots ((s.machine k).slots ++ held k) := by
  unfold Session.vm Session.machine holding
  simp [Array.getD_eq_getD_getElem?, hk, Vm.withSlots]

/-- Holding nothing makes no difference. -/
theorem holding_nothing (s : Session) : s.holding (fun _ => []) = s := by
  have hsame : (s.machines.mapIdx fun _ m => { m with slots := m.slots ++ [] }) = s.machines := by
    apply Array.ext_getElem?
    intro j
    rw [Array.getElem?_mapIdx]
    cases s.machines[j]? <;> simp
  unfold holding
  rw [hsame]

/-- What becomes of a machine that holds something else from then on. -/
theorem holding_withVm {held held' : MachineId → List Value} (h : ∀ j ≠ k, held' j = held j)
    (vm : Vm) : (s.withVm k vm).holding held'
      = (s.holding held).withVm k (vm.withSlots (vm.machine.slots ++ held' k)) := by
  have hmachines : ((s.withVm k vm).holding held').machines
      = ((s.holding held).withVm k (vm.withSlots (vm.machine.slots ++ held' k))).machines := by
    apply Array.ext_getElem?
    intro j
    unfold holding withVm
    simp only [Array.getElem?_mapIdx, Array.getElem?_setIfInBounds, Array.size_mapIdx]
    by_cases hjk : k = j
    · subst hjk
      by_cases hk : k < s.machines.size
      · simp [hk, Vm.withSlots]
      · simp [hk]
    · simp only [if_neg hjk, h j (Ne.symm hjk)]
  exact congrArg (fun machines => { s with heap := vm.heap, machines }) hmachines

/-- Whatever the machines hold besides, they stay apart and take nothing from each
other. -/
def KeepsApart (n : Nat) (s t : Session) : Prop :=
  ∀ held, Parted n (s.holding held) →
    Parted n (t.holding held) ∧ Derives n (s.holding held) (t.holding held)

theorem KeepsApart.refl (n : Nat) (s : Session) : KeepsApart n s s :=
  fun _ h => ⟨h, .refl n _⟩

theorem KeepsApart.trans (h : KeepsApart n s t) (h' : KeepsApart n t u) : KeepsApart n s u :=
  fun held hs =>
    have ht := h held hs
    have hu := h' held ht.1
    ⟨hu.1, ht.2.trans hu.2⟩

/-- And so without anything held. -/
theorem KeepsApart.apart (h : KeepsApart n s t) (hs : Parted n s) : Parted n t ∧ Derives n s t := by
  have hnothing := h fun _ => []
  rw [holding_nothing, holding_nothing] at hnothing
  exact hnothing hs

theorem keepsApart_withVm (hk : k < n) {vm : Vm} (hin : (s.vm k).Inherits vm) :
    KeepsApart n s (s.withVm k vm) := by
  intro held hs
  have hlt : k < s.machines.size := by
    rw [← holding_size s held]
    exact hs.lt_size hk
  have hin' : ((s.holding held).vm k).Inherits (vm.withSlots (vm.machine.slots ++ held k)) := by
    rw [holding_vm hlt]
    exact hin.withSlots (held k)
  rw [holding_withVm fun _ _ => rfl]
  exact ⟨hs.withVm hk hin', hs.derives_withVm hk hin'⟩

/-- Where nothing is different on the machines and the heap. -/
theorem keepsApart_same (hheap : t.heap = s.heap) (hmachines : t.machines = s.machines)
    (hcurrent : t.current < n) (hhome : ∀ id, (t.wrapper id).machine < n) : KeepsApart n s t := by
  intro held hs
  have hmachines' : (t.holding held).machines = (s.holding held).machines := by
    unfold holding
    rw [hmachines]
  exact ⟨hs.same hheap hmachines' hcurrent hhome, derives_same hheap hmachines'⟩

end Session

end StackBridge
