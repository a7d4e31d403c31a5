import StackBridge.Proofs.Push.Added

/-!
Wrappers and members during a push. The value of a wrapper is pushed on the
wrapper's own machine. Where that is the machine of the push it is one more
value there; looking at the category of a wrapped value pushes it only for
the moment. On any other machine nothing of this is seen: `Elsewhere`.
-/

namespace StackBridge

namespace Session

open Bridge

variable {s t : Session} {j k : MachineId} {α β : Type}

-- ============================================================= elsewhere

/-- Machine `k`, the heap, the encoding and the report are as they were. -/
structure Elsewhere (k : MachineId) (s t : Session) : Prop where
  encoding : t.encoding = s.encoding
  reports : t.reports = s.reports
  heap : t.heap = s.heap
  machine : t.machine k = s.machine k
  size : t.machines.size = s.machines.size

/-- A machine action that does not touch the heap. -/
abbrev KeepsHeap (a : Vm.Action α) : Prop := Keeps (fun vm vm' => vm'.heap = vm.heap) a

theorem keepsHeap_push (v : Value) : KeepsHeap (Vm.push v) := fun _ => rfl

instance : Std.Refl fun vm vm' : Vm => vm'.heap = vm.heap := ⟨fun _ => rfl⟩

instance : IsTrans Vm fun vm vm' : Vm => vm'.heap = vm.heap := ⟨fun _ _ _ h h' => h'.trans h⟩

theorem keepsHeap_getKey (index : Int) (key : Value) : KeepsHeap (Vm.getKey index key) := by
  refine Keeps.bind (Vm.looks_tableAt index).keeps fun id => ?_
  refine Keeps.bind (Vm.looks_categoryOf key).keeps fun _ => ?_
  refine Keeps.bind Vm.looks_getHeap.keeps fun heap => ?_
  exact Keeps.bind (keepsHeap_push _) fun _ => (Vm.looks_categoryOf _).keeps

theorem keepsHeap_setTop (index : Int) : KeepsHeap (Vm.setTop index) := by
  refine Keeps.bind Vm.looks_base.keeps fun b => Keeps.bind Vm.looks_getMachine.keeps fun m => ?_
  dsimp only
  generalize (if 0 ≤ index then (b : Int) + index else (m.slots.length : Int) + index + 1) = target
  split
  · exact (Vm.looks_fail (.invalidTop index)).keeps
  · exact fun _ => rfl

theorem keepsHeap_pop (count : Int) : KeepsHeap (Vm.pop count) := by
  refine Keeps.bind Vm.looks_getTop.keeps fun depth => ?_
  split
  · exact (Vm.looks_fail _).keeps
  · exact keepsHeap_setTop _

theorem onMachine_elsewhere {a : Vm.Action α} (ha : KeepsHeap a) (hj : j ≠ k) :
    Ends (onMachine j a s) (fun _ t => Elsewhere k s t) fun e t => e.Met ∧ Elsewhere k s t := by
  have h := ha (s.vm j)
  refine onMachine_ends ?_
  cases hr : a (s.vm j) with
  | ok x vm =>
      rw [hr] at h
      exact ⟨rfl, rfl, h, withVm_machine_ne hj s vm, withVm_size s j vm⟩
  | error f vm =>
      rw [hr] at h
      exact ⟨⟨f, rfl⟩, rfl, rfl, h, withVm_machine_ne hj s vm, withVm_size s j vm⟩

theorem Elsewhere.trans {u : Session} (h : Elsewhere k s t) (h' : Elsewhere k t u) :
    Elsewhere k s u :=
  ⟨h'.encoding.trans h.encoding, h'.reports.trans h.reports, h'.heap.trans h.heap,
    h'.machine.trans h.machine, h'.size.trans h.size⟩

theorem Elsewhere.leaves {R : Session → Session → Prop} [SeesMemory k R] (h : Elsewhere k s t) :
    Leaves R k [] s t :=
  Leaves.same h.encoding h.reports h.heap h.machine h.size

/-- A cleanup runs in the state that an action leaves, whichever way that
ends. -/
theorem ensuring_ends {a : Action α} {cleanup : Action Unit} {ok : α → Session → Prop}
    {stop : Stop → Prop} {P : Session → Prop}
    (ha : Ends (a s)
      (fun x t => Ends (cleanup t) (fun _ u => ok x u) fun e u => stop e ∧ P u)
      fun e t => stop e ∧ Ends (cleanup t) (fun _ u => P u) fun e' u => stop e' ∧ P u) :
    Ends (ensuring a cleanup s) ok fun e u => stop e ∧ P u := by
  unfold ensuring
  cases hr : a s with
  | ok x t =>
      rw [hr] at ha
      dsimp only [Ends] at ha ⊢
      cases hc : cleanup t with
      | ok _ u => rw [hc] at ha; exact ha
      | error e u => rw [hc] at ha; exact ha
  | error e t =>
      rw [hr] at ha
      obtain ⟨he, ha⟩ := ha
      dsimp only [Ends] at ha ⊢
      cases hc : cleanup t with
      | ok _ u => rw [hc] at ha; exact ⟨he, ha⟩
      | error e' u =>
          rw [hc] at ha
          cases e with
          | exhausted => exact ⟨he, ha.2⟩
          | failed f => exact ha

/-- Pushing a wrapped value on its own machine, which is another one. -/
theorem pushWrapped_elsewhere {id : Nat} (hj : (s.wrapper id).machine ≠ k) :
    Ends (pushWrapped id s) (fun _ t => Elsewhere k s t) fun e t => e.Met ∧ Elsewhere k s t := by
  unfold pushWrapped
  rw [bind_ok (get_apply s)]
  cases (s.wrapper id).anchor with
  | released => exact ⟨⟨_, rfl⟩, rfl, rfl, rfl, rfl, rfl⟩
  | nil => exact onMachine_elsewhere (keepsHeap_push .nil) hj
  | entry r =>
      refine (onMachine_elsewhere (keepsHeap_getKey registryIndex (.int r)) hj).bind ?_
      exact fun _ t ht => ht

/-- Looking at the category of a wrapped value of another machine. -/
theorem wrappedCategory_elsewhere {id : Nat} (hj : (s.wrapper id).machine ≠ k) :
    Ends (wrappedCategory id s) (fun _ t => Elsewhere k s t)
      fun e t => e.Met ∧ Elsewhere k s t := by
  unfold wrappedCategory
  rw [bind_ok (get_apply s)]
  refine (pushWrapped_elsewhere hj).bind fun _ t ht => ?_
  have hpop : ∀ t, Elsewhere k s t →
      Ends (onMachine (s.wrapper id).machine (Vm.pop 1) t) (fun _ u => Elsewhere k s u)
        fun e u => e.Met ∧ Elsewhere k s u := fun t ht =>
    (onMachine_elsewhere (keepsHeap_pop 1) hj).mono (fun _ _ hu => ht.trans hu)
      fun _ _ hu => ⟨hu.1, ht.trans hu.2⟩
  refine ensuring_ends ((onMachine_looks (Vm.looks_categoryAt (-1))).mono ?_ ?_)
  · rintro _ u rfl
    exact hpop u ht
  · rintro e u ⟨he, rfl⟩
    exact ⟨he, hpop u ht⟩

-- ============================================================ on the machine

/-- The value of a wrapper comes on top of its own machine, even when it is a
stray and the push fails. -/
theorem pushWrapped_ends {id : Nat} (hk : k < s.machines.size)
    (hj : (s.wrapper id).machine = k) :
    Ends (pushWrapped id s) (fun _ t => ∃ w, Adds k [w] s t)
      fun e t => e.Met ∧ ∃ xs, Adds k xs s t := by
  unfold pushWrapped
  rw [bind_ok (get_apply s)]
  cases (s.wrapper id).anchor with
  | released => exact ⟨⟨_, rfl⟩, [], Leaves.refl s⟩
  | nil =>
      show Ends (push (s.wrapper id).machine .nil s) _ _
      rw [hj]
      exact ⟨.nil, push_leaves hk .nil⟩
  | entry r =>
      show Ends ((onMachine (s.wrapper id).machine (Vm.getKey registryIndex (.int r)) >>=
        fun _ => pure ()) s) _ _
      rw [hj]
      have hkey : (Value.int r).category? = some .number := rfl
      have hget := Vm.getKey_apply (k := .int r) (Vm.valueAt?_registry (s.vm k))
      let v := (s.heap.table (s.machine k).registry).get (.int r)
      cases hv : v.category? with
      | some c =>
          have h := onMachine_ok (hget.trans (Vm.fetch_eq hkey hv))
          rw [bind_ok h]
          exact ⟨v, push_leaves hk v⟩
      | none =>
          have h := onMachine_error (hget.trans (Vm.fetch_stray hkey hv))
          rw [bind_error h]
          exact ⟨⟨_, rfl⟩, [v], push_leaves hk v⟩

/-- Looking at the category of a wrapped value of the machine itself. -/
theorem wrappedCategory_ends {id : Nat} (hk : k < s.machines.size) (hl : (s.machine k).Live)
    (hj : (s.wrapper id).machine = k) :
    Ends (wrappedCategory id s) (fun _ t => Adds k [] s t)
      fun e t => e.Met ∧ ∃ xs, Adds k xs s t := by
  unfold wrappedCategory
  rw [bind_ok (get_apply s)]
  refine (pushWrapped_ends hk hj).bind ?_
  rintro _ t ⟨w, ht⟩
  rw [hj]
  obtain ⟨u, hpop, hu⟩ := Leaves.pop [] ht hk hl
  have hdone : Ends (onMachine k (Vm.pop 1) t) (fun _ u => Adds k [] s u)
      fun e u => e.Met ∧ ∃ xs, Adds k xs s u := by
    rw [hpop]
    exact hu
  refine ensuring_ends ((onMachine_looks (Vm.looks_categoryAt (-1))).mono ?_ ?_)
  · rintro _ u rfl
    exact hdone
  · rintro e u ⟨he, rfl⟩
    exact ⟨he, hdone.mono (fun _ _ h => ⟨[], h⟩) fun _ _ h => h⟩

/-- The category of a wrapped value, whichever machine it is on. -/
theorem settles_wrappedCategory (id : Nat) :
    Settles (KeepsTables k) Stop.Met k (wrappedCategory id) := by
  intro s hk hl
  by_cases hj : (s.wrapper id).machine = k
  · exact wrappedCategory_ends hk hl hj
  · exact (wrappedCategory_elsewhere hj).mono (fun _ _ h => h.leaves)
      fun _ _ h => ⟨h.1, [], h.2.leaves⟩

-- ================================================================= members

theorem settles_wrapperMember (v : HostValue) (id : Nat) (name : String) :
    Settles (KeepsTables k) Stop.Met k (wrapperMember v id name) := by
  unfold wrapperMember
  split
  · exact (settles_wrappedCategory id).bind fun _ => (idle_pure _).settles
  · exact (settles_wrappedCategory id).bind fun _ => (idle_pure _).settles
  · exact idle_get.settles.bind fun _ => (idle_pure _).settles
  · exact (idle_pure _).settles
  · exact (idle_pure _).settles

/-- Looking up a member. -/
theorem settles_specialMember? (v : HostValue) (name : String) :
    Settles (KeepsTables k) Stop.Met k (specialMember? v name) := by
  unfold specialMember?
  split
  · exact settles_wrapperMember _ _ _
  · exact (idle_pure _).settles
  · exact (idle_pure _).settles

theorem settles_memberOf (ctx : Context) (v : HostValue) (name : String) :
    Settles (KeepsTables k) Stop.Met k (memberOf ctx v name) := by
  refine (settles_specialMember? v name).bind fun special => ?_
  cases special with
  | some x => exact (idle_pure x).settles
  | none => exact (idle_ofHost _).settles.bind fun x => (idle_individual x).settles

end Session

end StackBridge
