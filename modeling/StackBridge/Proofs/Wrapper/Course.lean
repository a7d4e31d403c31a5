import StackBridge.Proofs.Push.Placed
import StackBridge.Proofs.Session.Reachable
import StackBridge.Proofs.Wrapper.Tracked

/-!
Runs on which a machine's registry is written to by wrappers only.

A `Course` is a sequence of parts each of which makes a wrapper, releases one or
spares the registry. The accounts of registry and wrappers are in order after
each part if they were before it (`Part.tracks`), so they are after a course, and
a wrapper holds what it held until it is released (`Course.tracks`). Whatever a
bridge operation does is such a course, since all but the wrappers it makes is
new objects and moved values.
-/

namespace StackBridge

namespace Session

open Bridge

variable {s t u : Session} {i j : MachineId} {id : Nat} {r : Int} {ctx : Context}

-- ================================================================== wrapping

/-- Wrapping what is at an index fails, with a copy of it left on the stack at
most, or it keeps the value in the registry for a new wrapper; nil is kept
nowhere. -/
theorem wrap_cases (i : MachineId) (index : Int) (s : Session) :
    (∃ e l, wrap i index s = .error e (s.withSlots i l))
      ∨ ∃ v, i < s.machines.size ∧ Vm.valueAt? index (s.vm i) = .ok (some v) (s.vm i)
        ∧ (v = .nil ∧ wrap i index s
              = .ok s.wrappers.size { s with wrappers := s.wrappers.push ⟨i, .nil⟩ }
          ∨ v ≠ .nil ∧ wrap i index s
              = .ok s.wrappers.size { s.withVm i ((s.vm i).afterRef (s.machine i).slots v) with
                  wrappers := s.wrappers.push ⟨i, .ofRef (s.vm i).nextRef⟩ }) := by
  have hlook := (Vm.looks_valueAt? index).ends (s.vm i)
  cases hvalue : Vm.valueAt? index (s.vm i) with
  | error f vm =>
      rw [hvalue] at hlook
      obtain rfl : vm = s.vm i := hlook
      have hcopy : Vm.pushCopy index (s.vm i) = .error f (s.vm i) := bind_error hvalue
      left
      unfold wrap
      rw [bind_error (onMachine_error hcopy)]
      exact ⟨_, (s.machine i).slots, rfl⟩
  | ok x vm =>
      rw [hvalue] at hlook
      obtain rfl : vm = s.vm i := hlook
      cases x with
      | none =>
          have hcopy : Vm.pushCopy index (s.vm i)
              = .error (.misuse (.invalidIndex index)) (s.vm i) := bind_ok hvalue
          left
          unfold wrap
          rw [bind_error (onMachine_error hcopy)]
          exact ⟨_, (s.machine i).slots, rfl⟩
      | some v =>
          have hcopy : onMachine i (Vm.pushCopy index) s
              = .ok () (s.withSlots i ((s.machine i).slots ++ [v])) :=
            onMachine_ok (bind_ok hvalue)
          unfold wrap
          rw [bind_ok hcopy]
          rcases Vm.ref_cases ((s.withSlots i ((s.machine i).slots ++ [v])).vm i) with
            ⟨f, href⟩ | ⟨l, w, hslots, href⟩
          · left
            rw [bind_error (onMachine_error href), withVm_vm]
            exact ⟨_, _, rfl⟩
          · have hi : i < (s.withSlots i ((s.machine i).slots ++ [v])).machines.size := by
              have hsome :
                  0 < ((s.withSlots i ((s.machine i).slots ++ [v])).vm i).machine.slots.length := by
                rw [hslots]
                simp
              exact lt_size_of_slots hsome
            rw [withSlots_size] at hi
            have hvm : (s.withSlots i ((s.machine i).slots ++ [v])).vm i
                = (s.vm i).withSlots ((s.machine i).slots ++ [v]) := vm_withVm hi _
            rw [hvm] at hslots href
            obtain ⟨rfl, heq⟩ := List.append_inj' hslots rfl
            cases heq
            refine Or.inr ⟨v, hi, rfl, ?_⟩
            rcases href with ⟨rfl, href⟩ | ⟨hv, href⟩
            · refine Or.inl ⟨rfl, ?_⟩
              have hback : s.withVm i ((s.vm i).withSlots (s.machine i).slots) = s :=
                withSlots_self s i
              rw [bind_ok (onMachine_ok (by rw [hvm]; exact href)), withSlots, withVm_withVm,
                Vm.withSlots_withSlots, hback]
              rfl
            · refine Or.inr ⟨hv, ?_⟩
              rw [bind_ok (onMachine_ok (by rw [hvm]; exact href)), withSlots, withVm_withVm]
              rfl

-- ================================================================= releasing

/-- A wrapper that has been released is left as it is. -/
theorem release_released (h : (s.wrapper id).anchor = .released) : release id s = .ok () s := by
  unfold release
  rw [bind_ok (get_apply s)]
  dsimp only
  rw [if_pos h]
  rfl

/-- A wrapper on an open machine gives its reference back. -/
theorem release_open (h : (s.wrapper id).anchor ≠ .released)
    (hopen : (s.machine (s.wrapper id).machine).closed = false) {vm : Vm}
    (hunref : Vm.unref registryIndex (s.wrapper id).anchor.number (s.vm (s.wrapper id).machine)
      = .ok () vm) :
    release id s = .ok () { s.withVm (s.wrapper id).machine vm with
      wrappers := s.wrappers.setIfInBounds id ⟨(s.wrapper id).machine, .released⟩ } := by
  unfold release
  rw [bind_ok (get_apply s)]
  dsimp only
  rw [if_neg h, bind_ok (isClosed_eq s _), hopen]
  simp only [Bool.not_false, if_true]
  rw [bind_ok (onMachine_ok hunref)]
  rfl

/-- A wrapper on a closed machine is released without a trace on it. -/
theorem release_closed (h : (s.wrapper id).anchor ≠ .released)
    (hclosed : (s.machine (s.wrapper id).machine).closed = true) :
    release id s = .ok () { s with
      wrappers := s.wrappers.setIfInBounds id ⟨(s.wrapper id).machine, .released⟩ } := by
  unfold release
  rw [bind_ok (get_apply s)]
  dsimp only
  rw [if_neg h, bind_ok (isClosed_eq s _), hclosed]
  rfl

-- ==================================================================== courses

/-- A part of a run that writes to the registry of a machine by making and
releasing wrappers only. -/
inductive Part (j : MachineId) : Session → Session → Prop where
  | wrap (i : MachineId) (index : Int) (s : Session) : Part j s (final (Bridge.wrap i index s))
  | release (id : Nat) (s : Session) : Part j s (final (Bridge.release id s))
  | other {s t : Session} (spares : Spares j s t) : Part j s t

/-- A run that writes to the registry of a machine by making and releasing
wrappers only. -/
def Course (j : MachineId) : Session → Session → Prop := Relation.ReflTransGen (Part j)

/-- From before a part to after it: the machine may have been closed, but if not
the accounts are in order when they were. -/
def Tracks (j : MachineId) (s t : Session) : Prop :=
  (t.machine j).closed = false →
    (s.machine j).closed = false ∧ (Tracked j s → Later j s t)

theorem Tracks.refl (j : MachineId) (s : Session) : Tracks j s s :=
  fun hopen => ⟨hopen, Later.refl⟩

theorem Tracks.trans (h : Tracks j s t) (h' : Tracks j t u) : Tracks j s u := by
  intro hopen
  obtain ⟨hopen', hlater'⟩ := h' hopen
  obtain ⟨hopen'', hlater⟩ := h hopen'
  exact ⟨hopen'', fun hs => (hlater hs).trans (hlater' (hlater hs).tracked)⟩

/-- The registry of another machine is written to. -/
theorem Tracked.spares_other (h : Tracked j s) (hi : i < s.machines.size) (hij : i ≠ j) {vm : Vm}
    (hclosed : vm.machine.closed = (s.machine i).closed)
    (hregistry : vm.machine.registry = (s.machine i).registry) {table : Table}
    (hheap : vm.heap = s.heap.setTable (s.machine i).registry table) :
    Spares j s (s.withVm i vm) where
  wrappers := rfl
  size := withVm_size s i vm
  tables := by
    rw [withVm_heap, hheap, Heap.setTable_size]
  machine k := by
    left
    by_cases hik : i = k
    · subst hik
      rw [withVm_machine hi]
      exact ⟨hclosed, hregistry⟩
    · rw [withVm_machine_ne hik]
      exact ⟨rfl, rfl⟩
  entries _ _ := by
    unfold registryTable
    rw [withVm_machine_ne hij, withVm_heap, hheap, Heap.table_setTable_ne (h.apart i hi hij)]
  givenBack _ := by
    unfold Session.givenBack
    rw [withVm_machine_ne hij]

theorem tracks_wrap (i : MachineId) (index : Int) (s : Session) :
    Tracks j s (final (Bridge.wrap i index s)) := by
  rcases wrap_cases i index s with ⟨e, l, hw⟩ | ⟨v, hi, _, ⟨_, hw⟩ | ⟨_, hw⟩⟩
  · rw [hw]
    have hspares : Spares j s (s.withSlots i l) := .of_fresh ((Fresh.refl s).withSlots l)
    exact fun hopen => ⟨(hspares.same hopen).1, fun hs => hs.later_of_spares hspares hopen⟩
  · rw [hw]
    exact fun hopen => ⟨hopen, fun hs => hs.push nofun hi⟩
  · rw [hw]
    intro hopen
    have hopen' : ((s.withVm i ((s.vm i).afterRef (s.machine i).slots v)).machine j).closed
        = false := hopen
    by_cases hij : i = j
    · subst hij
      rw [withVm_machine hi, Vm.afterRef_closed] at hopen'
      refine ⟨hopen', fun hs => ?_⟩
      have hpos := hs.nextRef_new.1
      have hanchor : Anchor.ofRef (s.vm i).nextRef = .entry (s.vm i).nextRef := by
        unfold Anchor.ofRef Vm.nilRef
        rw [if_neg (by omega)]
      rw [hanchor]
      refine hs.keep (l := (s.machine i).slots) (v := v) ⟨?_, ?_, ?_, rfl, rfl⟩ rfl
      · rw [Vm.afterRef_closed]
        exact hopen'
      · exact Vm.afterRef_registry ..
      · exact Heap.setTable_size ..
    · rw [withVm_machine_ne hij] at hopen'
      refine ⟨hopen', fun hs => ?_⟩
      have hspares : Spares j s (s.withVm i ((s.vm i).afterRef (s.machine i).slots v)) :=
        hs.spares_other hi hij (Vm.afterRef_closed ..) (Vm.afterRef_registry ..) rfl
      have hlater := hs.later_of_spares hspares hopen
      refine hlater.trans (hlater.tracked.push (w := ⟨i, .ofRef (s.vm i).nextRef⟩) ?_ ?_)
      · intro r heq
        injection heq with hmachine _
        exact hij hmachine
      · rw [withVm_size]
        exact hi

/-- A wrapper with an entry gives it back, on this machine or on another. -/
theorem tracks_giveBack (hw : s.wrapper id = ⟨i, .entry r⟩) :
    Tracks j s { s.withVm i ((s.vm i).afterUnref r) with
      wrappers := s.wrappers.setIfInBounds id ⟨i, .released⟩ } := by
  have hid : id < s.wrappers.size := lt_size_of_wrapper hw nofun
  intro hopen
  have hopen' : ((s.withVm i ((s.vm i).afterUnref r)).machine j).closed = false := hopen
  have hclosed : ((s.vm i).afterUnref r).machine.closed = (s.machine i).closed := rfl
  have hregistry : ((s.vm i).afterUnref r).machine.registry = (s.machine i).registry := rfl
  by_cases hij : i = j
  · subst hij
    by_cases hi : i < s.machines.size
    · rw [withVm_machine hi] at hopen'
      refine ⟨hopen', fun hs => hs.giveBack hw ⟨hopen', rfl, ?_, rfl, rfl⟩ rfl⟩
      exact Heap.setTable_size ..
    · rw [withVm_machine_none hi] at hopen'
      exact ⟨hopen', fun hs => absurd hs.there hi⟩
  · rw [withVm_machine_ne hij] at hopen'
    refine ⟨hopen', fun hs => ?_⟩
    have hi : i < s.machines.size := by
      have hhome := hs.homes id hid
      rw [hw] at hhome
      exact hhome
    have hspares : Spares j s (s.withVm i ((s.vm i).afterUnref r)) :=
      hs.spares_other hi hij hclosed hregistry rfl
    have hlater := hs.later_of_spares hspares hopen
    have hwrapper : (s.withVm i ((s.vm i).afterUnref r)).wrapper id = ⟨i, .entry r⟩ := hw
    have hdrop := hlater.tracked.drop (n := id) fun r' hr' => by
      rw [hwrapper] at hr'
      injection hr' with hmachine _
      exact hij hmachine
    rw [hwrapper] at hdrop
    exact hlater.trans hdrop

theorem tracks_release (id : Nat) (s : Session) :
    Tracks j s (final (Bridge.release id s)) := by
  by_cases hreleased : (s.wrapper id).anchor = .released
  · rw [release_released hreleased]
    exact .refl j s
  have hid : id < s.wrappers.size := lt_size_of_wrapper rfl hreleased
  have hdrop : (∀ r, s.wrapper id = ⟨j, .entry r⟩ → (s.machine j).closed = true ∨ r < 0) →
      Tracks j s { s with
        wrappers := s.wrappers.setIfInBounds id ⟨(s.wrapper id).machine, .released⟩ } := by
    refine fun hno hopen => ⟨hopen, fun hs => hs.drop fun r hr => ?_⟩
    have hpos := hs.accounts.positive hr
    rcases hno r hr with hclosed | hneg
    · rw [hs.opened] at hclosed
      cases hclosed
    · omega
  cases hopened : (s.machine (s.wrapper id).machine).closed with
  | true =>
      rw [release_closed hreleased hopened]
      refine hdrop fun r hr => Or.inl ?_
      rw [hr] at hopened
      exact hopened
  | false =>
      by_cases hr : (s.wrapper id).anchor.number < 0
      · -- its anchor is nil, and no entry goes with it
        rw [release_open hreleased hopened (Vm.unref_none hr), withVm_vm]
        refine hdrop fun r hw => Or.inr ?_
        rw [hw] at hr
        exact hr
      · rw [release_open hreleased hopened (Vm.unref_apply (Int.not_lt.mp hr))]
        generalize hw : s.wrapper id = w at hr hreleased
        obtain ⟨i, anchor⟩ := w
        cases anchor with
        | released => exact absurd rfl hreleased
        | nil => exact absurd (Int.negSucc_lt_zero 0) hr
        | entry r => exact tracks_giveBack hw

theorem Part.tracks (h : Part j s t) : Tracks j s t := by
  cases h with
  | wrap i index => exact tracks_wrap i index s
  | release id => exact tracks_release id s
  | other spares =>
      exact fun hopen => ⟨(spares.same hopen).1, fun hs => hs.later_of_spares spares hopen⟩

namespace Course

theorem refl (j : MachineId) (s : Session) : Course j s s := Relation.ReflTransGen.refl

theorem trans (h : Course j s t) (h' : Course j t u) : Course j s u :=
  Relation.ReflTransGen.trans h h'

theorem of_part (h : Part j s t) : Course j s t := Relation.ReflTransGen.single h

theorem of_fresh (h : Fresh s t) : Course j s t := of_part (.other (.of_fresh h))

theorem tracks (h : Course j s t) : Tracks j s t := by
  induction h with
  | refl => exact .refl j s
  | tail _ hpart ih => exact ih.trans hpart.tracks

end Course

-- ================================================================ operations

instance : Calm (Course j) where
  refl := Course.refl j
  trans _ _ _ := Course.trans
  unseen hheap hmachines hwrappers _ := .of_fresh (.of_same hheap hmachines hwrappers)

instance : Moves (Course j) where
  steady k ha s := .of_fresh (Moves.steady k ha s)
  pushTable k s := .of_fresh (Moves.pushTable k s)
  close k s := .of_fresh (Moves.close k s)

instance : Wraps (Course j) where
  wrap i index s := .of_part (.wrap i index s)
  release id s := .of_part (.release id s)

instance : Describes ctx (Course j) :=
  describes_of_blind ctx fun hheap hmachines hwrappers =>
    .of_fresh (.of_same hheap hmachines hwrappers)

instance : Kept ctx (Course j) where
  pushValue k v t s := .of_fresh ((places_pushAs ctx k pushLimit v t).fresh s)

instance : FrameBlind (Course j) where
  shuffled s _ _ _ :=
    .of_fresh ((Fresh.refl s).withVm (Nat.le_refl _) (fun _ _ => rfl) (Or.inl ⟨rfl, rfl, rfl⟩))

end Session

end StackBridge
