import StackBridge.Bridge.Guard
import StackBridge.Proofs.Machine.Look
import StackBridge.Proofs.Machine.Top

/-!
A session as seen from one of its machines.

`Session.Leaves R k extra s t` is what a well-behaved bridge operation on
machine `k` may do to it: between `s` and `t` the values `extra` have come on
top of the stack, the frames and the registry are the same and the machine is
as open as it was. What it may do to the heap and the references is the
relation `R`, which sees nothing else; pushes and reads each have their own.

With that, a guard and a restoring block need no more than the ending of the
block inside them: the guard adds nothing (`guarded_framed`), and a block
that stops leaves the stack as it was (`restoringTop_ends`).
-/

namespace StackBridge

/-- A stop that the program meets: the fuel is not used up. -/
def Stop.Met (e : Stop) : Prop := ∃ f, e = .failed f

-- ============================================================== machines

/-- A machine that is open, with a running frame that begins on the stack. -/
structure Machine.Live (m : Machine) : Prop where
  opened : m.closed = false
  framed : ∃ b fs, m.frames = b :: fs ∧ b ≤ m.slots.length

namespace Session

variable {s t u : Session} {k : MachineId}

@[simp] theorem withVm_heap (s : Session) (k : MachineId) (vm : Vm) :
    (s.withVm k vm).heap = vm.heap := rfl

@[simp] theorem withVm_size (s : Session) (k : MachineId) (vm : Vm) :
    (s.withVm k vm).machines.size = s.machines.size := by
  simp [withVm]

theorem withVm_machine (hk : k < s.machines.size) (vm : Vm) :
    (s.withVm k vm).machine k = vm.machine := by
  simp [withVm, machine, Array.getD_eq_getD_getElem?, hk]

/-- There is nothing to put back on a machine that does not exist. -/
theorem withVm_machine_none (hk : ¬ k < s.machines.size) (vm : Vm) :
    (s.withVm k vm).machine k = s.machine k := by
  simp [withVm, machine, Array.getD_eq_getD_getElem?, hk]

theorem withVm_machine_ne {j : MachineId} (h : j ≠ k) (s : Session) (vm : Vm) :
    (s.withVm j vm).machine k = s.machine k := by
  simp [withVm, machine, Array.getD_eq_getD_getElem?, h]

theorem withVm_vm (s : Session) (k : MachineId) : s.withVm k (s.vm k) = s := by
  obtain ⟨heap, machines, current, wrappers, individuals, described, checks, encoding, bindings,
    reports⟩ := s
  have h : machines.setIfInBounds k (machines.getD k (.fresh 0)) = machines := by
    apply Array.ext_getElem?
    intro i
    rw [Array.getElem?_setIfInBounds]
    by_cases hik : k = i
    · subst hik
      by_cases hk : k < machines.size <;> simp [hk, Array.getD_eq_getD_getElem?]
    · rw [if_neg hik]
  simp only [withVm, vm, machine, h]

theorem vm_withVm (hk : k < s.machines.size) (vm : Vm) : (s.withVm k vm).vm k = vm := by
  unfold Session.vm
  rw [withVm_machine hk]
  rfl

@[simp] theorem withVm_withVm (s : Session) (k : MachineId) (vm vm' : Vm) :
    (s.withVm k vm).withVm k vm' = s.withVm k vm' := by
  simp [withVm, Array.setIfInBounds_setIfInBounds]

/-- A machine with slots is one of the session's. -/
theorem lt_size_of_slots {position : Nat} (h : position < (s.machine k).slots.length) :
    k < s.machines.size := by
  by_cases hk : k < s.machines.size
  · exact hk
  · have hfresh : s.machine k = .fresh 0 := by
      simp [machine, Array.getD_eq_getD_getElem?, hk]
    rw [hfresh] at h
    exact absurd h (Nat.not_lt_zero _)

/-- A session with other slots on a machine. -/
def withSlots (s : Session) (k : MachineId) (l : List Value) : Session :=
  s.withVm k ((s.vm k).withSlots l)

@[simp] theorem withSlots_heap (s : Session) (k : MachineId) (l : List Value) :
    (s.withSlots k l).heap = s.heap := rfl

@[simp] theorem withSlots_size (s : Session) (k : MachineId) (l : List Value) :
    (s.withSlots k l).machines.size = s.machines.size :=
  withVm_size s k _

theorem withSlots_machine (hk : k < s.machines.size) (l : List Value) :
    (s.withSlots k l).machine k = { s.machine k with slots := l } :=
  withVm_machine hk _

/-- There is nothing to change on a machine that does not exist. -/
theorem withSlots_machine_none (hk : ¬ k < s.machines.size) (l : List Value) :
    (s.withSlots k l).machine k = s.machine k :=
  withVm_machine_none hk _

theorem withSlots_self (s : Session) (k : MachineId) :
    s.withSlots k (s.machine k).slots = s :=
  withVm_vm s k

theorem withSlots_withSlots (hk : k < s.machines.size) (l l' : List Value) :
    (s.withSlots k l).withSlots k l' = s.withSlots k l' := by
  unfold withSlots
  rw [vm_withVm hk, withVm_withVm]
  rfl

-- ============================================================== wrappers

/-- One more wrapper. -/
theorem wrapper_push (s : Session) (w : Wrapper) (id : Nat) :
    ({ s with wrappers := s.wrappers.push w } : Session).wrapper id
      = if id = s.wrappers.size then w else s.wrapper id := by
  simp only [wrapper, Array.getD_eq_getD_getElem?, Array.getElem?_push]
  split <;> rfl

/-- Another wrapper in the place of one. -/
theorem wrapper_set (s : Session) (id id' : Nat) (w : Wrapper) :
    ({ s with wrappers := s.wrappers.setIfInBounds id w } : Session).wrapper id'
      = if id = id' ∧ id < s.wrappers.size then w else s.wrapper id' := by
  simp only [wrapper, Array.getD_eq_getD_getElem?, Array.getElem?_setIfInBounds]
  by_cases hid : id = id'
  · subst hid
    by_cases hlt : id < s.wrappers.size
    · simp [hlt]
    · simp [hlt]
  · simp [hid]

-- ================================================================= stops

/-- The failure that an action has stopped with. -/
def failure? {α : Type} : EStateM.Result Stop Session α → Option Failure
  | .error (.failed f) _ => some f
  | _ => none

theorem stopped_final {α : Type} {r : EStateM.Result Stop Session α} {e : Failure}
    (h : failure? r = some e) : r = .error (.failed e) (final r) := by
  unfold failure? at h
  split at h
  · cases h
    rfl
  · cases h

theorem stopped_of_failure? {α : Type} {r : EStateM.Result Stop Session α} {e : Failure}
    (h : failure? r = some e) : ∃ t, r = .error (.failed e) t :=
  ⟨_, stopped_final h⟩

-- ============================================================== on one

theorem onMachine_ok {α : Type} {a : Vm.Action α} {x : α} {vm : Vm}
    (ha : a (s.vm k) = .ok x vm) : onMachine k a s = .ok x (s.withVm k vm) := by
  unfold onMachine
  rw [ha]

theorem onMachine_error {α : Type} {a : Vm.Action α} {f : Failure} {vm : Vm}
    (ha : a (s.vm k) = .error f vm) : onMachine k a s = .error (.failed f) (s.withVm k vm) := by
  unfold onMachine
  rw [ha]

/-- An answer is one that the machine has given. -/
theorem onMachine_answered {α : Type} {a : Vm.Action α} {x : α}
    (h : onMachine k a s = .ok x t) : ∃ vm, a (s.vm k) = .ok x vm := by
  unfold onMachine at h
  cases hr : a (s.vm k) with
  | ok y vm => rw [hr] at h; cases h; exact ⟨vm, rfl⟩
  | error f vm => rw [hr] at h; cases h

theorem onMachine_wrappers {α : Type} {a : Vm.Action α} {x : α}
    (h : onMachine k a s = .ok x t) : t.wrappers = s.wrappers := by
  obtain ⟨vm, hvm⟩ := onMachine_answered h
  rw [onMachine_ok hvm] at h
  cases h
  rfl

theorem onMachine_final {α : Type} (a : Vm.Action α) :
    final (onMachine k a s) = s.withVm k (final (a (s.vm k))) := by
  unfold onMachine
  cases a (s.vm k) with
  | ok x vm => rfl
  | error f vm => rfl

/-- A machine reports nothing. -/
theorem onMachine_reports {α : Type} {a : Vm.Action α} {x : α} (h : onMachine k a s = .ok x t) :
    t.reports = s.reports := by
  obtain ⟨vm, hvm⟩ := onMachine_answered h
  rw [onMachine_ok hvm] at h
  cases h
  rfl

/-- A machine action that answers without a trace leaves the session as it
is. -/
theorem onMachine_look {α : Type} {a : Vm.Action α} {x : α} (ha : a (s.vm k) = .ok x (s.vm k)) :
    onMachine k a s = .ok x s := by
  rw [onMachine_ok ha, withVm_vm]

theorem onMachine_ends {α : Type} {a : Vm.Action α} {ok : α → Session → Prop}
    {stop : Stop → Session → Prop}
    (ha : Ends (a (s.vm k)) (fun x vm => ok x (s.withVm k vm))
      fun f vm => stop (.failed f) (s.withVm k vm)) :
    Ends (onMachine k a s) ok stop := by
  unfold onMachine
  cases h : a (s.vm k) with
  | ok x vm => rw [h] at ha; exact ha
  | error f vm => rw [h] at ha; exact ha

/-- What only looks at a machine leaves the session as it is. -/
theorem onMachine_looks {α : Type} {a : Vm.Action α} (ha : Vm.Looks a) :
    Ends (onMachine k a s) (fun _ t => t = s) fun e t => e.Met ∧ t = s := by
  refine onMachine_ends ((ha.ends (s.vm k)).mono ?_ ?_)
  · rintro _ vm rfl
    exact withVm_vm s k
  · rintro f vm rfl
    exact ⟨⟨f, rfl⟩, withVm_vm s k⟩

theorem push_eq (s : Session) (k : MachineId) (v : Value) :
    push k v s = .ok () (s.withSlots k ((s.machine k).slots ++ [v])) := rfl

theorem getTop_eq {b : Nat} {fs : List Nat} (hf : (s.machine k).frames = b :: fs) :
    getTop k s = .ok (((s.machine k).slots.length : Int) - b) s :=
  onMachine_look (Vm.getTop_eq hf)

theorem isClosed_eq (s : Session) (k : MachineId) :
    isClosed k s = .ok (s.machine k).closed s := rfl

-- ============================================================ what is left

/-- A relation between sessions that sees no more of them than the encoding, the
report, the heap, and what machine `k` keeps there: its registry and the
references given back. -/
class SeesMemory (k : MachineId) (R : Session → Session → Prop) : Prop where
  same : ∀ {s t}, t.encoding = s.encoding → t.reports = s.reports → t.heap = s.heap →
    (t.machine k).registry = (s.machine k).registry →
    (t.machine k).freeRefs = (s.machine k).freeRefs → R s t
  trans : ∀ {s t u}, R s t → R t u → R s u

/-- What an operation leaves of a session: the values `extra` on top of
machine `k`, its frames and its registry the same, the machine as open as
before, and the rest in relation `R`. -/
structure Leaves (R : Session → Session → Prop) (k : MachineId) (extra : List Value)
    (s t : Session) : Prop where
  slots : (t.machine k).slots = (s.machine k).slots ++ extra
  frames : (t.machine k).frames = (s.machine k).frames
  registry : (t.machine k).registry = (s.machine k).registry
  closed : (t.machine k).closed = (s.machine k).closed
  size : t.machines.size = s.machines.size
  rest : R s t

theorem slots_unseen {R : Session → Session → Prop} [SeesMemory k R] (s : Session)
    (l : List Value) : R s (s.withSlots k l) := by
  by_cases hk : k < s.machines.size
  · refine SeesMemory.same (k := k) rfl rfl rfl ?_ ?_ <;> rw [withSlots_machine hk]
  · refine SeesMemory.same (k := k) rfl rfl rfl ?_ ?_ <;> rw [withSlots_machine_none hk]

namespace Leaves

variable {R : Session → Session → Prop} {xs ys : List Value}

/-- What leaves the encoding, the report, the heap and machine `k` alone leaves
everything. -/
theorem same [SeesMemory k R] (he : t.encoding = s.encoding) (hr : t.reports = s.reports)
    (hh : t.heap = s.heap) (hm : t.machine k = s.machine k)
    (hs : t.machines.size = s.machines.size) :
    Leaves R k [] s t where
  slots := by rw [hm, List.append_nil]
  frames := by rw [hm]
  registry := by rw [hm]
  closed := by rw [hm]
  size := hs
  rest := SeesMemory.same (k := k) he hr hh (by rw [hm]) (by rw [hm])

theorem refl [SeesMemory k R] (s : Session) : Leaves R k [] s s := same rfl rfl rfl rfl rfl

theorem trans [SeesMemory k R] (h : Leaves R k xs s t) (h' : Leaves R k ys t u) :
    Leaves R k (xs ++ ys) s u where
  slots := by rw [h'.slots, h.slots, List.append_assoc]
  frames := h'.frames.trans h.frames
  registry := h'.registry.trans h.registry
  closed := h'.closed.trans h.closed
  size := h'.size.trans h.size
  rest := SeesMemory.trans k h.rest h'.rest

/-- What comes on top of a machine whose stack is otherwise as it was. -/
theorem withSlots [SeesMemory k R] (h : Leaves R k xs s t) (hk : k < s.machines.size)
    (ys : List Value) : Leaves R k ys s (t.withSlots k ((s.machine k).slots ++ ys)) := by
  have hkt : k < t.machines.size := by rw [h.size]; exact hk
  refine ⟨?_, ?_, ?_, ?_, ?_, SeesMemory.trans k h.rest (slots_unseen t _)⟩
  · rw [withSlots_machine hkt]
  · rw [withSlots_machine hkt]
    exact h.frames
  · rw [withSlots_machine hkt]
    exact h.registry
  · rw [withSlots_machine hkt]
    exact h.closed
  · rw [withSlots_size]
    exact h.size

/-- Popping the value that has come last. -/
theorem pop_one (xs : List Value) {w : Value} (h : Leaves R k (xs ++ [w]) s t)
    (hl : (s.machine k).Live) :
    onMachine k (Vm.pop 1) t = .ok () (t.withSlots k ((s.machine k).slots ++ xs)) := by
  obtain ⟨_, b, fs, hf, hb⟩ := hl
  have hf' : (t.vm k).machine.frames = b :: fs := h.frames.trans hf
  have hs : (t.vm k).machine.slots = ((s.machine k).slots ++ xs) ++ [w] := by
    rw [List.append_assoc]
    exact h.slots
  have hb' : b ≤ ((s.machine k).slots ++ xs).length := by
    rw [List.length_append]
    omega
  exact onMachine_ok (Vm.pop_one hf' hs hb')

theorem pop [SeesMemory k R] (xs : List Value) {w : Value} (h : Leaves R k (xs ++ [w]) s t)
    (hk : k < s.machines.size) (hl : (s.machine k).Live) :
    ∃ u, onMachine k (Vm.pop 1) t = .ok () u ∧ Leaves R k xs s u :=
  ⟨_, h.pop_one xs hl, h.withSlots hk xs⟩

/-- The depth is that of before and what has come on top. -/
theorem getTop (h : Leaves R k xs s t) {b : Nat} {fs : List Nat}
    (hf : (s.machine k).frames = b :: fs) :
    Session.getTop k t = .ok (((s.machine k).slots.length : Int) - b + xs.length) t := by
  rw [getTop_eq (h.frames.trans hf), h.slots, List.length_append]
  congr 1
  omega

/-- Going on from the last key of a table takes it off. -/
theorem next_done [SeesMemory k R] {key : Value} {index : Int} {id : TableId}
    (h : Leaves R k [key] s t) (hk : k < s.machines.size) (hl : (s.machine k).Live)
    (hid : Vm.tableAt index (t.vm k) = .ok id (t.vm k))
    (hnext : (t.heap.table id).next key = .ok none) :
    onMachine k (Vm.next index) t = .ok false (t.withSlots k (s.machine k).slots)
      ∧ Leaves R k [] s (t.withSlots k (s.machine k).slots) := by
  obtain ⟨_, b, fs, hf, hb⟩ := hl
  have hf' : (t.vm k).machine.frames = b :: fs := h.frames.trans hf
  refine ⟨onMachine_ok (Vm.next_done hf' h.slots hb hid hnext), ?_⟩
  have hleft := h.withSlots hk []
  rw [List.append_nil] at hleft
  exact hleft

/-- Going on from any other key puts the next entry in its place. -/
theorem next_more [SeesMemory k R] {key : Value} {index : Int} {id : TableId} {e : Key × Value}
    (h : Leaves R k [key] s t) (hk : k < s.machines.size) (hl : (s.machine k).Live)
    (hid : Vm.tableAt index (t.vm k) = .ok id (t.vm k))
    (hnext : (t.heap.table id).next key = .ok (some e)) :
    onMachine k (Vm.next index) t
        = .ok true (t.withSlots k ((s.machine k).slots ++ [e.1.value, e.2]))
      ∧ Leaves R k [e.1.value, e.2] s
          (t.withSlots k ((s.machine k).slots ++ [e.1.value, e.2])) := by
  obtain ⟨_, b, fs, hf, hb⟩ := hl
  have hf' : (t.vm k).machine.frames = b :: fs := h.frames.trans hf
  exact ⟨onMachine_ok (Vm.next_more hf' h.slots hb hid hnext), h.withSlots hk _⟩

theorem live (h : Leaves R k xs s t) (hl : (s.machine k).Live) : (t.machine k).Live := by
  obtain ⟨hopen, b, fs, hf, hb⟩ := hl
  refine ⟨h.closed.trans hopen, b, fs, h.frames.trans hf, ?_⟩
  rw [h.slots, List.length_append]
  omega

end Leaves

/-- Putting a value on top leaves just that. -/
theorem push_leaves {R : Session → Session → Prop} [SeesMemory k R] (hk : k < s.machines.size)
    (v : Value) : Leaves R k [v] s (s.withSlots k ((s.machine k).slots ++ [v])) :=
  (Leaves.refl s).withSlots hk [v]

end Session

-- ================================================================= guards

namespace Bridge

open Session

variable {α : Type} {s : Session} {k : MachineId} {R : Session → Session → Prop}

/-- A guard adds nothing to a block that changes the depth as promised, and
not at all when it fails. On a closed machine it does not look. -/
theorem guarded_framed {b : Nat} {fs : List Nat} (hf : (s.machine k).frames = b :: fs)
    (delta : Nat) (what : String) {block : Action α}
    (hb : Ends (block s) (fun _ t => ∃ xs, xs.length = delta ∧ Leaves R k xs s t)
      fun _ t => Leaves R k [] s t) :
    guarded k delta what block s = block s := by
  unfold guarded
  rw [bind_ok (getTop_eq hf), bind_apply]
  unfold handling
  cases h : block s with
  | ok a t =>
      rw [h] at hb
      obtain ⟨xs, hxs, hlv⟩ := hb
      have htop : getTop k t = .ok (((s.machine k).slots.length : Int) - b + delta) t := by
        rw [hlv.getTop hf, hxs]
      cases hclosed : (t.machine k).closed with
      | true =>
          simp only [bind_apply, isClosed_eq, hclosed, if_true, pure_apply]
      | false =>
          simp only [bind_apply, isClosed_eq, hclosed, Bool.false_eq_true, if_false,
            htop, ne_eq, not_true_eq_false, pure_apply]
  | error e t =>
      cases e with
      | exhausted => rfl
      | failed f =>
          rw [h] at hb
          have htop : getTop k t = .ok (((s.machine k).slots.length : Int) - b) t := by
            simpa using hb.getTop hf
          cases hclosed : (t.machine k).closed with
          | true =>
              simp only [bind_apply, isClosed_eq, hclosed, if_true, pure_apply]
              rfl
          | false =>
              simp only [bind_apply, isClosed_eq, hclosed, Bool.false_eq_true, if_false,
                htop, ne_eq, not_true_eq_false, pure_apply]
              rfl

theorem guardedIfChecking_framed {b : Nat} {fs : List Nat} (hf : (s.machine k).frames = b :: fs)
    (delta : Nat) (what : String) {block : Action α}
    (hb : Ends (block s) (fun _ t => ∃ xs, xs.length = delta ∧ Leaves R k xs s t)
      fun _ t => Leaves R k [] s t) :
    guardedIfChecking k delta what block s = block s := by
  unfold guardedIfChecking
  rw [bind_ok (get_apply s)]
  cases s.checks with
  | false => rfl
  | true => exact guarded_framed hf delta what hb

theorem guardedIfChecking_transparent (hl : (s.machine k).Live) (delta : Nat) (what : String)
    {block : Action α}
    (hb : Ends (block s) (fun _ t => ∃ xs, xs.length = delta ∧ Leaves R k xs s t)
      fun _ t => Leaves R k [] s t) :
    guardedIfChecking k delta what block s = block s := by
  obtain ⟨_, b, fs, hf, _⟩ := hl
  exact guardedIfChecking_framed hf delta what hb

/-- A guard lets through what has left as many values as promised. -/
theorem guardedIfChecking_ok (hl : (s.machine k).Live) (what : String) {block : Action α} {a : α}
    {t : Session} {xs : List Value} (hb : block s = .ok a t) (hlv : Leaves R k xs s t) :
    guardedIfChecking k xs.length what block s = .ok a t := by
  rw [guardedIfChecking_transparent (R := R) hl xs.length what, hb]
  rw [hb]
  exact ⟨xs, rfl, hlv⟩

/-- A restoring block that leaves nothing on top when it stops is its block. -/
theorem restoringTop_framed {b : Nat} {fs : List Nat} (hf : (s.machine k).frames = b :: fs)
    {block : Action α} (hb : Ends (block s) (fun _ _ => True) fun _ t => Leaves R k [] s t) :
    restoringTop k block s = block s := by
  unfold restoringTop
  rw [bind_ok (getTop_eq hf)]
  unfold onStop
  cases h : block s with
  | ok a t => rfl
  | error e t =>
      rw [h] at hb
      have htop : getTop k t = .ok (((s.machine k).slots.length : Int) - b) t := by
        simpa using hb.getTop hf
      cases hclosed : (t.machine k).closed with
      | true =>
          simp only [bind_apply, isClosed_eq, hclosed, Bool.not_true, Bool.false_eq_true, if_false,
            pure_apply]
      | false =>
          simp only [bind_apply, isClosed_eq, hclosed, Bool.not_false, if_true, htop,
            Int.lt_irrefl, if_false, pure_apply]

/-- A push that leaves one value, or else nothing, is not changed by what is
around it. -/
theorem pushing_framed {b : Nat} {fs : List Nat} (hf : (s.machine k).frames = b :: fs)
    (what : String) {block : Action α}
    (hb : Ends (block s) (fun _ t => ∃ w, Leaves R k [w] s t) fun _ t => Leaves R k [] s t) :
    guardedIfChecking k 1 what (restoringTop k block) s = block s := by
  have hrestoring : restoringTop k block s = block s :=
    restoringTop_framed hf (hb.mono (fun _ _ _ => trivial) fun _ _ h => h)
  have hguarded : guardedIfChecking k (1 : Nat) what (restoringTop k block) s
      = restoringTop k block s := by
    refine guardedIfChecking_framed (R := R) hf 1 what ?_
    rw [hrestoring]
    exact hb.mono (fun _ _ ⟨w, h⟩ => ⟨[w], rfl, h⟩) fun _ _ h => h
  exact hguarded.trans hrestoring

theorem restoringTop_ok (hl : (s.machine k).Live) {block : Action α} {a : α} {t : Session}
    (hb : block s = .ok a t) : restoringTop k block s = .ok a t := by
  obtain ⟨hopen, b, fs, hf, hbase⟩ := hl
  unfold restoringTop
  rw [bind_ok (getTop_eq hf)]
  unfold onStop
  rw [hb]

/-- When a block stops with its frame still running, what is above the height at
which it began is dropped. -/
theorem restoringTop_stopped (hl : (s.machine k).Live) {block : Action α} {e : Stop} {t : Session}
    (hb : block s = .error e t) (hopen : (t.machine k).closed = false)
    (hframes : (t.machine k).frames = (s.machine k).frames) {xs : List Value}
    (hslots : (t.machine k).slots = (s.machine k).slots ++ xs) :
    restoringTop k block s = .error e (t.withSlots k (s.machine k).slots) := by
  obtain ⟨_, b, fs, hf, hbase⟩ := hl
  have hf' : (t.vm k).machine.frames = b :: fs := hframes.trans hf
  unfold restoringTop
  rw [bind_ok (getTop_eq hf)]
  unfold onStop
  simp only [hb, bind_apply, isClosed_eq, hopen, Bool.not_false, if_true, getTop_eq hf']
  by_cases hxs : xs = []
  · -- nothing has come on top, so nothing is dropped
    rw [hxs, List.append_nil] at hslots
    have hnot : ¬ ((s.machine k).slots.length : Int) - b
        < ((t.machine k).slots.length : Int) - b := by
      rw [hslots]
      omega
    rw [if_neg hnot, pure_apply, ← hslots, withSlots_self]
  · have hlt : ((s.machine k).slots.length : Int) - b
        < ((t.machine k).slots.length : Int) - b := by
      have hpos : 0 < xs.length := List.length_pos_iff.mpr hxs
      rw [hslots, List.length_append]
      omega
    rw [if_pos hlt, onMachine_ok (Vm.setTop_back hf' hslots hbase)]
    rfl

/-- A restoring block answers what its block answers; when that stops, what
it had put on top is gone. -/
theorem restoringTop_ends [SeesMemory k R] (hk : k < s.machines.size) (hl : (s.machine k).Live)
    {block : Action α} {ok : α → Session → Prop} {stop : Stop → Prop}
    (hb : Ends (block s) ok fun e t => stop e ∧ ∃ xs, Leaves R k xs s t) :
    Ends (restoringTop k block s) ok fun e t => stop e ∧ Leaves R k [] s t := by
  cases h : block s with
  | ok a t =>
      rw [h] at hb
      rw [restoringTop_ok hl h]
      exact hb
  | error e t =>
      rw [h] at hb
      obtain ⟨he, xs, hlv⟩ := hb
      have hback := hlv.withSlots hk []
      rw [List.append_nil] at hback
      rw [restoringTop_stopped hl h (hlv.closed.trans hl.opened) hlv.frames hlv.slots]
      exact ⟨he, hback⟩

end Bridge

end StackBridge
