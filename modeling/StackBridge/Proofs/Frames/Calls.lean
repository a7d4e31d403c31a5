import StackBridge.Proofs.Frames.Contained

/-!
Calls keep to the frame of the caller. A call begins a frame right above the
called function; whatever runs in it keeps to it, so that when it is left the
slots up to the function are what they were, and the results are put where the
function was. A protected call goes back to the same frames when a machine
error ends it.
-/

namespace StackBridge

namespace Session

open Bridge

variable {ctx : Context} {k : MachineId}

-- ================================================================ returning

/-- After a call: every machine is confined to its running frame, and on the
calling one not even the slots up to a position have changed. -/
structure Returned (k : MachineId) (position : Nat) (s t : Session) : Prop where
  confined : Confined s t
  below : (t.machine k).closed = false → (s.machine k).Framed →
    (t.machine k).slots.take position = (s.machine k).slots.take position

section

variable {s u : Session} {position : Nat}

theorem entering_machine (hk : k < s.machines.size) (base : Nat) :
    (entering k base s).machine k
      = { s.machine k with frames := base :: (s.machine k).frames } :=
  withVm_machine hk _

/-- A frame that begins within the running one is within it. -/
theorem entering_within (hk : k < s.machines.size) (hbase : (s.machine k).baseOf ≤ position)
    (hlt : position ≤ (s.machine k).slots.length) : Within s (entering k position s) where
  size := withVm_size s k _
  machine j := by
    by_cases hjk : k = j
    · subst hjk
      rw [entering_machine hk]
      exact ⟨fun h => h, fun _ hm => hm.enter hbase hlt, fun _ _ => List.suffix_cons _ _,
        fun _ _ => rfl⟩
    · unfold entering
      rw [withVm_machine_ne hjk]
      exact Machine.Within.refl _

/-- Leaving a frame that has been kept to. -/
theorem leaving (hk : k < s.machines.size) (hbase : (s.machine k).baseOf ≤ position)
    (hlt : position ≤ (s.machine k).slots.length) (h : Confined (entering k position s) u) :
    Returned k position s (final (onMachine k Vm.leaveFrame u)) := by
  have hentered := h.machine k
  rw [entering_machine hk] at hentered
  have hku : k < u.machines.size := by
    rw [h.size]
    exact Nat.lt_of_lt_of_eq hk (withVm_size s k _).symm
  have hother : ∀ j, k ≠ j → (s.machine j).Confines (u.machine j) := by
    intro j hjk
    have hj := h.machine j
    unfold entering at hj
    rw [withVm_machine_ne hjk] at hj
    exact hj
  have hsize : u.machines.size = s.machines.size := h.size.trans (withVm_size s k _)
  cases hf : (u.machine k).frames with
  | nil =>
      -- only a closed machine can be without a frame here
      have hclosed : (u.machine k).closed = false → ¬ (s.machine k).Framed := by
        intro hc hm
        have hframes := (hentered.entered hbase hlt hc hm).1
        rw [hf] at hframes
        cases hframes
      have hleave : onMachine k Vm.leaveFrame u = .error _ (u.withVm k (u.vm k)) :=
        onMachine_error (leaveFrame_none hf)
      rw [hleave, withVm_vm]
      refine ⟨⟨hsize, fun j => ?_⟩, fun hc hm => absurd hm (hclosed hc)⟩
      by_cases hjk : k = j
      · subst hjk
        exact ⟨hentered.opened, fun hc hm => absurd hm (hclosed hc),
          fun hc hm => absurd hm (hclosed hc), fun hc hm => absurd hm (hclosed hc)⟩
      · exact hother j hjk
  | cons b fs =>
      have hleave : onMachine k Vm.leaveFrame u
          = .ok () (u.withVm k { u.vm k with machine := { u.machine k with frames := fs } }) :=
        onMachine_ok (leaveFrame_eq hf)
      rw [hleave]
      -- the frame that is left is the one that was entered
      have hback : (u.machine k).closed = false → (s.machine k).Framed →
          fs = (s.machine k).frames ∧ position ≤ (u.machine k).slots.length
            ∧ (u.machine k).slots.take position = (s.machine k).slots.take position := by
        intro hc hm
        obtain ⟨hframes, hlen, hslots⟩ := hentered.entered hbase hlt hc hm
        rw [hf] at hframes
        exact ⟨(List.cons.inj hframes).2, hlen, hslots⟩
      refine ⟨⟨?_, fun j => ?_⟩, ?_⟩
      · exact (withVm_size u k _).trans hsize
      · by_cases hjk : k = j
        · subst hjk
          show (s.machine k).Confines ((u.withVm k _).machine k)
          rw [withVm_machine hku]
          refine ⟨hentered.opened, fun hc hm => ?_, fun hc hm => (hback hc hm).1, fun hc hm => ?_⟩
          · obtain ⟨hfs, hlen, _⟩ := hback hc hm
            have hframed := hm.withSlots (Nat.le_trans hbase hlen)
            unfold Machine.Framed at hframed ⊢
            rw [hfs]
            exact hframed
          · have hslots := congrArg (List.take (s.machine k).baseOf) (hback hc hm).2.2
            rw [List.take_take, List.take_take, Nat.min_eq_left hbase] at hslots
            exact hslots
        · show (s.machine j).Confines ((u.withVm k _).machine j)
          rw [withVm_machine_ne hjk]
          exact hother j hjk
      · show ((u.withVm k _).machine k).closed = false → _ →
          ((u.withVm k _).machine k).slots.take position = _
        rw [withVm_machine hku]
        exact fun hc hm => (hback hc hm).2.2

/-- Leaving a frame leaves a machine as open as it is. -/
theorem leaving_closed (h : onMachine k Vm.leaveFrame s = .ok () u) :
    (u.machine k).closed = (s.machine k).closed := by
  cases hf : (s.machine k).frames with
  | nil =>
      rw [onMachine_error (leaveFrame_none hf)] at h
      cases h
  | cons b fs =>
      rw [onMachine_ok (leaveFrame_eq hf)] at h
      cases h
      by_cases hk : k < s.machines.size
      · rw [withVm_machine hk]
        rfl
      · rw [withVm_machine_none hk]

/-- Putting results at a position that a call has come back to. -/
theorem replacing (hk : k < s.machines.size) (hbase : (s.machine k).baseOf ≤ position)
    (hlt : position < (s.machine k).slots.length) (h : Returned k (position + 1) s u)
    (values : List Value) :
    ∃ t, onMachine k (Vm.replaceFrom position values) u = .ok () t ∧ Returned k position s t
      ∧ (t.machine k).closed = (u.machine k).closed
      ∧ ((t.machine k).closed = false → (s.machine k).Framed →
          (t.machine k).slots = (s.machine k).slots.take position ++ values) := by
  have hku : k < u.machines.size := by rw [h.confined.size]; exact hk
  let m : Machine := { u.machine k with slots := (u.machine k).slots.take position ++ values }
  have hm : (u.withVm k { u.vm k with machine := m }).machine k = m := withVm_machine hku _
  have hslots : m.closed = false → (s.machine k).Framed →
      m.slots = (s.machine k).slots.take position ++ values := by
    intro hc hframed
    have hbelow := congrArg (List.take position) (h.below hc hframed)
    rw [List.take_take, List.take_take, Nat.min_eq_left (Nat.le_succ position)] at hbelow
    show (u.machine k).slots.take position ++ values = _
    rw [hbelow]
  refine ⟨_, rfl, ⟨⟨?_, fun j => ?_⟩, ?_⟩, ?_, ?_⟩
  · exact (withVm_size u k _).trans h.confined.size
  · by_cases hjk : k = j
    · subst hjk
      show (s.machine k).Confines ((u.withVm k { u.vm k with machine := m }).machine k)
      rw [hm]
      refine (h.confined.machine k).trans_of (fun hc => hc) fun hc hframed => ?_
      refine Machine.Confines.of_take (fun _ => ?_) values
      unfold Machine.baseOf
      rw [(h.confined.machine k).frames hc hframed]
      exact hbase
    · show (s.machine j).Confines ((u.withVm k { u.vm k with machine := m }).machine j)
      rw [withVm_machine_ne hjk]
      exact h.confined.machine j
  · show ((u.withVm k { u.vm k with machine := m }).machine k).closed = false → _ →
      ((u.withVm k { u.vm k with machine := m }).machine k).slots.take position = _
    rw [hm]
    intro hc hframed
    rw [hslots hc hframed, List.take_append_of_le_length]
    · rw [List.take_take, Nat.min_self]
    · rw [List.length_take]
      omega
  · show ((u.withVm k { u.vm k with machine := m }).machine k).closed = _
    rw [hm]
  · show ((u.withVm k { u.vm k with machine := m }).machine k).closed = false → _ →
      ((u.withVm k { u.vm k with machine := m }).machine k).slots = _
    rw [hm]
    exact hslots

/-- What a call leaves, whichever way what ran in its frame has ended. -/
theorem returning_returned (hk : k < s.machines.size) (hbase : (s.machine k).baseOf ≤ position)
    (hlt : position < (s.machine k).slots.length) (wanted : Int) {body : Action (List Value)}
    (hbody : Confined (entering k (position + 1) s) (final (body (entering k (position + 1) s)))) :
    Returned k position s
        (final (returning k position wanted body (entering k (position + 1) s)))
      ∧ ∀ t, returning k position wanted body (entering k (position + 1) s) = .ok () t →
          ∃ values u, body (entering k (position + 1) s) = .ok values u
            ∧ (t.machine k).closed = (u.machine k).closed
            ∧ ((t.machine k).closed = false → (s.machine k).Framed →
                (t.machine k).slots
                  = (s.machine k).slots.take position ++ Vm.adjustResults wanted values) := by
  have hle : (s.machine k).baseOf ≤ position + 1 := Nat.le_succ_of_le hbase
  have hleft := leaving hk hle hlt hbody
  have hshort : ∀ u, Returned k (position + 1) s u → Returned k position s u := by
    intro u hu
    refine ⟨hu.confined, fun hc hm => ?_⟩
    have hbelow := congrArg (List.take position) (hu.below hc hm)
    rw [List.take_take, List.take_take, Nat.min_eq_left (Nat.le_succ position)] at hbelow
    exact hbelow
  rw [← ensuring_final] at hleft
  unfold returning
  rw [bind_apply]
  cases hr : ensuring body (onMachine k Vm.leaveFrame) (entering k (position + 1) s) with
  | error e v =>
      rw [hr] at hleft
      exact ⟨hshort v hleft, fun t ht => by cases ht⟩
  | ok values v =>
      rw [hr] at hleft
      dsimp only [final] at hleft
      obtain ⟨u, hu, hv⟩ := ensuring_ok hr
      obtain ⟨t, ht, hreturned, hclosed, hslots⟩ :=
        replacing hk hbase hlt hleft (Vm.adjustResults wanted values)
      dsimp only
      rw [ht]
      refine ⟨hreturned, fun t' ht' => ?_⟩
      cases ht'
      exact ⟨values, u, hu, hclosed.trans (leaving_closed hv), hslots⟩

end

/-- Going back to the frames of an earlier moment and leaving one value. -/
theorem recover_confines {m : Machine} {vm : Vm} (h : m.Confines vm.machine) (position : Int)
    (raised : Value) :
    m.Confines (final (Vm.recover m.frames.length position raised vm)).machine := by
  obtain ⟨cut, hcut, h'⟩ := recover_cases m.frames.length position raised vm
  -- an operation in the same frames has left nothing to be dropped
  have hsame : vm.machine.closed = false → m.Framed → cut = vm := by
    intro hc hm
    rw [hcut, ← h.frames hc hm, Nat.sub_self, List.drop_zero]
  have hclosed : cut.machine.closed = vm.machine.closed := by rw [hcut]
  rcases h' with ⟨_, f, _, heq⟩ | ⟨b, fs, hf, heq⟩
  · rw [heq]
    refine h.trans_of (fun hc => hclosed.symm.trans hc) fun hc hm => ?_
    rw [final, hsame hc hm]
    exact Machine.Confines.refl _
  · rw [heq]
    refine h.trans_of (fun hc => hclosed.symm.trans hc) fun hc hm => ?_
    rw [hsame hc hm] at hf
    rw [final, hsame hc hm]
    refine Machine.Confines.of_take (fun _ => ?_) [raised]
    rw [Vm.baseOf_eq hf]
    omega

/-- Calls keep to the frame of the caller. -/
instance : Encloses Within Confined where
  way h := h.within
  trans h h' := h.trans h'
  entering hk hbase hlt := entering_within hk hbase hlt
  leaving {s u k position} hk hbase hlt h := by
    have hleft := leaving hk (Nat.le_succ_of_le hbase) hlt h
    refine ⟨hleft.confined, fun t ht values => ?_⟩
    rw [ht] at hleft
    obtain ⟨v, hv, hreturned, _⟩ := replacing hk hbase hlt hleft values
    have hfinal : final (onMachine k (Vm.replaceFrom position values) t) = v := congrArg final hv
    rw [hfinal]
    exact hreturned.confined
  recovering k position raised h := by
    rw [onMachine_final]
    exact h.withVm (recover_confines (h.machine k) position raised)

theorem contained_invoke (fuel : Nat) (f : FunctionObject) :
    Contained fun run => invoke ctx run fuel k f :=
  holds_invoke trivial fuel f

theorem contained_callee (fuel : Nat) (f : FunctionObject) : Contained (callee ctx fuel k f) :=
  holds_callee trivial fuel f

theorem contained_step (fuel : Nat) (op : Op) : Contained fun run => step ctx run fuel op :=
  holds_step fun _ _ => holds_perform trivial fuel op

/-- Blocks keep to the running frame, to any depth of blocks within blocks. -/
theorem keeps_runBlock (ctx : Context) (fuel : Nat) (b : BlockId) :
    Keeps Confined (runBlock ctx fuel b) :=
  keeps_block Within ctx fuel b

/-- However a call ends, what is below the called function is as it was. -/
theorem call_returned {s : Session} {run : BlockId → Action Unit}
    (hrun : ∀ b, Keeps Confined (run b)) (fuel : Nat) (args wanted : Int) {position : Nat}
    (hposition : position = ((s.machine k).slots.length - args - 1 : Int).toNat) :
    Returned k position s (final (call ctx run fuel k args wanted s)) := by
  rcases call_cases ctx fuel k args wanted s with ⟨e, hfail⟩ | ⟨p, f, hp, hlt, hbase, _, hcall⟩
  · rw [hfail]
    exact ⟨Std.Refl.refl s, fun _ _ => rfl⟩
  · obtain rfl : p = position := by omega
    rw [hcall]
    exact (returning_returned (lt_size_of_slots hlt) hbase hlt wanted
      ((contained_callee fuel f).keeps_of_run hrun _)).1

end Session

end StackBridge
