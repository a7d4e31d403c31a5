import StackBridge.Bridge.Equality
import StackBridge.Proofs.Read.Untouched
import StackBridge.Proofs.Wrapper.References

/-!
What wrappers leave on the stack. Asking a wrapper for the category of its value, or
for its display, puts the value on the stack of its machine for the moment and takes
it off again, and releasing it moves nothing on the stack (`wrappedCategory_live`,
`displayWrapped_eq`, `release_neutral`).

The two operations that leave something behind are those with a step outside of the
block that takes the value off. Reading a wrapper as a type pops the value once it
has been read, so a read that fails leaves it (`convertStored_ends`). Comparing two
wrappers pushes both before it looks, so where the second one has been released the
value of the first one stays (`sameWrapped_released`). `wrapper_methods_leave` says
that this is all.
-/

namespace StackBridge

namespace Session

open Bridge

variable {ctx : Context} {run : BlockId → Action Unit} {fuel : Nat} {k : MachineId}
  {s t : Session} {id other : Nat} {v w : Value}

-- ============================================================ what is held

/-- Slots and frames of machine `k` are as they were. -/
def SameStack (k : MachineId) (s t : Session) : Prop :=
  (t.machine k).slots = (s.machine k).slots ∧ (t.machine k).frames = (s.machine k).frames

theorem SameStack.refl (k : MachineId) (s : Session) : SameStack k s s := ⟨rfl, rfl⟩

/-- What a wrapper holds on to, if anything, is a value of some category. -/
def HoldsProper (s : Session) (id : Nat) : Prop := ∀ v ∈ s.wrapped? id, v.category?.isSome

instance : Decidable (s.HoldsProper id) :=
  inferInstanceAs (Decidable (∀ v ∈ s.wrapped? id, v.category?.isSome))

theorem HoldsProper.category (h : s.HoldsProper id) (hv : s.wrapped? id = some v) :
    ∃ c, v.category? = some c :=
  Option.isSome_iff_exists.mp (h v hv)

theorem wrapped?_eq_none : s.wrapped? id = none ↔ (s.wrapper id).anchor = .released := by
  unfold wrapped?
  dsimp only
  cases (s.wrapper id).anchor <;> simp

/-- What a wrapper holds on to does not stand on the stack. -/
theorem wrapped?_withSlots (s : Session) (k : MachineId) (l : List Value) (id : Nat) :
    (s.withSlots k l).wrapped? id = s.wrapped? id := by
  rcases hw : s.wrapper id with ⟨j, anchor⟩
  have hregistry : ((s.withSlots k l).machine j).registry = (s.machine j).registry := by
    by_cases hne : k = j
    · by_cases hk : k < s.machines.size
      · rw [← hne, withSlots_machine hk]
      · rw [← hne, withSlots_machine_none hk]
    · unfold Session.withSlots
      rw [withVm_machine_ne hne]
  cases anchor with
  | released => rw [wrapped?_released hw, wrapped?_released (s := s.withSlots k l) hw]
  | nil => rw [wrapped?_nil hw, wrapped?_nil (s := s.withSlots k l) hw]
  | entry r =>
      rw [wrapped?_entry hw, wrapped?_entry (s := s.withSlots k l) hw]
      exact congrArg (fun i => some ((s.heap.table i).get (.int r))) hregistry

/-- The value of a wrapper comes on top. -/
theorem pushWrapped_value (h : s.HoldsProper id) (hk : (s.wrapper id).machine = k)
    (hv : s.wrapped? id = some v) :
    pushWrapped id s = .ok () (s.withSlots k ((s.machine k).slots ++ [v])) := by
  obtain ⟨c, hc⟩ := h.category hv
  exact hk ▸ pushWrapped_live rfl hv hc

/-- Of a wrapper that has been released nothing comes on top. -/
theorem pushWrapped_none (hv : s.wrapped? id = none) :
    pushWrapped id s = .error (.failed (.misuse .released)) s :=
  pushWrapped_released (j := (s.wrapper id).machine) (by rw [← wrapped?_eq_none.mp hv])

-- ======================================================= off again at once

/-- Values that have been put on top are taken off again. -/
theorem pop_pushed (hk : k < s.machines.size) (hl : (s.machine k).Live) (xs : List Value) :
    onMachine k (Vm.pop xs.length) (s.withSlots k ((s.machine k).slots ++ xs)) = .ok () s := by
  obtain ⟨_, b, fs, hf, hb⟩ := hl
  have hvm : (s.withSlots k ((s.machine k).slots ++ xs)).vm k
      = (s.vm k).withSlots ((s.machine k).slots ++ xs) := vm_withVm hk _
  have hpop : Vm.pop xs.length ((s.withSlots k ((s.machine k).slots ++ xs)).vm k)
      = .ok () ((s.vm k).withSlots (s.machine k).slots) := by
    rw [hvm]
    exact Vm.pop_eq hf rfl hb
  rw [onMachine_ok hpop]
  unfold Session.withSlots
  rw [withVm_withVm]
  exact congrArg _ (withVm_vm s k)

/-- A look at values that have been put on top, which are taken off again. -/
theorem ensuring_pushed {α : Type} (hk : k < s.machines.size) (hl : (s.machine k).Live)
    (xs : List Value) {a : Vm.Action α} {x : α}
    (ha : a ((s.vm k).withSlots ((s.machine k).slots ++ xs))
      = .ok x ((s.vm k).withSlots ((s.machine k).slots ++ xs))) :
    ensuring (onMachine k a) (onMachine k (Vm.pop xs.length))
      (s.withSlots k ((s.machine k).slots ++ xs)) = .ok x s := by
  have hvm : (s.withSlots k ((s.machine k).slots ++ xs)).vm k
      = (s.vm k).withSlots ((s.machine k).slots ++ xs) := vm_withVm hk _
  rw [← hvm] at ha
  rw [ensuring_eq, onMachine_look ha]
  dsimp only
  rw [bind_ok (pop_pushed hk hl xs)]
  rfl

/-- Asking for the category of a wrapped value leaves the session as it is. -/
theorem wrappedCategory_live (hk : k < s.machines.size) (hl : (s.machine k).Live)
    (hid : (s.wrapper id).machine = k) (h : s.HoldsProper id) (hv : s.wrapped? id = some v) :
    ∃ c, v.category? = some c ∧ wrappedCategory id s = .ok c s := by
  obtain ⟨c, hc⟩ := h.category hv
  have ⟨_, b, fs, hf, hb⟩ := hl
  refine ⟨c, hc, ?_⟩
  have htop : Vm.valueAt? (-1) ((s.vm k).withSlots ((s.machine k).slots ++ [v]))
      = .ok (some v) ((s.vm k).withSlots ((s.machine k).slots ++ [v])) :=
    Vm.valueAt?_behind (r := []) hf rfl hb (by simp)
  unfold wrappedCategory
  rw [bind_ok (get_apply s), bind_ok (pushWrapped_value h hid hv), hid]
  exact ensuring_pushed hk hl [v] (Vm.categoryAt_eq htop hc)

/-- A wrapper on display, found out on its machine. -/
def displayWrapped (id : Nat) : Action String := do
  if ((← get).wrapper id).anchor = .released then return "LuaObject(<released>)"
  return "LuaObject(" ++ (← wrappedCategory id).label ++ ")"

/-- Displaying a wrapper leaves the session as it is, and comes to the text that is
read off the session. -/
theorem displayWrapped_eq (hk : k < s.machines.size) (hl : (s.machine k).Live)
    (hid : (s.wrapper id).machine = k) (h : s.HoldsProper id) :
    ∃ text, s.wrapperText id = .ok text ∧ displayWrapped id s = .ok text s := by
  unfold displayWrapped wrapperText
  rw [bind_ok (get_apply s)]
  cases hv : s.wrapped? id with
  | none =>
      rw [if_pos (wrapped?_eq_none.mp hv)]
      exact ⟨_, rfl, rfl⟩
  | some v =>
      obtain ⟨c, hc, hlook⟩ := wrappedCategory_live hk hl hid h hv
      have hlive : ¬ (s.wrapper id).anchor = .released := by
        rw [← wrapped?_eq_none, hv]
        exact Option.some_ne_none v
      rw [if_neg hlive, bind_ok hlook]
      dsimp only
      rw [hc]
      exact ⟨_, rfl, rfl⟩

-- =================================================================== release

/-- Releasing a wrapper moves nothing on the stack. -/
theorem release_neutral (hl : (s.machine k).Live) (hid : (s.wrapper id).machine = k) :
    SameStack k s (final (release id s)) := by
  by_cases hreleased : (s.wrapper id).anchor = .released
  · rw [release_released hreleased]
    exact .refl k s
  · have hopen : (s.machine (s.wrapper id).machine).closed = false := hid ▸ hl.opened
    by_cases hr : (s.wrapper id).anchor.number < 0
    · rw [release_open hreleased hopen (Vm.unref_none hr), withVm_vm]
      exact .refl k s
    · rw [release_open hreleased hopen (Vm.unref_apply (Int.not_lt.mp hr)), hid]
      show SameStack k s (s.withVm k ((s.vm k).afterUnref _))
      unfold SameStack
      by_cases hk : k < s.machines.size
      · rw [withVm_machine hk]
        exact ⟨rfl, rfl⟩
      · rw [withVm_machine_none hk]
        exact ⟨rfl, rfl⟩

-- =================================================================== reading

/-- Reading a wrapper as a type leaves the stack as it was; a read that stops leaves
the value on top, if there is one. -/
theorem convertStored_ends (hk : k < s.machines.size) (hl : (s.machine k).Live)
    (hid : (s.wrapper id).machine = k) (h : s.HoldsProper id) (custom : Bool) (t : TypeExpr) :
    Ends (convertStored ctx run fuel (.wrapper id custom) t s) (fun _ u => SameStack k s u)
      fun _ u => (u.machine k).slots = (s.machine k).slots ++ (s.wrapped? id).toList
        ∧ (u.machine k).frames = (s.machine k).frames := by
  show Ends ((do
    let k := ((← get).wrapper id).machine
    pushWrapped id
    popValue ctx run fuel k .standard t : Action HostValue) s) _ _
  rw [bind_ok (get_apply s), hid]
  cases hv : s.wrapped? id with
  | none =>
      rw [bind_error (pushWrapped_none hv)]
      exact ⟨(List.append_nil _).symm, rfl⟩
  | some v =>
      rw [bind_ok (pushWrapped_value h hid hv)]
      have hadds : Leaves (GainsEntries k) k [v] s (s.withSlots k ((s.machine k).slots ++ [v])) :=
        push_leaves hk v
      have hstandard : Bridge.Raises .standard := trivial
      refine (popValue_ends hstandard fuel t (by rw [hadds.size]; exact hk)
        (hadds.live hl)).mono ?_ ?_
      · rintro _ u ⟨⟨w, hw⟩, hframes, _⟩
        rw [hadds.slots] at hw
        exact ⟨(List.append_inj_left' hw rfl).symm, hframes.trans hadds.frames⟩
      · intro _ u hu
        have hu' := hadds.trans hu
        rw [List.append_nil] at hu'
        exact ⟨hu'.slots, hu'.frames⟩

-- ================================================================== equality

/-- Comparing two wrappers that hold on to values leaves the session as it is. -/
theorem sameWrapped_live (hk : k < s.machines.size) (hl : (s.machine k).Live)
    (hid : (s.wrapper id).machine = k) (hother : (s.wrapper other).machine = k)
    (h : s.HoldsProper id) (h' : s.HoldsProper other) (hv : s.wrapped? id = some v)
    (hw : s.wrapped? other = some w) : sameWrapped id other s = .ok (w.rawEqual v) s := by
  have ⟨_, b, fs, hf, hb⟩ := hl
  obtain ⟨c, hc⟩ := h.category hv
  obtain ⟨c', hc'⟩ := h'.category hw
  let s₁ := s.withSlots k ((s.machine k).slots ++ [v])
  let vm := (s.vm k).withSlots ((s.machine k).slots ++ [v, w])
  have hsecond : pushWrapped other s₁ = .ok () (s.withSlots k ((s.machine k).slots ++ [v, w])) := by
    have hmachine : s₁.machine k = { s.machine k with slots := (s.machine k).slots ++ [v] } :=
      withSlots_machine hk _
    have hheld : s₁.wrapped? other = some w := (wrapped?_withSlots s k _ other).trans hw
    have hanchor : s₁.wrapper other = ⟨k, (s.wrapper other).anchor⟩ := by rw [← hother]; rfl
    rw [pushWrapped_live hanchor hheld hc', hmachine, withSlots_withSlots hk, List.append_assoc]
    rfl
  have hv₁ : Vm.valueAt? (-1) vm = .ok (some w) vm := by
    refine Vm.valueAt?_behind (l := (s.machine k).slots ++ [v]) (r := []) hf ?_ ?_ (by simp)
    · exact (List.append_assoc _ [v] [w]).symm
    · rw [List.length_append]
      omega
  have hv₂ : Vm.valueAt? (-2) vm = .ok (some v) vm := Vm.valueAt?_second hf rfl hb
  have hequal : Vm.rawEqual (-1) (-2) vm = .ok (w.rawEqual v) vm := by
    unfold Vm.rawEqual
    rw [bind_ok hv₁, bind_ok hv₂]
    show Vm.rawEqualValues w v vm = _
    unfold Vm.rawEqualValues
    rw [bind_ok (Vm.categoryOf_eq hc' vm), bind_ok (Vm.categoryOf_eq hc vm)]
    rfl
  unfold sameWrapped
  rw [bind_ok (get_apply s), bind_ok (get_apply s), hother, hid, if_neg (fun hne => hne rfl),
    bind_ok (pushWrapped_value h hid hv), bind_ok hsecond]
  exact ensuring_pushed hk hl [v, w] hequal

/-- Where the second wrapper has been released, the value of the first one stays. -/
theorem sameWrapped_released (hid : (s.wrapper id).machine = k)
    (hother : (s.wrapper other).machine = k) (h : s.HoldsProper id) (hv : s.wrapped? id = some v)
    (hw : s.wrapped? other = none) :
    sameWrapped id other s
      = .error (.failed (.misuse .released)) (s.withSlots k ((s.machine k).slots ++ [v])) := by
  have hheld : (s.withSlots k ((s.machine k).slots ++ [v])).wrapped? other = none :=
    (wrapped?_withSlots s k _ other).trans hw
  unfold sameWrapped
  rw [bind_ok (get_apply s), bind_ok (get_apply s), hother, hid, if_neg (fun hne => hne rfl),
    bind_ok (pushWrapped_value h hid hv), bind_error (pushWrapped_none hheld)]

/-- Comparing a wrapper with what is no wrapper does nothing on any machine. -/
theorem equality_apart (cs : Classes) (custom : Bool) {x : HostValue}
    (hx : ∀ other c, x ≠ .wrapper other c) :
    ∃ r, equality cs (.wrapper id custom) x s = .ok r s := by
  obtain ⟨b, hequal⟩ : ∃ b, equal cs (.wrapper id custom) x s = .ok b s := by
    unfold equal
    cases (HostValue.wrapper id custom).depth + x.depth with
    | zero =>
        cases x with
        | wrapper other c => exact absurd rfl (hx other c)
        | _ => exact ⟨_, rfl⟩
    | succ n =>
        cases x with
        | wrapper other c => exact absurd rfl (hx other c)
        | _ => exact ⟨_, rfl⟩
  by_cases hsized : x.isSized = true
  · -- a sized number has no items, so the answer is a sized truth value
    have hanswer : equality cs (.wrapper id custom) x s
        = (do return .boolean true (← equal cs (.wrapper id custom) x) : Action HostValue) s := by
      unfold equality
      rw [hsized, Bool.or_true, if_pos rfl]
      cases x with
      | boolean sized b => rfl
      | integer kind n => rfl
      | float kind y => rfl
      | _ => cases hsized
    rw [hanswer, bind_ok hequal]
    exact ⟨_, rfl⟩
  · have hanswer : equality cs (.wrapper id custom) x s
        = (do return .bool (← equal cs (.wrapper id custom) x) : Action HostValue) s := by
      unfold equality
      rw [Bool.eq_false_iff.mpr hsized]
      rfl
    rw [hanswer, bind_ok hequal]
    exact ⟨_, rfl⟩

/-- Of two wrappers that are compared, the one that is asked and the other one: the first
one is asked, unless only the second one is of a class of the program. -/
def asked (id : Nat) (custom : Bool) (other : Nat) (custom' : Bool) : Nat × Nat :=
  if custom' && !custom then (other, id) else (id, other)

theorem equality_wrapper (cs : Classes) (custom custom' : Bool) (other : Nat) {first second : Nat}
    (hasked : asked id custom other custom' = (first, second)) :
    equality cs (.wrapper id custom) (.wrapper other custom') s
      = (do return .bool (← sameWrapped first second) : Action HostValue) s := by
  have hequal : equal cs (.wrapper id custom) (.wrapper other custom')
      = if custom' && !custom then sameWrapped other id else sameWrapped id other := by
    unfold equal
    cases (HostValue.wrapper id custom).depth + (HostValue.wrapper other custom').depth <;> rfl
  unfold asked at hasked
  unfold equality
  rw [hequal]
  split at hasked <;> cases hasked <;> rename_i hturn
  · rw [if_pos hturn]
    rfl
  · rw [if_neg hturn]
    rfl

/-- The value of the first wrapper stays when the second one has been released. -/
structure Lingers (k : MachineId) (first second : Nat) (s : Session)
    (r : EStateM.Result Stop Session HostValue) : Prop where
  released : s.wrapped? second = none
  stays : ∃ v, s.wrapped? first = some v
    ∧ r = .error (.failed (.misuse .released)) (s.withSlots k ((s.machine k).slots ++ [v]))

/-- Wrappers of different machines are not compared at all. -/
theorem sameWrapped_apart (hne : (s.wrapper other).machine ≠ (s.wrapper id).machine) :
    sameWrapped id other s = .ok false s := by
  unfold sameWrapped
  rw [bind_ok (get_apply s), bind_ok (get_apply s), if_pos hne]
  rfl

/-- Comparing two wrappers of a machine leaves the session as it is, or the value of the
first one on top. -/
theorem sameWrapped_leaves (hk : k < s.machines.size) (hl : (s.machine k).Live)
    (hid : (s.wrapper id).machine = k) (hother : (s.wrapper other).machine = k)
    (h : ∀ id, s.HoldsProper id) :
    final ((do return .bool (← sameWrapped id other) : Action HostValue) s) = s
      ∨ Lingers k id other s ((do return .bool (← sameWrapped id other) : Action HostValue) s) := by
  cases hv : s.wrapped? id with
  | none =>
      have hstopped : sameWrapped id other s = .error (.failed (.misuse .released)) s := by
        unfold sameWrapped
        rw [bind_ok (get_apply s), bind_ok (get_apply s), hother, hid, if_neg (fun hne => hne rfl),
          bind_error (pushWrapped_none hv)]
      rw [bind_error hstopped]
      exact Or.inl rfl
  | some v =>
      cases hw : s.wrapped? other with
      | none =>
          exact Or.inr ⟨hw, v, hv, bind_error (sameWrapped_released hid hother (h id) hv hw)⟩
      | some w =>
          rw [bind_ok (sameWrapped_live hk hl hid hother (h id) (h other) hv hw)]
          exact Or.inl rfl

-- =============================================================== the methods

/-- What the methods of a wrapper leave on an open machine whose wrappers hold on to
proper values. Category, type name and display leave the session as it is, and releasing
leaves slots and frames as they are. Reading as a type does so if it answers, and if it
stops it leaves the value on top, if the wrapper has one. Comparing with anything leaves
the session as it is, unless of two wrappers the one that is asked has a value and the
other one has been released: then that value is left on top. -/
theorem wrapper_methods_leave (ctx : Context) (run : BlockId → Action Unit) (fuel : Nat)
    {s : Session} {id : Nat} {k : MachineId} (custom : Bool) (hid : (s.wrapper id).machine = k)
    (hk : k < s.machines.size) (hl : (s.machine k).Live) (h : ∀ id, s.HoldsProper id) :
    final (describeStored (.wrapper id custom) s) = s
      ∧ (∃ text, s.wrapperText id = .ok text ∧ displayWrapped id s = .ok text s)
      ∧ SameStack k s (final (releaseStored (.wrapper id custom) s))
      ∧ (∀ t, Ends (convertStored ctx run fuel (.wrapper id custom) t s)
          (fun _ u => SameStack k s u)
          fun _ u => (u.machine k).slots = (s.machine k).slots ++ (s.wrapped? id).toList
            ∧ (u.machine k).frames = (s.machine k).frames)
      ∧ ∀ x, final (equality ctx.classes (.wrapper id custom) x s) = s
          ∨ ∃ other custom' first second, x = .wrapper other custom'
            ∧ (s.wrapper other).machine = k ∧ asked id custom other custom' = (first, second)
            ∧ Lingers k first second s (equality ctx.classes (.wrapper id custom) x s) := by
  refine ⟨?_, displayWrapped_eq hk hl hid (h id), release_neutral hl hid,
    fun t => convertStored_ends hk hl hid (h id) custom t, fun x => ?_⟩
  · cases hv : s.wrapped? id with
    | none =>
        show final ((wrappedCategory id >>= _) s) = s
        unfold wrappedCategory
        rw [bind_assoc, bind_ok (get_apply s), bind_error (bind_error (pushWrapped_none hv))]
        rfl
    | some v =>
        obtain ⟨c, _, hlook⟩ := wrappedCategory_live hk hl hid (h id) hv
        show final ((wrappedCategory id >>= _) s) = s
        rw [bind_ok hlook]
        rfl
  · by_cases hx : ∃ other custom', x = .wrapper other custom'
    · obtain ⟨other, custom', rfl⟩ := hx
      obtain ⟨first, second, hasked⟩ : ∃ first second,
          asked id custom other custom' = (first, second) := ⟨_, _, rfl⟩
      rw [equality_wrapper ctx.classes custom custom' other hasked]
      by_cases hother : (s.wrapper other).machine = k
      · have hmachines : (s.wrapper first).machine = k ∧ (s.wrapper second).machine = k := by
          unfold asked at hasked
          split at hasked <;> cases hasked
          · exact ⟨hother, hid⟩
          · exact ⟨hid, hother⟩
        exact (sameWrapped_leaves hk hl hmachines.1 hmachines.2 h).imp_right fun hlingers =>
          ⟨other, custom', first, second, rfl, hother, hasked, hlingers⟩
      · have hne : (s.wrapper second).machine ≠ (s.wrapper first).machine := by
          unfold asked at hasked
          split at hasked <;> cases hasked
          · exact fun heq => hother (heq.symm.trans hid)
          · exact fun heq => hother (heq.trans hid)
        rw [bind_ok (sameWrapped_apart hne)]
        exact Or.inl rfl
    · obtain ⟨r, hr⟩ : ∃ r, equality ctx.classes (.wrapper id custom) x s = .ok r s :=
        equality_apart ctx.classes custom fun other custom' heq => hx ⟨other, custom', heq⟩
      rw [hr]
      exact Or.inl rfl

/-- A session in which an integer has been wrapped twice, the second wrapper has been
released and the stack is empty again. -/
def oneReleased : Session :=
  let setup : Action Unit := do
    push 0 (.int 5)
    let _ ← wrap 0 (-1)
    let second ← wrap 0 (-1)
    release second
    onMachine 0 (Vm.setTop 0)
  final (setup (Session.start 1 true))

theorem oneReleased_proper : ∀ id, oneReleased.HoldsProper id
  | 0 => by decide +kernel
  | 1 => by decide +kernel
  | n + 2 => by
    have hbeyond : oneReleased.wrapper (n + 2) = ⟨0, .released⟩ :=
      wrapper_beyond (show 2 ≤ n + 2 from Nat.le_add_left 2 n)
    intro v hv
    rw [wrapped?_released hbeyond] at hv
    cases hv

theorem oneReleased_live : (oneReleased.machine 0).Live :=
  ⟨by decide +kernel, 0, [], by decide +kernel, Nat.zero_le _⟩

/-- What is so of the first of two wrappers of an integer, of which the second one has been
released. -/
theorem wrapper_methods_leave_integer :
    (oneReleased.wrapper 0).machine = 0 ∧ 0 < oneReleased.machines.size
      ∧ (oneReleased.machine 0).Live ∧ (∀ id, oneReleased.HoldsProper id)
      ∧ final (describeStored (.wrapper 0 false) oneReleased) = oneReleased
      ∧ SameStack 0 oneReleased (final (releaseStored (.wrapper 0 false) oneReleased)) :=
  have hid : (oneReleased.wrapper 0).machine = 0 := by decide +kernel
  have hk : 0 < oneReleased.machines.size := by decide +kernel
  have hleave := wrapper_methods_leave ⟨[], ⟨[], 1, true, #[], #[], 0⟩⟩ (fun _ => pure ()) 1 false
    hid hk oneReleased_live oneReleased_proper
  ⟨hid, hk, oneReleased_live, oneReleased_proper, hleave.1, hleave.2.2.1⟩

/-- The integer is left on the empty stack by comparing the two wrappers, and by reading the
first one as a text. -/
theorem methods_leave_value :
    (oneReleased.machine 0).slots = []
      ∧ (∃ t, equality [] (.wrapper 0 false) (.wrapper 1 false) oneReleased
            = .error (.failed (.misuse .released)) t
          ∧ (t.machine 0).slots = [.int 5])
      ∧ ∃ t, convertStored ⟨[], ⟨[], 1, true, #[], #[], 0⟩⟩ (fun _ => pure ()) 1 (.wrapper 0 false)
            (.cls (.text .plain)) oneReleased
            = .error (.failed (.machine (.str (utf8 "expected string, got number")) none)) t
          ∧ (t.machine 0).slots = [.int 5] :=
  ⟨by decide +kernel, ⟨_, stopped_final (by decide +kernel), by decide +kernel⟩,
    ⟨_, stopped_final (by decide +kernel), by decide +kernel⟩⟩

end Session

end StackBridge
