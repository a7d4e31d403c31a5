import StackBridge.Proofs.Frames.Primitives
import StackBridge.Proofs.Machine.Top

/-!
Whether a machine counts as closed makes no difference to what it does. No
primitive looks at the mark that closing leaves (`Command.blind`), and so no
sequence of primitives does (`Script.blind`): a machine that has been closed, and
has its one frame, goes on exactly as a fresh one would, with the same answers,
the same failures, the same slots and tables. What does look at the mark is the
bridge around the machine.
-/

namespace StackBridge

namespace Vm

variable {α β : Type}

/-- The same machine, counted as closed or as open. -/
def marked (vm : Vm) (b : Bool) : Vm := { vm with machine := { vm.machine with closed := b } }

/-- The same result, but for the mark on the machine that it leaves. -/
def remarked (b : Bool) : EStateM.Result Failure Vm α → EStateM.Result Failure Vm α
  | .ok x vm => .ok x (vm.marked b)
  | .error f vm => .error f (vm.marked b)

/-- Comes to the same on a machine, however it is marked. -/
def Blind (a : Action α) : Prop := ∀ vm b, ∃ b', a (vm.marked b) = remarked b' (a vm)

-- ================================================================== sequences

theorem blind_pure (x : α) : Blind (pure x : Action α) := fun _ b => ⟨b, rfl⟩

theorem blind_throw (f : Failure) : Blind (throw f : Action α) := fun _ b => ⟨b, rfl⟩

theorem blind_fail (m : Misuse) : Blind (fail m : Action α) := blind_throw _

theorem Blind.bind {a : Action α} {f : α → Action β} (ha : Blind a) (hf : ∀ x, Blind (f x)) :
    Blind (a >>= f) := by
  intro vm b
  obtain ⟨b', hb'⟩ := ha vm b
  rw [bind_apply, bind_apply, hb']
  cases a vm with
  | ok x t => exact hf x t b'
  | error e t => exact ⟨b', rfl⟩

/-- Looking at the machine, though not at the mark. -/
theorem blind_getMachine {f : Machine → Action α}
    (hunseen : ∀ m b, f { m with closed := b } = f m) (hf : ∀ m, Blind (f m)) :
    Blind (getMachine >>= f) := by
  intro vm b
  obtain ⟨b', hb'⟩ := hf vm.machine vm b
  refine ⟨b', ?_⟩
  show f { vm.machine with closed := b } (vm.marked b) = remarked b' (f vm.machine vm)
  rw [hunseen]
  exact hb'

theorem blind_getHeap {f : Heap → Action α} (hf : ∀ h, Blind (f h)) : Blind (getHeap >>= f) :=
  fun vm b => hf vm.heap vm b

theorem blind_modify {g : Vm → Vm} (hg : ∀ vm b, ∃ b', g (vm.marked b) = (g vm).marked b') :
    Blind (modify g : Action Unit) := by
  intro vm b
  obtain ⟨b', hb'⟩ := hg vm b
  exact ⟨b', congrArg (EStateM.Result.ok ()) hb'⟩

/-- Changing the machine, though not by the mark. -/
theorem blind_modifyMachine {g : Machine → Machine}
    (hg : ∀ m b, g { m with closed := b } = { g m with closed := b }) :
    Blind (modifyMachine g) :=
  blind_modify fun vm b =>
    ⟨b, congrArg (fun m => ({ vm with machine := m } : Vm)) (hg vm.machine b)⟩

-- ==================================================================== looking

theorem blind_base : Blind base := by
  intro vm b
  refine ⟨b, ?_⟩
  cases hf : vm.machine.frames with
  | nil =>
      rw [base_none hf]
      exact base_none hf
  | cons n fs =>
      rw [base_eq hf]
      exact base_eq hf

theorem blind_slot (index : Int) : Blind (slot index) := by
  unfold slot
  split
  · refine blind_base.bind fun b => blind_getMachine (fun _ _ => rfl) fun m => ?_
    split
    · exact blind_pure _
    · exact blind_fail _
  · split
    · refine blind_getMachine (fun _ _ => rfl) fun m => blind_base.bind fun b => ?_
      split
      · exact blind_fail _
      · exact blind_pure _
    · exact blind_fail _

theorem blind_valueAt? (index : Int) : Blind (valueAt? index) := by
  unfold valueAt?
  split
  · exact blind_getMachine (fun _ _ => rfl) fun _ => blind_pure _
  · split
    · exact blind_base.bind fun _ => blind_getMachine (fun _ _ => rfl) fun _ => blind_pure _
    · exact (blind_slot index).bind fun _ =>
        blind_getMachine (fun _ _ => rfl) fun _ => blind_pure _

theorem blind_categoryOf (v : Value) : Blind (categoryOf v) := by
  unfold categoryOf
  cases v.category? with
  | some c => exact blind_pure c
  | none => exact blind_fail _

theorem blind_categoryAt (index : Int) : Blind (categoryAt index) := by
  refine (blind_valueAt? index).bind fun v => ?_
  cases v with
  | none => exact blind_pure _
  | some v => exact blind_categoryOf v

theorem blind_tableAt (index : Int) : Blind (tableAt index) := by
  refine (blind_valueAt? index).bind fun v => ?_
  split
  · exact blind_pure _
  · exact (blind_categoryOf _).bind fun _ => blind_fail _
  · exact blind_fail _

theorem blind_absIndex (index : Int) : Blind (absIndex index) := by
  unfold absIndex
  split
  · exact blind_pure _
  · exact blind_base.bind fun _ => blind_getMachine (fun _ _ => rfl) fun _ => blind_pure _

theorem blind_getTop : Blind getTop :=
  blind_base.bind fun _ => blind_getMachine (fun _ _ => rfl) fun _ => blind_pure _

theorem blind_toNumber (index : Int) : Blind (toNumber index) := by
  refine (blind_valueAt? index).bind fun v => ?_
  cases numeralOf? v with
  | none => exact blind_pure _
  | some n =>
      cases n with
      | float x => exact blind_pure x
      | int n =>
          dsimp only
          cases Double.ofInt? n with
          | some x => exact blind_pure x
          | none => exact blind_throw _

theorem blind_rawEqual (i j : Int) : Blind (rawEqual i j) := by
  refine (blind_valueAt? i).bind fun v => (blind_valueAt? j).bind fun w => ?_
  split
  · exact (blind_categoryOf _).bind fun _ => (blind_categoryOf _).bind fun _ => blind_pure _
  · exact blind_pure _

theorem blind_renderSlot (options : RenderOptions) (index : Int) :
    Blind (renderSlot options index) := by
  rw [renderSlot_eq]
  refine (blind_valueAt? index).bind fun v => ?_
  cases v with
  | none => exact blind_pure _
  | some v => exact (blind_categoryOf v).bind fun _ => blind_pure _

theorem blind_renderLines (options : RenderOptions) (depth : Int) (count : Nat) :
    Blind (renderLines options depth count) := by
  induction count with
  | zero => exact blind_pure _
  | succ i ih =>
      refine (blind_categoryAt _).bind fun c => (blind_renderSlot options _).bind fun text => ?_
      exact ih.bind fun lines => blind_pure _

theorem blind_renderStack (options : RenderOptions) : Blind (renderStack options) := by
  refine blind_getTop.bind fun depth => ?_
  split
  · exact blind_pure _
  · exact (blind_renderLines _ _ _).bind fun _ => blind_pure _

-- ==================================================================== slots

theorem blind_push (v : Value) : Blind (push v) := blind_modifyMachine fun _ _ => rfl

theorem blind_pushCopy (index : Int) : Blind (pushCopy index) := by
  refine (blind_valueAt? index).bind fun v => ?_
  cases v with
  | none => exact blind_fail _
  | some v => exact blind_push v

/-- A new object on the heap, and then something about its number. -/
theorem blind_making {γ : Type} (make : Heap → γ × Heap) {f : γ → Action α}
    (hf : ∀ x, Blind (f x)) :
    Blind (getHeap >>= fun h => (modify fun vm => { vm with heap := (make h).2 } : Action Unit)
      >>= fun _ => f (make h).1) :=
  blind_getHeap fun _ => (blind_modify fun _ b => ⟨b, rfl⟩).bind fun _ => hf _

theorem blind_setTop (index : Int) : Blind (setTop index) := by
  refine blind_base.bind fun b => blind_getMachine (fun _ _ => rfl) fun m => ?_
  dsimp only
  generalize (if 0 ≤ index then (b : Int) + index
    else (m.slots.length : Int) + index + 1) = target
  split
  · exact blind_fail _
  · exact blind_modifyMachine fun _ _ => rfl

theorem blind_pop (count : Int) : Blind (pop count) := by
  refine blind_getTop.bind fun depth => ?_
  split
  · exact blind_fail _
  · exact blind_setTop _

theorem blind_take : Blind take := by
  refine blind_base.bind fun b => blind_getMachine (fun _ _ => rfl) fun m => ?_
  dsimp only
  split
  · exact blind_fail _
  · split
    · exact blind_fail _
    · exact (blind_modifyMachine fun _ _ => rfl).bind fun _ => blind_pure _

theorem blind_toBytes? (index : Int) : Blind (toBytes? index) := by
  have hinPlace : ∀ b : Bytes, Blind (do
      let position ← slot index
      modifyMachine fun m => { m with slots := m.slots.set position (.str b) }
      return some b) :=
    fun b => (blind_slot index).bind fun _ =>
      (blind_modifyMachine fun _ _ => rfl).bind fun _ => blind_pure _
  refine (blind_valueAt? index).bind fun v => ?_
  split
  · exact blind_pure _
  · exact hinPlace _
  · exact hinPlace _
  · exact blind_pure _

-- =================================================================== tables

theorem blind_store (id : TableId) (k v : Value) : Blind (store id k v) := by
  refine blind_getHeap fun heap => ?_
  cases (heap.table id).set k v with
  | error f => exact blind_fail _
  | ok t => exact blind_modify fun _ b => ⟨b, rfl⟩

theorem blind_fetch (id : TableId) (k : Value) : Blind (fetch id k) :=
  (blind_categoryOf k).bind fun _ => blind_getHeap fun _ =>
    (blind_push _).bind fun _ => blind_categoryOf _

theorem blind_next (index : Int) : Blind (next index) := by
  refine (blind_tableAt index).bind fun id => blind_take.bind fun k => blind_getHeap fun heap => ?_
  split
  · exact blind_fail _
  · exact blind_fail _
  · exact blind_pure _
  · exact (blind_push _).bind fun _ => (blind_push _).bind fun _ => blind_pure _

theorem blind_ref (index : Int) : Blind (ref index) := by
  refine (blind_absIndex index).bind fun index => (blind_tableAt index).bind fun id =>
    blind_take.bind fun v => ?_
  split
  · exact blind_pure _
  · refine blind_getMachine (fun _ _ => rfl) fun m => ?_
    split
    · exact (blind_modifyMachine fun _ _ => rfl).bind fun _ =>
        (blind_store _ _ _).bind fun _ => blind_pure _
    · exact blind_getHeap fun _ => (blind_store _ _ _).bind fun _ => blind_pure _

theorem blind_unref (index r : Int) : Blind (unref index r) := by
  unfold unref
  split
  · exact blind_pure _
  · exact (blind_tableAt index).bind fun id =>
      (blind_store _ _ _).bind fun _ => blind_modifyMachine fun _ _ => rfl

-- =========================================================== frames, closing

theorem blind_calleePosition (args : Int) : Blind (calleePosition args) := by
  unfold calleePosition
  split
  · exact blind_fail _
  · refine blind_base.bind fun b => blind_getMachine (fun _ _ => rfl) fun m => ?_
    dsimp only
    split
    · exact blind_fail _
    · exact blind_pure _

theorem blind_leaveFrame : Blind leaveFrame := by
  refine blind_getMachine (fun _ _ => rfl) fun m => ?_
  cases m.frames with
  | nil => exact blind_throw _
  | cons b fs => exact blind_modifyMachine fun _ _ => rfl

theorem blind_results (count : Int) : Blind (results count) := by
  refine blind_getTop.bind fun top => ?_
  split
  · exact blind_fail _
  · exact blind_getMachine (fun _ _ => rfl) fun _ => blind_pure _

theorem blind_replaceFrom (position : Nat) (values : List Value) :
    Blind (replaceFrom position values) :=
  blind_modifyMachine fun _ _ => rfl

/-- Closing marks the machine whatever it was. -/
theorem blind_close : Blind close := fun _ _ => ⟨true, rfl⟩

/-- The primitives of a machine: those that look, those that move values or make
objects, those that write to tables, raise and close, and what calls are made
of. -/
inductive Command : {α : Type} → Action α → Prop where
  | getTop : Command Vm.getTop
  | absIndex (index : Int) : Command (Vm.absIndex index)
  | checkStack (count : Int) : Command (Vm.checkStack count)
  | valueAt? (index : Int) : Command (Vm.valueAt? index)
  | categoryAt (index : Int) : Command (Vm.categoryAt index)
  | isNumber (index : Int) : Command (Vm.isNumber index)
  | isInteger (index : Int) : Command (Vm.isInteger index)
  | isString (index : Int) : Command (Vm.isString index)
  | toBoolean (index : Int) : Command (Vm.toBoolean index)
  | toInteger (index : Int) : Command (Vm.toInteger index)
  | toNumber (index : Int) : Command (Vm.toNumber index)
  | toUserdata (index : Int) : Command (Vm.toUserdata index)
  | rawEqual (i j : Int) : Command (Vm.rawEqual i j)
  | rawLength (index : Int) : Command (Vm.rawLength index)
  | renderSlot (options : RenderOptions) (index : Int) : Command (Vm.renderSlot options index)
  | renderStack (options : RenderOptions) : Command (Vm.renderStack options)
  | moves {α : Type} {a : Action α} (primitive : Primitive a) : Command a
  | pushTable : Command Vm.pushTable
  | rawSet (index : Int) : Command (Vm.rawSet index)
  | setKey (index : Int) (k : Value) : Command (Vm.setKey index k)
  | ref (index : Int) : Command (Vm.ref index)
  | unref (index r : Int) : Command (Vm.unref index r)
  | raiseText {α : Type} (message : String) : Command (Vm.raiseText message : Action α)
  | raiseTop {α : Type} : Command (Vm.raiseTop : Action α)
  | close : Command Vm.close
  | calleePosition (args : Int) : Command (Vm.calleePosition args)
  | enterFrame (base : Nat) : Command (Vm.enterFrame base)
  | leaveFrame : Command Vm.leaveFrame
  | results (count : Int) : Command (Vm.results count)
  | replaceFrom (position : Nat) (values : List Value) : Command (Vm.replaceFrom position values)
  | recover (frames : Nat) (position : Int) (raised : Value) :
      Command (Vm.recover frames position raised)

theorem Primitive.blind {a : Action α} (ha : Primitive a) : Blind a := by
  cases ha with
  | push native => exact blind_push _
  | pushCopy index => exact blind_pushCopy index
  | pushFunction f => exact blind_making (·.newFunction f) fun _ => blind_push _
  | pushUserdata payload => exact blind_making (·.newUserdata payload) fun _ => blind_push _
  | newGuestValue g role =>
      exact blind_making (·.newGuest g) fun id => blind_pure (.guest id role : Value)
  | setTop index => exact blind_setTop index
  | pop count => exact blind_pop count
  | rawGet index =>
      exact (blind_tableAt index).bind fun id => blind_take.bind fun k => blind_fetch id k
  | getKey index k => exact (blind_tableAt index).bind fun id => blind_fetch id k
  | next index => exact blind_next index
  | toBytes? index => exact blind_toBytes? index

/-- No primitive of a machine sees whether it has been closed. -/
theorem Command.blind {a : Action α} (ha : Command a) : Blind a := by
  cases ha with
  | getTop => exact blind_getTop
  | absIndex index => exact blind_absIndex index
  | checkStack count => exact blind_getMachine (fun _ _ => rfl) fun _ => blind_pure _
  | valueAt? index => exact blind_valueAt? index
  | categoryAt index => exact blind_categoryAt index
  | isNumber index =>
      refine (blind_valueAt? index).bind fun v => ?_
      split
      · exact blind_pure _
      · exact (blind_categoryOf _).bind fun _ => blind_pure _
      · exact blind_pure _
  | isInteger index =>
      refine (blind_valueAt? index).bind fun v => ?_
      split <;> exact blind_pure _
  | isString index => exact (blind_categoryAt index).bind fun _ => blind_pure _
  | toBoolean index =>
      refine (blind_valueAt? index).bind fun v => ?_
      split <;> exact blind_pure _
  | toInteger index =>
      refine (blind_valueAt? index).bind fun v => ?_
      cases numeralOf? v <;> exact blind_pure _
  | toNumber index => exact blind_toNumber index
  | toUserdata index =>
      refine (blind_valueAt? index).bind fun v => ?_
      split
      · exact blind_getHeap fun _ => blind_pure _
      · exact blind_pure _
  | rawEqual i j => exact blind_rawEqual i j
  | rawLength index =>
      refine (blind_valueAt? index).bind fun v => ?_
      split
      · exact blind_getHeap fun _ => blind_pure _
      · exact blind_pure _
      · exact blind_pure _
  | renderSlot options index => exact blind_renderSlot options index
  | renderStack options => exact blind_renderStack options
  | moves primitive => exact primitive.blind
  | pushTable => exact blind_making (·.newTable .empty) fun _ => blind_push _
  | rawSet index =>
      exact (blind_tableAt index).bind fun id => blind_take.bind fun v =>
        blind_take.bind fun k => blind_store id k v
  | setKey index k =>
      exact (blind_tableAt index).bind fun id => blind_take.bind fun v => blind_store id k v
  | ref index => exact blind_ref index
  | unref index r => exact blind_unref index r
  | raiseText message => exact blind_throw _
  | raiseTop => exact blind_take.bind fun _ => blind_throw _
  | close => exact blind_close
  | calleePosition args => exact blind_calleePosition args
  | enterFrame base => exact blind_modifyMachine fun _ _ => rfl
  | leaveFrame => exact blind_leaveFrame
  | results count => exact blind_results count
  | replaceFrom position values => exact blind_replaceFrom position values
  | recover frames position raised =>
      exact (blind_modifyMachine fun _ _ => rfl).bind fun _ => blind_base.bind fun _ =>
        blind_replaceFrom _ _

/-- Primitives one after the other, in any order and number, each depending on the
answers before it. -/
inductive Script : {α : Type} → Action α → Prop where
  | pure {α : Type} (x : α) : Script (Pure.pure x : Action α)
  | command {α : Type} {a : Action α} (ha : Command a) : Script a
  | bind {α β : Type} {a : Action α} {f : α → Action β} (ha : Script a)
      (hf : ∀ x, Script (f x)) : Script (a >>= f)

theorem Script.blind {a : Action α} (ha : Script a) : Blind a := by
  induction ha with
  | pure x => exact blind_pure x
  | command ha => exact ha.blind
  | bind _ _ ih ihf => exact ih.bind ihf

/-- A closed machine is a fresh one on a registry of its own, but for the mark. -/
theorem close_apply (vm : Vm) :
    close vm = .ok () (marked ⟨(vm.heap.newTable .empty).2, .fresh vm.heap.tables.size⟩ true) :=
  rfl

end Vm

end StackBridge
