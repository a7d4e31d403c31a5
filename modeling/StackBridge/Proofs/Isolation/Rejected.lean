import StackBridge.Proofs.Push.Atomic
import StackBridge.Proofs.Session.Kept

/-!
What it costs to be rejected. A wrapper or a bound function is refused on any
machine but its own, wherever in a value it stands. By then a push may have made
tables and looked at wrapped values, also of other machines: on its own machine it
takes everything back, as every push that fails, and on the others there is nothing
left of it either (`pushValue_rejected`, `callBound_rejected`). A look at a wrapped
value can leave that value behind when it fails, but it fails with no rejection; so
what is followed here is only what answers or rejects (`Discreet`).
-/

namespace StackBridge

/-- The refusals of what belongs to another machine. -/
def Failure.Rejects : Failure → Prop
  | .misuse .foreignWrapper | .refusal .foreignFunction => True
  | _ => False

def Stop.Rejects : Stop → Prop
  | .failed f => f.Rejects
  | .exhausted => False

namespace Vm

variable {α β : Type}

/-- What rejects nothing. -/
def Accepts (a : Action α) : Prop := ∀ vm, Ends (a vm) (fun _ _ => True) fun f _ => ¬ f.Rejects

theorem Accepts.bind {a : Action α} {f : α → Action β} (ha : Accepts a)
    (hf : ∀ x, Accepts (f x)) : Accepts (a >>= f) :=
  fun vm => (ha vm).bind fun x vm' _ => hf x vm'

theorem accepts_pure (x : α) : Accepts (pure x : Action α) := fun _ => trivial

theorem accepts_getMachine : Accepts getMachine := fun _ => trivial

theorem accepts_getHeap : Accepts getHeap := fun _ => trivial

theorem accepts_modifyMachine (f : Machine → Machine) : Accepts (modifyMachine f) :=
  fun _ => trivial

theorem accepts_fail {m : Misuse} (h : ¬ (Failure.misuse m).Rejects) :
    Accepts (fail m : Action α) := fun _ => h

theorem accepts_base : Accepts base := by
  intro vm
  cases hf : vm.machine.frames with
  | nil => rw [base_none hf]; exact id
  | cons b fs => rw [base_eq hf]; trivial

theorem accepts_categoryOf (v : Value) : Accepts (categoryOf v) := by
  unfold categoryOf
  cases v.category? with
  | some c => exact accepts_pure c
  | none => exact accepts_fail id

theorem accepts_getTop : Accepts getTop :=
  accepts_base.bind fun _ => accepts_getMachine.bind fun _ => accepts_pure _

theorem accepts_setTop (index : Int) : Accepts (setTop index) := by
  refine accepts_base.bind fun b => accepts_getMachine.bind fun m => ?_
  dsimp only
  generalize (if 0 ≤ index then (b : Int) + index else (m.slots.length : Int) + index + 1) = target
  split
  · exact accepts_fail id
  · exact accepts_modifyMachine _

theorem accepts_pop (count : Int) : Accepts (pop count) := by
  refine accepts_getTop.bind fun depth => ?_
  split
  · exact accepts_fail id
  · exact accepts_setTop _

theorem accepts_slot (index : Int) : Accepts (slot index) := by
  unfold slot
  split
  · refine accepts_base.bind fun b => accepts_getMachine.bind fun m => ?_
    split
    · exact accepts_pure _
    · exact accepts_fail id
  · split
    · refine accepts_getMachine.bind fun m => accepts_base.bind fun b => ?_
      split
      · exact accepts_fail id
      · exact accepts_pure _
    · exact accepts_fail id

theorem accepts_valueAt? (index : Int) : Accepts (valueAt? index) := by
  unfold valueAt?
  split
  · exact accepts_getMachine.bind fun _ => accepts_pure _
  · split
    · exact accepts_base.bind fun _ => accepts_getMachine.bind fun _ => accepts_pure _
    · exact (accepts_slot index).bind fun _ => accepts_getMachine.bind fun _ => accepts_pure _

theorem accepts_categoryAt (index : Int) : Accepts (categoryAt index) := by
  refine (accepts_valueAt? index).bind fun v => ?_
  cases v with
  | none => exact accepts_pure _
  | some v => exact accepts_categoryOf v

theorem accepts_tableAt (index : Int) : Accepts (tableAt index) := by
  refine (accepts_valueAt? index).bind fun v => ?_
  cases v with
  | none => exact accepts_fail id
  | some v =>
      cases v with
      | table id => exact accepts_pure id
      | _ => exact (accepts_categoryOf _).bind fun _ => accepts_fail id

theorem accepts_getKey (index : Int) (k : Value) : Accepts (getKey index k) :=
  (accepts_tableAt index).bind fun _ => (accepts_categoryOf k).bind fun _ =>
    accepts_getHeap.bind fun _ => (accepts_modifyMachine _).bind fun _ => accepts_categoryOf _

theorem accepts_renderSlot (options : RenderOptions) (index : Int) :
    Accepts (renderSlot options index) := by
  rw [renderSlot_eq]
  refine (accepts_valueAt? index).bind fun v => ?_
  cases v with
  | none => exact accepts_pure _
  | some v => exact (accepts_categoryOf v).bind fun _ => accepts_pure _

theorem accepts_renderLines (options : RenderOptions) (depth : Int) (count : Nat) :
    Accepts (renderLines options depth count) := by
  induction count with
  | zero => exact accepts_pure _
  | succ i ih =>
      refine (accepts_categoryAt _).bind fun c => (accepts_renderSlot options _).bind fun text => ?_
      exact ih.bind fun lines => accepts_pure _

theorem accepts_renderStack (options : RenderOptions) : Accepts (renderStack options) := by
  refine accepts_getTop.bind fun depth => ?_
  split
  · exact accepts_pure _
  · exact (accepts_renderLines _ _ _).bind fun _ => accepts_pure _

end Vm

namespace Session

open Bridge

variable {s t u s₀ : Session} {j k : MachineId} {ctx : Context} {α β : Type} {xs : List Value}

-- ================================================================ discretion

/-- The slots of a machine are as they were. -/
structure Undisturbed (j : MachineId) (s t : Session) : Prop where
  size : t.machines.size = s.machines.size
  slots : (t.machine j).slots = (s.machine j).slots

theorem undisturbed_same (h : t.machines = s.machines) : Undisturbed j s t := by
  refine ⟨by rw [h], ?_⟩
  unfold Session.machine
  rw [h]

theorem Undisturbed.trans (h : Undisturbed j s t) (h' : Undisturbed j t u) : Undisturbed j s u :=
  ⟨h'.size.trans h.size, h'.slots.trans h.slots⟩

instance : Calm (Undisturbed j) where
  refl _ := ⟨rfl, rfl⟩
  trans _ _ _ := .trans
  unseen _ hmachines _ _ := undisturbed_same hmachines

instance : Describes ctx (Undisturbed j) :=
  describes_of_blind ctx fun _ hmachines _ => undisturbed_same hmachines

/-- What happens on another machine. -/
theorem undisturbed_onMachine (hne : k ≠ j) (a : Vm.Action α) :
    Keeps (Undisturbed j) (onMachine k a) := by
  intro s
  rw [onMachine_final]
  exact ⟨withVm_size .., by rw [withVm_machine_ne hne]⟩

/-- What leaves the slots of a machine as they were, if it answers or rejects. -/
def Discreet (j : MachineId) (a : Action α) : Prop :=
  ∀ s, Ends (a s) (fun _ t => Undisturbed j s t) fun e t => e.Rejects → Undisturbed j s t

/-- What leaves them as they were, if it answers, and does not reject. -/
def Accepts (j : MachineId) (a : Action α) : Prop :=
  ∀ s, Ends (a s) (fun _ t => Undisturbed j s t) fun e _ => ¬ e.Rejects

theorem discreet_of_final {r : EStateM.Result Stop Session α} (h : Undisturbed j s (final r)) :
    Ends r (fun _ t => Undisturbed j s t) fun e t => e.Rejects → Undisturbed j s t := by
  cases r with
  | ok x t => exact h
  | error e t => exact fun _ => h

theorem Discreet.of_keeps {a : Action α} (ha : Keeps (Undisturbed j) a) : Discreet j a :=
  fun s => discreet_of_final (ha s)

theorem Accepts.discreet {a : Action α} (ha : Accepts j a) : Discreet j a :=
  fun s => (ha s).mono (fun _ _ h => h) fun _ _ h h' => absurd h' h

theorem Discreet.bind {a : Action α} {f : α → Action β} (ha : Discreet j a)
    (hf : ∀ x, Discreet j (f x)) : Discreet j (a >>= f) :=
  fun s => (ha s).bind fun x t ht => (hf x t).mono (fun _ _ h => ht.trans h)
    fun _ _ h hrejects => ht.trans (h hrejects)

theorem Accepts.bind {a : Action α} {f : α → Action β} (ha : Accepts j a)
    (hf : ∀ x, Accepts j (f x)) : Accepts j (a >>= f) :=
  fun s => (ha s).bind fun x t ht => (hf x t).mono (fun _ _ h => ht.trans h) fun _ _ h => h

theorem accepts_pure (x : α) : Accepts j (pure x : Action α) := fun _ => ⟨rfl, rfl⟩

theorem onMachine_accepts {a : Vm.Action α} (ha : Vm.Accepts a) (s : Session) :
    Ends (onMachine k a s) (fun _ _ => True) fun e _ => ¬ e.Rejects :=
  onMachine_ends (ha (s.vm k))

theorem accepts_onMachine {a : Vm.Action α} (ha : Vm.Accepts a)
    (hkeeps : Keeps (Undisturbed j) (onMachine k a)) : Accepts j (onMachine k a) := by
  intro s
  have hkept := hkeeps s
  have haccepts := onMachine_accepts (k := k) ha s
  cases hr : onMachine k a s with
  | ok x t => rw [hr] at hkept; exact hkept
  | error e t => rw [hr] at haccepts; exact haccepts

theorem accepts_looks {a : Vm.Action α} (ha : Vm.Accepts a) (hlooks : Vm.Looks a) :
    Accepts j (onMachine k a) :=
  accepts_onMachine ha (Law.holds_look hlooks).keeps

/-- A cleanup after a stop. -/
theorem Accepts.stoppedBy {c : Action Unit} {e : Stop} (hc : Accepts j c)
    (h : e.Rejects → Undisturbed j s t) :
    Ends (Session.stoppedBy e (c t) : EStateM.Result Stop Session α)
      (fun _ u => Undisturbed j s u) fun e u => e.Rejects → Undisturbed j s u := by
  have hclean := hc t
  cases hr : c t with
  | ok _ u =>
      rw [hr] at hclean
      exact fun hrejects => (h hrejects).trans hclean
  | error e' u =>
      rw [hr] at hclean
      cases e with
      | exhausted => exact fun hrejects => hrejects.elim
      | failed f => exact fun hrejects => absurd hrejects hclean

/-- Doing something about a failure, and failing with it all the same. -/
theorem Discreet.rethrowing {a : Action α} {c : Failure → Action Unit} (ha : Discreet j a)
    (hc : ∀ f, Accepts j (c f)) :
    Discreet j (handling a fun f => c f >>= fun _ => fail f) := by
  intro s
  have h := ha s
  unfold handling
  cases hr : a s with
  | ok x t => rw [hr] at h; exact h
  | error e t =>
      rw [hr] at h
      cases e with
      | exhausted => exact h
      | failed f =>
          dsimp only
          rw [fail_after]
          exact (hc f).stoppedBy h

theorem Discreet.onStop {a : Action α} {c : Action Unit} (ha : Discreet j a)
    (hc : Accepts j c) : Discreet j (Session.onStop a c) := by
  intro s
  have h := ha s
  rw [onStop_eq]
  cases hr : a s with
  | ok x t => rw [hr] at h; exact h
  | error e t =>
      rw [hr] at h
      exact hc.stoppedBy h

-- ==================================================================== guards

theorem accepts_getTop : Accepts j (getTop k) := accepts_looks Vm.accepts_getTop Vm.looks_getTop

theorem accepts_isClosed : Accepts j (isClosed k) := fun _ => ⟨rfl, rfl⟩

theorem discreet_guarded (delta : Int) (what : String) {a : Action α} (ha : Discreet j a) :
    Discreet j (guarded k delta what a) := by
  refine accepts_getTop.discreet.bind fun top => ?_
  have hcheck : ∀ (expected : Int) (raised : Option ErrorKind), Accepts j (do
      if ← isClosed k then return
      let actual ← getTop k
      if actual ≠ expected then fail (← imbalance k what raised actual expected) :
        Action Unit) := by
    intro expected raised
    refine accepts_isClosed.bind fun closed => ?_
    split
    · exact accepts_pure _
    · refine accepts_getTop.bind fun actual => ?_
      split
      · unfold imbalance
        simp only [bind_assoc, pure_bind]
        exact (accepts_looks (Vm.accepts_renderStack .standard)
          (Vm.looks_renderStack .standard)).bind fun _ _ => id
      · exact accepts_pure _
  exact (ha.rethrowing fun f => hcheck _ _).bind fun a =>
    (hcheck _ _).discreet.bind fun _ => (accepts_pure a).discreet

theorem discreet_guardedIfChecking (delta : Int) (what : String) {a : Action α}
    (ha : Discreet j a) : Discreet j (guardedIfChecking k delta what a) := by
  intro s
  unfold guardedIfChecking
  rw [bind_ok (get_apply s)]
  cases s.checks with
  | true => exact discreet_guarded delta what ha s
  | false => exact ha s

theorem discreet_restoringTop (hne : k ≠ j) {a : Action α} (ha : Discreet j a) :
    Discreet j (restoringTop k a) := by
  refine accepts_getTop.discreet.bind fun top => ha.onStop ?_
  refine accepts_isClosed.bind fun closed => ?_
  split
  · refine accepts_getTop.bind fun top' => ?_
    split
    · exact accepts_onMachine (Vm.accepts_setTop _) (undisturbed_onMachine hne _)
    · exact accepts_pure _
  · exact accepts_pure _

-- ================================================================== wrappers

theorem pushWrapped_accepts (id : Nat) (s : Session) :
    Ends (pushWrapped id s) (fun _ _ => True) fun e _ => ¬ e.Rejects := by
  unfold pushWrapped
  rw [bind_ok (get_apply s)]
  cases (s.wrapper id).anchor with
  | released => exact fun hrejects => hrejects
  | nil => exact trivial
  | entry r =>
      exact (onMachine_accepts (Vm.accepts_getKey registryIndex (.int r)) s).bind
        fun _ _ _ => trivial

/-- Where a machine does not exist there is nothing to disturb. -/
theorem undisturbed_out (h : k ≠ j ∨ ¬ j < s.machines.size) (a : Vm.Action α) :
    Undisturbed j s (final (onMachine k a s)) := by
  rcases h with hne | hj
  · exact undisturbed_onMachine hne a s
  · rw [onMachine_final]
    refine ⟨withVm_size .., ?_⟩
    by_cases hkj : k = j
    · rw [hkj, withVm_machine_none hj]
    · rw [withVm_machine_ne hkj]

theorem undisturbed_pushWrapped {id : Nat}
    (h : (s.wrapper id).machine ≠ j ∨ ¬ j < s.machines.size) :
    Undisturbed j s (final (pushWrapped id s)) := by
  unfold pushWrapped
  rw [bind_ok (get_apply s)]
  cases (s.wrapper id).anchor with
  | released => exact ⟨rfl, rfl⟩
  | nil => exact undisturbed_out h (Vm.push .nil)
  | entry r =>
      dsimp only
      rw [final_bind_pure]
      exact undisturbed_out h _

/-- Popping a wrapped value that has been pushed leaves its machine as it was. -/
theorem undisturbed_popped {id : Nat} (hpush : pushWrapped id s = .ok () t)
    (hpop : onMachine (s.wrapper id).machine (Vm.pop 1) t = .ok () u) : Undisturbed j s u := by
  by_cases hout : (s.wrapper id).machine ≠ j ∨ ¬ j < s.machines.size
  · have hpushed := undisturbed_pushWrapped hout
    rw [hpush] at hpushed
    have hpopped := undisturbed_out (s := t)
      (hout.imp_right fun h hj => h (Nat.lt_of_lt_of_eq hj hpushed.size)) (Vm.pop 1)
    rw [hpop] at hpopped
    exact hpushed.trans hpopped
  · obtain ⟨hj, hsize⟩ := not_or.mp hout
    rw [not_not] at hj hsize
    have hpushed := pushWrapped_ends hsize hj
    rw [hpush] at hpushed
    obtain ⟨w, hadds⟩ := hpushed
    obtain ⟨vm, hvm⟩ := onMachine_answered hpop
    rw [onMachine_ok hvm] at hpop
    cases hpop
    rw [hj] at hvm ⊢
    rw [Vm.pop_answered hvm hadds.slots]
    refine ⟨(withVm_size ..).trans hadds.size, ?_⟩
    rw [withVm_machine (by rw [hadds.size]; exact hsize)]
    rfl

/-- A look at a wrapped value is over when it answers, and rejects nothing. -/
theorem accepts_wrappedCategory (id : Nat) : Accepts j (wrappedCategory id) := by
  intro s
  have hpushed := pushWrapped_accepts id s
  unfold wrappedCategory
  rw [bind_ok (get_apply s)]
  cases hpush : pushWrapped id s with
  | error e t =>
      rw [hpush] at hpushed
      rw [bind_error hpush]
      exact hpushed
  | ok _ t =>
      rw [bind_ok hpush]
      have hpopped := onMachine_accepts (k := (s.wrapper id).machine) (Vm.accepts_pop 1)
      have hends : Ends (ensuring (onMachine (s.wrapper id).machine (Vm.categoryAt (-1)))
          (onMachine (s.wrapper id).machine (Vm.pop 1)) t)
            (fun _ u => Undisturbed j s u) fun e _ => ¬ e.Rejects ∧ True := by
        refine ensuring_ends ?_
        have hlooked := onMachine_accepts (k := (s.wrapper id).machine)
          (Vm.accepts_categoryAt (-1)) t
        cases hlook : onMachine (s.wrapper id).machine (Vm.categoryAt (-1)) t with
        | ok c t' =>
            obtain ⟨rfl, _⟩ := looked_onMachine (Vm.looks_categoryAt (-1)) hlook
            have hpopped := hpopped t'
            dsimp only [Ends]
            cases hpop : onMachine (s.wrapper id).machine (Vm.pop 1) t' with
            | ok _ u => exact undisturbed_popped hpush hpop
            | error e u => rw [hpop] at hpopped; exact ⟨hpopped, trivial⟩
        | error e t' =>
            rw [hlook] at hlooked
            exact ⟨hlooked, (hpopped t').mono (fun _ _ _ => trivial) fun _ _ h => ⟨h, trivial⟩⟩
      exact hends.mono (fun _ _ h => h) fun _ _ h => h.1

theorem discreet_memberOf (v : HostValue) (name : String) : Discreet j (memberOf ctx v name) := by
  have hspecial : Discreet j (specialMember? v name) := by
    unfold specialMember?
    split
    · unfold wrapperMember
      split
      · exact ((accepts_wrappedCategory _).bind fun _ => accepts_pure _).discreet
      · exact ((accepts_wrappedCategory _).bind fun _ => accepts_pure _).discreet
      · exact .of_keeps (Keeps.get.bind fun _ => Keeps.pure _)
      · exact (accepts_pure _).discreet
      · exact (accepts_pure _).discreet
    · exact (accepts_pure _).discreet
    · exact (accepts_pure _).discreet
  refine hspecial.bind fun x => ?_
  cases x with
  | some x => exact (accepts_pure x).discreet
  | none => exact .of_keeps ((holds_ofHost _).keeps.bind fun x => (holds_individual x).keeps)

-- ==================================================================== pushes

theorem discreet_onMachine (hne : k ≠ j) (a : Vm.Action α) : Discreet j (onMachine k a) :=
  .of_keeps (undisturbed_onMachine hne a)

theorem discreet_ofHost (r : Except HostFault α) : Discreet j (ofHost r) :=
  .of_keeps (holds_ofHost r).keeps

theorem discreet_describe (t : TypeExpr) (operation : String) :
    Discreet j (describe ctx t operation) :=
  .of_keeps (Describes.describe t operation)

theorem discreet_pushIntegerSlot (hne : k ≠ j) (v : HostValue) :
    Discreet j (pushIntegerSlot k v) := by
  refine (discreet_ofHost _).bind fun n => ?_
  split
  · exact discreet_onMachine hne _
  · cases Double.ofInt? n with
    | some x => exact discreet_onMachine hne _
    | none => exact .of_keeps (Keeps.throw _)

theorem discreet_pushBuffer (hne : k ≠ j) (v : HostValue) : Discreet j (pushBuffer k v) := by
  unfold pushBuffer
  split
  · exact (Discreet.of_keeps (holds_encodeText _).keeps).bind fun _ => discreet_onMachine hne _
  · exact (discreet_ofHost _).bind fun _ => discreet_onMachine hne _

theorem discreet_pushTextPointer (hne : k ≠ j) (v : HostValue) :
    Discreet j (pushTextPointer k v) := by
  unfold pushTextPointer
  split
  · exact discreet_onMachine hne _
  · exact (discreet_ofHost _).bind fun _ => discreet_onMachine hne _

/-- The value of a wrapper of the machine, or the refusal of another one. -/
theorem discreet_ownWrapped (hne : k ≠ j) (id : Nat) (f : Failure) : Discreet j (do
    if ((← get).wrapper id).machine ≠ k then fail f else pushWrapped id) := by
  intro s
  rw [bind_ok (get_apply s)]
  by_cases hid : (s.wrapper id).machine = k
  · rw [if_neg fun h => h hid]
    exact discreet_of_final (undisturbed_pushWrapped (.inl (by rw [hid]; exact hne)))
  · rw [if_pos hid]
    exact fun _ => ⟨rfl, rfl⟩

theorem discreet_describeParams (ps : List Param) :
    Discreet j (forIn ps PUnit.unit fun p _ => do
      let _ ← describe ctx p.type "read"
      pure (ForInStep.yield PUnit.unit)) := by
  induction ps with
  | nil => exact (accepts_pure _).discreet
  | cons p ps ih =>
      rw [List.forIn_cons]
      refine Discreet.bind ((discreet_describe _ _).bind fun _ => (accepts_pure _).discreet) ?_
      rintro (b | b)
      · exact (accepts_pure b).discreet
      · exact ih

theorem discreet_pushCallable (hne : k ≠ j) (v : HostValue) (host : HostType) :
    Discreet j (pushCallable ctx k v host) := by
  unfold pushCallable
  split
  · exact discreet_ownWrapped hne _ _
  · have hrest : ∀ (v : HostValue) (signature : Signature), Discreet j (do
        for p in signature.params do
          let _ ← describe ctx p.type "read"
        let _ ← describe ctx signature.returns "push"
        onMachine k (Vm.pushFunction ⟨some v.callableName, .host v signature⟩)) :=
      fun v signature => (discreet_describeParams _).bind fun _ =>
        (discreet_describe _ _).bind fun _ => discreet_onMachine hne _
    dsimp only
    split
    · exact hrest _ _
    · exact (discreet_ofHost _).bind fun signature => hrest _ _

section

variable {pushItem : HostValue → TypeExpr → Action Unit} (hne : k ≠ j)
  (hitem : ∀ v t, Discreet j (pushItem v t))

include hne hitem

theorem discreet_pushItems (host : HostType) (i : Nat) (vs : List HostValue) :
    Discreet j (pushItems pushItem k host i vs) := by
  induction vs generalizing i with
  | nil => exact (accepts_pure _).discreet
  | cons v vs ih =>
      exact (hitem _ _).bind fun _ => (discreet_onMachine hne _).bind fun _ => ih (i + 1)

theorem discreet_pushSequence (v : HostValue) (host : HostType) :
    Discreet j (pushSequence pushItem k v host) := by
  have hrest : Discreet j (do
      onMachine k Vm.pushTable
      pushItems pushItem k host 0 (← ofHost v.items)) :=
    (discreet_onMachine hne _).bind fun _ => (discreet_ofHost _).bind fun vs =>
      discreet_pushItems hne hitem host 0 vs
  refine (discreet_ofHost _).bind fun length => ?_
  split
  · exact Discreet.bind (.of_keeps (Keeps.throw _)) fun _ => hrest
  · exact hrest

theorem discreet_pushEntries (keyType valueType : TypeExpr) (es : List (HostValue × HostValue)) :
    Discreet j (pushEntries pushItem k keyType valueType es) := by
  induction es with
  | nil => exact (accepts_pure _).discreet
  | cons e es ih =>
      exact (hitem _ _).bind fun _ => (hitem _ _).bind fun _ =>
        (discreet_onMachine hne _).bind fun _ => ih

theorem discreet_pushMapping (v : HostValue) (host : HostType) :
    Discreet j (pushMapping pushItem k v host) :=
  (discreet_ofHost _).bind fun _ => (discreet_onMachine hne _).bind fun _ =>
    (discreet_ofHost _).bind fun es => discreet_pushEntries hne hitem _ _ es

theorem discreet_pushFields (v : HostValue) (fs : List (String × TypeExpr)) :
    Discreet j (pushFields ctx pushItem k v fs) := by
  induction fs with
  | nil => exact (accepts_pure _).discreet
  | cons f fs ih =>
      exact (discreet_memberOf v f.1).bind fun _ => (hitem _ _).bind fun _ =>
        (discreet_onMachine hne _).bind fun _ => ih

theorem discreet_pushRecord (v : HostValue) (host : HostType) :
    Discreet j (pushRecord ctx pushItem k v host) :=
  (discreet_ofHost _).bind fun _ => (discreet_onMachine hne _).bind fun _ =>
    discreet_pushFields hne hitem v _

theorem discreet_pushDynamic (v : HostValue) : Discreet j (pushDynamic pushItem k v) := by
  unfold pushDynamic
  split
  · exact discreet_ownWrapped hne _ _
  · exact hitem _ _

/-- Every shape, if pushing a part is discreet. -/
theorem discreet_pushShape (v : HostValue) (host : HostType) :
    Discreet j (pushShape ctx pushItem k v host) := by
  unfold pushShape
  cases host.shape with
  | dynamic => exact discreet_pushDynamic hne hitem v
  | absent => exact discreet_onMachine hne _
  | boolean => exact discreet_onMachine hne _
  | integer => exact discreet_pushIntegerSlot hne v
  | float =>
      exact (discreet_ofHost _).bind fun x =>
        (Discreet.of_keeps (holds_individualFloat x).keeps).bind fun _ => discreet_onMachine hne _
  | textPointer => exact discreet_pushTextPointer hne v
  | buffer => exact discreet_pushBuffer hne v
  | mapping => exact discreet_pushMapping hne hitem v host
  | record => exact discreet_pushRecord hne hitem v host
  | sequence => exact discreet_pushSequence hne hitem v host
  | callable => exact discreet_pushCallable hne v host

end

/-- A push to any depth is discreet on all machines but its own. -/
theorem discreet_pushAs (hne : k ≠ j) (fuel : Nat) (v : HostValue) (t : TypeExpr) :
    Discreet j (pushAs ctx k fuel v t) := by
  induction fuel generalizing v t with
  | zero => exact .of_keeps (Keeps.throw _)
  | succ fuel ih =>
      exact (discreet_describe _ _).bind fun host =>
        discreet_guardedIfChecking _ _
          (discreet_restoringTop hne (discreet_pushShape hne ih v host))

theorem discreet_pushArguments (hne : k ≠ j) (vs : List HostValue) (ts : List TypeExpr) :
    Discreet j (pushArguments ctx k vs ts) := by
  induction vs generalizing ts with
  | nil => exact (accepts_pure _).discreet
  | cons v vs ih => exact (discreet_pushAs hne pushLimit v _).bind fun _ => ih ts.tail

-- ================================================================= rejection

/-- A push that is rejected leaves the slots of every machine as they were. -/
theorem pushValue_rejected {f : Failure} {v : HostValue} {ty : TypeExpr}
    (hk : k < s.machines.size) (hl : (s.machine k).Live) (hf : f.Rejects)
    (h : pushValue ctx k v ty s = .error (.failed f) t) (j : MachineId) :
    (t.machine j).slots = (s.machine j).slots := by
  by_cases hne : k = j
  · subst hne
    have hadds := addsOne_pushAs ctx pushLimit v ty s hk hl
    rw [show pushAs ctx k pushLimit v ty s = _ from h] at hadds
    rw [hadds.2.slots, List.append_nil]
  · have hpush : Discreet j (pushAs ctx k pushLimit v ty) := discreet_pushAs hne pushLimit v ty
    have hdiscreet := hpush s
    rw [show pushAs ctx k pushLimit v ty s = _ from h] at hdiscreet
    exact (hdiscreet hf).slots

/-- A call of a bound function of which an argument is rejected fails with that, and
leaves the slots of every machine as they were. -/
theorem callBound_rejected {f : Failure} {run : Runner} {fuel id : Nat}
    {params : Option (List TypeExpr)} {returns : TypeExpr} {args : List HostValue}
    (hk : (s.wrapper id).machine < s.machines.size)
    (hl : (s.machine (s.wrapper id).machine).Live) (hf : f.Rejects)
    (hcount : ∀ ts, params = some ts → args.length = ts.length)
    (h : (pushWrapped id >>= fun _ =>
      pushArguments ctx (s.wrapper id).machine args (params.getD [])) s = .error (.failed f) t) :
    ∃ u, callBound ctx run fuel id params returns args s = .error (.failed f) u
      ∧ ∀ j, (u.machine j).slots = (s.machine j).slots := by
  let k := (s.wrapper id).machine
  obtain ⟨_, ys, hadds⟩ : (Stop.failed f).Met ∧ ∃ ys, Adds k ys s t := by
    have hends : Ends ((pushWrapped id >>= fun _ => pushArguments ctx k args (params.getD [])) s)
        (fun _ t => ∃ ys, Adds k ys s t) fun e t => e.Met ∧ ∃ ys, Adds k ys s t :=
      (pushWrapped_ends hk rfl).bind fun _ u ⟨_, hu⟩ =>
        (pushArguments_ends hk hl args _ hu).mono (fun _ _ ⟨_, _, ht⟩ => ⟨_, ht⟩) fun _ _ h => h
    rw [h] at hends
    exact hends
  have hblock : ∀ rest : Action HostValue, (do
      pushWrapped id
      pushArguments ctx k args (params.getD [])
      rest) s = .error (.failed f) t := by
    intro rest
    simp only [← bind_assoc]
    exact bind_error h
  have hcounted : (params.isSome && args.length != (params.getD []).length) = false := by
    cases params with
    | none => rfl
    | some ts => simp [hcount ts rfl]
  refine ⟨t.withSlots k (s.machine k).slots, ?_, fun j => ?_⟩
  · unfold callBound
    rw [bind_ok (get_apply s)]
    dsimp only
    rw [hcounted, if_neg Bool.false_ne_true]
    exact restoringTop_stopped hl (hblock _) (hadds.closed.trans hl.opened) hadds.frames hadds.slots
  · by_cases hne : k = j
    · subst hne
      rw [withSlots_machine (by rw [hadds.size]; exact hk)]
    · have hends : Ends ((pushWrapped id >>= fun _ =>
          pushArguments ctx k args (params.getD [])) s) (fun _ t => Undisturbed j s t)
            fun e t => e.Rejects → Undisturbed j s t :=
        (discreet_of_final (undisturbed_pushWrapped (.inl hne))).bind fun _ u hu =>
          (discreet_pushArguments hne args _ u).mono (fun _ _ h => hu.trans h)
            fun _ _ h hrejects => hu.trans (h hrejects)
      rw [h] at hends
      show ((t.withVm k _).machine j).slots = _
      rw [withVm_machine_ne hne]
      exact (hends hf).slots

end Session

end StackBridge
