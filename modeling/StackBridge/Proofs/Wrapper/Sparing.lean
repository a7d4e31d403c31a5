import StackBridge.Proofs.Frames.Isolation
import StackBridge.Proofs.Wrapper.Course

/-!
Programs that leave a machine's registry to its wrappers.

Some operations write to a table of the program's choice, which may be a
registry. `sparingBlock` runs a block like `runBlock`, except that an operation
that would itself write to the registry of a machine is refused: the run stops
there, and nothing meets that stop. What such runs come to, at whatever depth of
blocks within blocks, are the states of the program up to where it first writes
to the registry (`Spared`), and every one of them lies on a course
(`Spared.course`).
-/

namespace StackBridge

namespace Vm

variable {α : Type} {id : TableId}

/-- Between two states of a machine nothing has been written but to one table
and its references. -/
structure Touches (id : TableId) (vm vm' : Vm) : Prop where
  size : vm'.heap.tables.size = vm.heap.tables.size
  table : ∀ id' ≠ id, vm'.heap.table id' = vm.heap.table id'
  closed : vm'.machine.closed = vm.machine.closed
  registry : vm'.machine.registry = vm.machine.registry
  free : ∀ id' ≠ id, vm'.machine.free id' = vm.machine.free id'

instance : Std.Refl (Touches id) := ⟨fun _ => ⟨rfl, fun _ _ => rfl, rfl, rfl, fun _ _ => rfl⟩⟩

instance : IsTrans Vm (Touches id) where
  trans _ _ _ h h' :=
    { size := h'.size.trans h.size
      table := fun id' hid => (h'.table id' hid).trans (h.table id' hid)
      closed := h'.closed.trans h.closed
      registry := h'.registry.trans h.registry
      free := fun id' hid => (h'.free id' hid).trans (h.free id' hid) }

theorem touches_steady {a : Action α} (ha : Steady a) : Keeps (Touches id) a :=
  ha.keeps.mono fun _ _ h =>
    { size := by rw [h.tables]
      table := fun _ _ => by unfold Heap.table; rw [h.tables]
      closed := h.closed
      registry := h.registry
      free := fun _ _ => by unfold Machine.free; rw [h.freeRefs] }

theorem touches_looks {a : Action α} (ha : Looks a) : Keeps (Touches id) a := ha.keeps

theorem touches_store (k v : Value) : Keeps (Touches id) (store id k v) := by
  intro vm
  cases hset : (vm.heap.table id).set k v with
  | error f =>
      rw [store_error hset]
      exact Std.Refl.refl vm
  | ok t =>
      rw [store_eq hset]
      exact ⟨Heap.setTable_size .., fun _ hid => Heap.table_setTable_ne (Ne.symm hid) t, rfl, rfl,
        fun _ _ => rfl⟩

theorem touches_setFree (refs : List Int) :
    Keeps (Touches id) (modifyMachine (·.setFree id refs)) := by
  refine fun vm => ⟨rfl, fun _ _ => rfl, rfl, rfl, fun id' hid => ?_⟩
  show ((vm.machine.setFree id refs).free id') = vm.machine.free id'
  have hother : ((id, refs).1 == id') = false := by simpa using Ne.symm hid
  unfold Machine.setFree Machine.free
  dsimp only
  rw [List.find?_cons, hother, List.find?_filter]
  dsimp only
  congr 2
  refine congrArg (List.find? · vm.machine.freeRefs) (funext fun e => ?_)
  by_cases he : e.1 = id'
  · simp [he, hid]
  · simp [he]

/-- The table that an action finds is the only one that another one writes to. -/
def Aims (target : Action TableId) (a : Action α) : Prop :=
  ∀ vm, (∃ id, target vm = .ok id vm ∧ Touches id vm (final (a vm)))
    ∨ (∃ f, target vm = .error f vm) ∧ final (a vm) = vm

theorem aims_bind {target : Action TableId} {write : TableId → Action α} (ht : Looks target)
    (hw : ∀ id, Keeps (Touches id) (write id)) : Aims target (target >>= write) := by
  intro vm
  have hlook := ht.ends vm
  cases hr : target vm with
  | ok id vm' =>
      rw [hr] at hlook
      obtain rfl : vm' = vm := hlook
      rw [bind_ok hr]
      exact Or.inl ⟨id, rfl, hw id vm'⟩
  | error f vm' =>
      rw [hr] at hlook
      obtain rfl : vm' = vm := hlook
      rw [bind_error hr]
      exact Or.inr ⟨⟨f, rfl⟩, rfl⟩

theorem aims_rawSet (index : Int) : Aims (tableAt index) (rawSet index) :=
  aims_bind (looks_tableAt index) fun _ => (touches_steady steady_take).bind fun v =>
    (touches_steady steady_take).bind fun k => touches_store k v

theorem aims_setKey (index : Int) (k : Value) : Aims (tableAt index) (setKey index k) :=
  aims_bind (looks_tableAt index) fun _ => (touches_steady steady_take).bind fun v =>
    touches_store k v

theorem aims_ref (index : Int) : Aims (absIndex index >>= tableAt) (ref index) := by
  unfold ref
  rw [← bind_assoc]
  refine aims_bind ((looks_absIndex index).bind looks_tableAt) fun id =>
    (touches_steady steady_take).bind fun v => ?_
  split
  · exact touches_looks (looks_pure _)
  · refine (touches_looks looks_getMachine).bind fun m => ?_
    split
    · exact (touches_setFree _).bind fun _ => (touches_store _ _).bind fun _ =>
        touches_looks (looks_pure _)
    · exact (touches_looks looks_getHeap).bind fun _ => (touches_store _ _).bind fun _ =>
        touches_looks (looks_pure _)

theorem aims_unref {r : Int} (hr : ¬ r < 0) (index : Int) :
    Aims (tableAt index) (unref index r) := by
  unfold unref
  rw [if_neg hr]
  refine aims_bind (looks_tableAt index) fun id => (touches_store _ _).bind fun _ => ?_
  intro vm
  exact touches_setFree (r :: vm.machine.free id) vm

end Vm

-- ================================================================== refusing

/-- Where an operation finds the table that it writes to, if it writes to one. -/
def Op.target? : Op → Option (Vm.Action TableId)
  | .rawSet i | .rawSetI i _ | .setField i _ => some (Vm.tableAt i)
  | .ref i => some (Vm.absIndex i >>= Vm.tableAt)
  | .unref i r => if r < 0 then none else some (Vm.tableAt i)
  | _ => none

/-- Whether an operation would itself write to the registry of a machine. -/
def Op.disturbs (op : Op) (j : MachineId) (s : Session) : Bool :=
  match op.target? with
  | none => false
  | some target =>
    match target (s.vm s.current) with
    | .ok id _ => id == (s.machine j).registry
    | .error .. => false

namespace Session

open Bridge

variable {s t u s₀ : Session} {i j k : MachineId} {ctx : Context} {α : Type}

/-- Performs an operation; one that would itself write to the registry of a
machine is where the run stops. -/
def sparingStep (ctx : Context) (j : MachineId) (run : BlockId → Action Unit) (fuel : Nat)
    (op : Op) : Action Unit := do
  if op.disturbs j (← get) then throw .exhausted else step ctx run fuel op

def sparingSteps (ctx : Context) (j : MachineId) (run : BlockId → Action Unit) (fuel : Nat) :
    List Op → Action Unit
  | [] => return
  | op :: ops => do
    sparingStep ctx j run fuel op
    sparingSteps ctx j run fuel ops

/-- Runs a block that leaves the registry of a machine to wrappers. -/
def sparingBlock (ctx : Context) (j : MachineId) : Nat → BlockId → Action Unit
  | 0, _ => throw .exhausted
  | fuel + 1, b => sparingSteps ctx j (sparingBlock ctx j fuel) fuel (ctx.program.block b)

/-- Where no block writes to a table, all blocks run as they are. -/
theorem sparingBlock_eq (h : ∀ b, ∀ op ∈ ctx.program.block b, op.writesTables = false)
    (j : MachineId) (fuel : Nat) (b : BlockId) :
    sparingBlock ctx j fuel b = runBlock ctx fuel b := by
  have hstep : ∀ (run : BlockId → Action Unit) (fuel : Nat) (ops : List Op),
      (∀ op ∈ ops, op.writesTables = false) →
        sparingSteps ctx j run fuel ops = steps ctx run fuel ops := by
    intro run fuel ops hops
    induction ops with
    | nil => rfl
    | cons op ops ih =>
        have htarget : op.target? = none := by
          have hop := hops op (List.mem_cons_self ..)
          cases op <;> first | rfl | cases hop
        have hsame : sparingStep ctx j run fuel op = step ctx run fuel op := by
          funext s
          unfold sparingStep Op.disturbs
          rw [htarget]
          rfl
        unfold sparingSteps steps
        rw [hsame, ih fun op hop => hops op (List.mem_cons_of_mem _ hop)]
  induction fuel generalizing b with
  | zero => rfl
  | succ fuel ih =>
      have hrun : sparingBlock ctx j fuel = runBlock ctx fuel := funext ih
      unfold sparingBlock runBlock
      rw [hrun]
      exact hstep _ fuel _ (h b)

-- =================================================================== courses

/-- Evaluating moves nothing on the machines. -/
def Unmoved (s t : Session) : Prop := t.heap = s.heap ∧ t.machines = s.machines

instance : Calm Unmoved where
  refl _ := ⟨rfl, rfl⟩
  trans _ _ _ h h' := ⟨h'.1.trans h.1, h'.2.trans h.2⟩
  unseen hheap hmachines _ _ := ⟨hheap, hmachines⟩

instance : Describes ctx Unmoved :=
  describes_of_blind ctx fun hheap hmachines _ => ⟨hheap, hmachines⟩

/-- Writing to another table spares the registry of a machine. -/
theorem spares_touches {vm : Vm} {id : TableId} (h : Vm.Touches id (s.vm k) vm)
    (hid : (s.machine j).registry ≠ id) : Spares j s (s.withVm k vm) where
  wrappers := rfl
  size := withVm_size s k vm
  tables := by
    rw [withVm_heap, h.size]
    exact Nat.le_refl _
  machine i := by
    left
    by_cases hik : k = i
    · subst hik
      by_cases hk : k < s.machines.size
      · rw [withVm_machine hk]
        exact ⟨h.closed, h.registry⟩
      · rw [withVm_machine_none hk]
        exact ⟨rfl, rfl⟩
    · rw [withVm_machine_ne hik]
      exact ⟨rfl, rfl⟩
  entries _ _ := by
    have hregistry : ((s.withVm k vm).machine j).registry = (s.machine j).registry := by
      by_cases hjk : k = j
      · subst hjk
        by_cases hk : k < s.machines.size
        · rw [withVm_machine hk, h.registry]
          rfl
        · rw [withVm_machine_none hk]
      · rw [withVm_machine_ne hjk]
    unfold registryTable
    rw [hregistry]
    exact h.table _ hid
  givenBack _ := by
    unfold Session.givenBack
    by_cases hjk : k = j
    · subst hjk
      by_cases hk : k < s.machines.size
      · rw [withVm_machine hk, h.registry]
        exact h.free _ hid
      · rw [withVm_machine_none hk]
    · rw [withVm_machine_ne hjk]

/-- What writes to no registry but only to a table that it finds on a machine. -/
theorem course_aims {target : Vm.Action TableId} {a : Vm.Action α} (ha : Vm.Aims target a)
    (hspared : ∀ id vm, target (s.vm k) = .ok id vm → (s.machine j).registry ≠ id) :
    Course j s (final (onMachine k a s)) := by
  rw [onMachine_final]
  rcases ha (s.vm k) with ⟨id, hid, htouches⟩ | ⟨_, hsame⟩
  · exact .of_part (.other (spares_touches htouches (hspared id _ hid)))
  · rw [hsame, withVm_vm]
    exact .refl j s

/-- An operation that writes to a table, but not to the registry. -/
theorem course_perform (run : BlockId → Action Unit) (fuel : Nat) {op : Op}
    (hop : op.writesTables = true) (h : op.disturbs j s = false) :
    Course j s (final (perform ctx run fuel s.current op s)) := by
  have hspared : ∀ target, op.target? = some target → ∀ id vm,
      target (s.vm s.current) = .ok id vm → (s.machine j).registry ≠ id := by
    rintro target htarget id vm hid rfl
    unfold Op.disturbs at h
    rw [htarget] at h
    dsimp only at h
    rw [hid] at h
    simp at h
  cases op with
  | rawSet i =>
      show Course j s (final (silently (onMachine s.current (Vm.rawSet i)) s))
      unfold silently
      rw [final_bind_pure]
      exact course_aims (Vm.aims_rawSet i) (hspared _ rfl)
  | rawSetI i n =>
      show Course j s (final (silently (onMachine s.current (Vm.setKey i (.int n))) s))
      unfold silently
      rw [final_bind_pure]
      exact course_aims (Vm.aims_setKey i _) (hspared _ rfl)
  | setField i name =>
      let key : Action Value := do ofHost (fieldKey (← eval ctx name))
      have hkey : perform ctx run fuel s.current (.setField i name)
          = silently (key >>= fun key => onMachine s.current (Vm.setKey i key)) := by
        simp only [key, bind_assoc]
        rfl
      have hkept : ∀ {R : Session → Session → Prop} [Describes ctx R], Keeps R key :=
        ((holds_eval name).bind fun _ => holds_ofHost _).keeps
      have hunmoved : Keeps Unmoved key := hkept
      have hcourse : Keeps (Course j) key := hkept
      have hheap := hunmoved s
      have hbefore := hcourse s
      rw [hkey]
      unfold silently
      rw [final_bind_pure, bind_apply]
      cases hr : key s with
      | error e t =>
          rw [hr] at hbefore
          exact hbefore
      | ok x t =>
          rw [hr] at hbefore hheap
          obtain ⟨hheap, hmachines⟩ : t.heap = s.heap ∧ t.machines = s.machines := hheap
          have hmoved : Course j s t := hbefore
          have hsame : ∀ i, t.machine i = s.machine i := fun i => by
            unfold Session.machine
            rw [hmachines]
          refine hmoved.trans (course_aims (Vm.aims_setKey i x) fun id vm hid => ?_)
          have hvm : t.vm s.current = s.vm s.current := by
            unfold Session.vm
            rw [hheap, hsame]
          rw [hsame]
          rw [hvm] at hid
          exact hspared _ rfl id vm hid
  | ref i =>
      show Course j s (final ((onMachine s.current (Vm.ref i) >>= fun r => pure (HostValue.int r)) s))
      have hend := course_aims (Vm.aims_ref i) (hspared _ rfl)
      rw [bind_apply]
      cases hr : onMachine s.current (Vm.ref i) s with
      | ok r t => rw [hr] at hend; exact hend
      | error e t => rw [hr] at hend; exact hend
  | unref i r =>
      show Course j s (final (silently (onMachine s.current (Vm.unref i r)) s))
      unfold silently
      rw [final_bind_pure]
      by_cases hr : r < 0
      · rw [onMachine_final, Vm.unref_none hr]
        show Course j s (s.withVm s.current (s.vm s.current))
        rw [withVm_vm]
        exact .refl j s
      · exact course_aims (Vm.aims_unref hr i) (hspared _ (if_neg hr))
  | _ => cases hop

/-- What comes after an action does not matter to what it has kept. -/
theorem course_bind {β : Type} {a : Action α} {f : α → Action β}
    (ha : Course j s (final (a s))) (hf : ∀ x, Keeps (Course j) (f x)) :
    Course j s (final ((a >>= f) s)) := by
  rw [bind_apply]
  cases hr : a s with
  | ok x t =>
      rw [hr] at ha
      exact Course.trans ha (hf x t)
  | error e t =>
      rw [hr] at ha
      exact ha

theorem course_handling {a : Action α} {handler : Failure → Action α}
    (ha : Course j s (final (a s))) (hf : ∀ f, Keeps (Course j) (handler f)) :
    Course j s (final (handling a handler s)) := by
  unfold handling
  cases hr : a s with
  | ok x t =>
      rw [hr] at ha
      exact ha
  | error e t =>
      rw [hr] at ha
      cases e with
      | exhausted => exact ha
      | failed f => exact Course.trans ha (hf f t)

/-- Reporting an operation does not change what it does. -/
theorem course_step {run : BlockId → Action Unit} {fuel : Nat} {op : Op}
    (h : Course j s (final (perform ctx run fuel s.current op s))) :
    Course j s (final (step ctx run fuel op s)) := by
  unfold step
  rw [bind_ok (get_apply s)]
  refine course_bind (course_handling (course_bind h fun v => (holds_view v).keeps) fun f => ?_)
    fun _ => (holds_reportOperation _ _).keeps
  exact Keeps.get.bind fun _ => (holds_reportOperation _ _).keeps.bind fun _ => Keeps.throw _

/-- An operation is refused, or all that it does is a course. -/
theorem passes_sparingStep (fuel : Nat) (op : Op) :
    Passes (Course j) (Course j) fun run => sparingStep ctx j run fuel op := by
  rintro M run run' _ s rfl hrun
  have happly : ∀ run, sparingStep ctx j run fuel op s
      = if op.disturbs j s = true then .error .exhausted s else step ctx run fuel op s := by
    intro run
    unfold sparingStep
    rw [bind_ok (get_apply s)]
    split <;> rfl
  dsimp only
  rw [happly run, happly run']
  cases hdisturbs : op.disturbs j s with
  | true =>
      rw [if_pos rfl, if_pos rfl]
      exact alike_keeping.2 ⟨rfl, .refl j s⟩
  | false =>
      rw [if_neg Bool.false_ne_true, if_neg Bool.false_ne_true]
      cases hop : op.writesTables with
      | false =>
          have hstep : Passes (Course j) (Course j) fun run => step ctx run fuel op :=
            holds_step fun _ _ => holds_quiet trivial fuel hop
          exact hstep M run run' s s rfl hrun
      | true =>
          -- what writes to a table runs no blocks
          have hsame : ∀ k, perform ctx run' fuel k op = perform ctx run fuel k op := by
            intro k
            cases op <;> cases hop <;> rfl
          refine alike_keeping.2 ⟨?_, course_step (course_perform run fuel hop hdisturbs)⟩
          unfold step
          simp only [hsame]

/-- What refused operations keep, blocks of them keep. -/
theorem keeps_sparingBlock {Way R : Session → Session → Prop} [Calm R] [OnWay Way R]
    (hstep : ∀ fuel op, Passes Way R fun run => sparingStep ctx j run fuel op) (fuel : Nat)
    (b : BlockId) : Keeps R (sparingBlock ctx j fuel b) := by
  have hsteps : ∀ (fuel : Nat) (ops : List Op),
      Passes Way R fun run => sparingSteps ctx j run fuel ops := by
    intro fuel ops
    induction ops with
    | nil => exact .pure _
    | cons op ops ih => exact (hstep fuel op).bind fun _ => ih
  induction fuel generalizing b with
  | zero => exact Keeps.throw _
  | succ fuel ih => exact (hsteps fuel _).keeps_of_run ih

-- ================================================================= watching

/-- Performs operations one after the other under watch. -/
noncomputable def watchedSparing (ctx : Context) (j : MachineId) (ok : Session → Prop)
    (other : Action Unit) (run : BlockId → Action Unit) (fuel : Nat) : List Op → Action Unit
  | [] => return
  | op :: ops => do
    watching ok other (sparingStep ctx j run fuel op)
    watchedSparing ctx j ok other run fuel ops

/-- Runs a block that leaves the registry of a machine to wrappers, with every
operation in it and in the blocks that it runs under watch. -/
noncomputable def watchedSparingBlock (ctx : Context) (j : MachineId) (ok : Session → Prop)
    (other : Action Unit) : Nat → BlockId → Action Unit
  | 0, _ => throw .exhausted
  | fuel + 1, b =>
    watchedSparing ctx j ok other (watchedSparingBlock ctx j ok other fuel) fuel
      (ctx.program.block b)

section

variable {Way R : Session → Session → Prop} [OnWay Way R]
  (hstep : ∀ fuel op, Passes Way R fun run => sparingStep ctx j run fuel op)

include hstep

theorem watchedSparing_eq {ok : Session → Prop} {other : Action Unit}
    {run run' : BlockId → Action Unit} (hok : ∀ t, Way s₀ t → ok t)
    (hrun : ∀ b, Keeps R (run b)) (hagree : ∀ b t, Way s₀ t → run' b t = run b t)
    (fuel : Nat) (ops : List Op) (hs : Way s₀ s) :
    watchedSparing ctx j ok other run' fuel ops s = sparingSteps ctx j run fuel ops s := by
  induction ops generalizing s with
  | nil => rfl
  | cons op ops ih =>
      obtain ⟨heq, hkept⟩ :=
        (hstep fuel op).apply hrun fun b t ht => hagree b t (OnWay.trans R hs ht)
      have hfinal : Way s₀ (final (sparingStep ctx j run fuel op s)) :=
        OnWay.trans R hs (OnWay.way hkept)
      unfold watchedSparing sparingSteps
      refine watching_bind (hok s hs) heq (hok _ hfinal) fun t ht => ih ?_
      rwa [ht] at hfinal

/-- Watching blocks makes no difference where everything on the way from where
they begin is allowed. -/
theorem watchedSparingBlock_eq [Calm R] {ok : Session → Prop} {other : Action Unit}
    (hok : ∀ t, Way s₀ t → ok t) (fuel : Nat) (b : BlockId) (hs : Way s₀ s) :
    watchedSparingBlock ctx j ok other fuel b s = sparingBlock ctx j fuel b s := by
  induction fuel generalizing b s with
  | zero => rfl
  | succ fuel ih =>
      unfold watchedSparingBlock sparingBlock
      exact watchedSparing_eq hstep hok (keeps_sparingBlock hstep fuel) (fun b t ht => ih b ht)
        fuel _ hs

end

-- ================================================================ reachable

/-- The states that a program comes to as long as it leaves the registry of a
machine to wrappers: its session at the start, and what its operations lead to
or visit on their way, through whatever blocks. -/
inductive Spared (ctx : Context) (j : MachineId) : Session → Prop where
  | start {s : Session}
      (defined : evalClasses ctx.program ctx.program.classes []
        (Session.start ctx.program.machines ctx.program.checks) = .ok ctx.classes s) :
      Spared ctx j s
  | step {s : Session} (fuel : Nat) (op : Op) (before : Spared ctx j s) :
      Spared ctx j (final (sparingStep ctx j (sparingBlock ctx j fuel) fuel op s))
  | inside {s t : Session} (fuel : Nat) (op : Op) (before : Spared ctx j s)
      (visited : ∃ other,
        sparingStep ctx j (watchedSparingBlock ctx j (· ≠ t) other fuel) fuel op s
          ≠ sparingStep ctx j (sparingBlock ctx j fuel) fuel op s) : Spared ctx j t

/-- Whatever such a program comes to is on the way from where it has started. -/
theorem Spared.onWay (Way R : Session → Session → Prop) [Calm R] [∀ ctx, Describes ctx R]
    [OnWay Way R] (hstep : ∀ fuel op, Passes Way R fun run => sparingStep ctx j run fuel op)
    (h : Spared ctx j s) :
    Way (Session.start ctx.program.machines ctx.program.checks) s := by
  induction h with
  | start defined =>
      have hclasses : Keeps R (evalClasses ctx.program ctx.program.classes []) :=
        (holds_evalClasses ctx.program ctx.program.classes []).keeps
      have hkept := hclasses (Session.start ctx.program.machines ctx.program.checks)
      rw [defined] at hkept
      exact OnWay.way hkept
  | @step s fuel op _ ih =>
      exact OnWay.trans R ih
        (OnWay.way ((hstep fuel op).keeps_of_run (keeps_sparingBlock hstep fuel) s))
  | @inside s t fuel op _ visited ih =>
      refine OnWay.trans R ih ?_
      by_contra hout
      obtain ⟨other, hne⟩ := visited
      refine hne ((hstep fuel op).apply (keeps_sparingBlock hstep fuel) fun b u hu => ?_).1
      refine watchedSparingBlock_eq hstep (fun v (hin : Way s v) hvt => ?_) fuel b hu
      exact hout (hvt ▸ hin)

theorem Spared.course (h : Spared ctx j s) :
    Course j (Session.start ctx.program.machines ctx.program.checks) s :=
  h.onWay (Course j) (Course j) passes_sparingStep

/-- On a machine that has not been closed there is a frame. -/
theorem Spared.framed (h : Spared ctx j s) (hc : (s.machine k).closed = false) :
    (s.machine k).Framed := by
  have hstep : ∀ fuel op, Passes Within Confined fun run => sparingStep ctx j run fuel op := by
    intro fuel op
    refine (Passes.of_keeps Keeps.get).bind fun s => ?_
    cases op.disturbs j s with
    | true => exact .exhausted
    | false => exact holds_step fun _ _ => holds_perform trivial fuel op
  exact ((h.onWay Within Confined hstep).machine k).framed hc (start_framed _ _ k)

end Session

end StackBridge
