import StackBridge.Proofs.Isolation.Isolating
import StackBridge.Proofs.Wrapper.References

/-!
Programs whose raised objects go to nobody else.

A protected call puts what has been raised in it on the stack of its own machine,
wherever it comes from. `homingBlock` runs a block like `runBlock`, except that an
operation that would raise an object of one machine inside a protected call of
another one is refused: the run stops there, and nothing meets that stop. What such
runs come to are the states of a program up to where an object is first raised so
(`Homed`), and in all of them the machines have no object in common
(`Homed.parted`). What follows on one of them (`Leads`) keeps them apart.
-/

namespace StackBridge

/-- Whether an operation would raise an object to a protected call of a machine that is
not its own. -/
def Op.strays (op : Op) (g : Option MachineId) (s : Session) : Bool :=
  match op, g with
  | .error, some k =>
    match Vm.take (s.vm s.current) with
    | .ok v _ => k != s.current && decide v.IsObject
    | .error .. => false
  | _, _ => false

/-- The machine of the protected call around what an operation on a machine runs. -/
def Op.around (op : Op) (g : Option MachineId) (k : MachineId) : Option MachineId :=
  if op.protects then some k else g

namespace Session

open Bridge Law

variable {s t u : Session} {j k : MachineId} {n : Nat} {g : Option MachineId} {ctx : Context}
  {fuel : Nat} {op : Op} {M : Session → Prop} {v : Value}

/-- Performs an operation inside a protected call of a machine, if there is one; an
operation that would raise an object to another machine is where the run stops. What
runs its blocks is told the protected call that they are in. -/
def homingStep (ctx : Context) (runs : Option MachineId → Runner) (fuel : Nat)
    (g : Option MachineId) (op : Op) : Action Unit := do
  let s ← get
  if op.strays g s then throw .exhausted
  else step ctx (runs (op.around g s.current)) fuel op

/-- Performs such operations one after the other, with a look at each of them. -/
def homingSteps (ctx : Context) (look : Action Unit → Action Unit)
    (runs : Option MachineId → Runner) (fuel : Nat) (g : Option MachineId) :
    List Op → Action Unit
  | [] => return
  | op :: ops => do
    look (homingStep ctx runs fuel g op)
    homingSteps ctx look runs fuel g ops

/-- Runs a block that raises no objects to other machines, with a look at every
operation in it and in the blocks that it runs. -/
def homingBlock (ctx : Context) (look : Action Unit → Action Unit) :
    Nat → Option MachineId → Runner
  | 0, _, _ => throw .exhausted
  | fuel + 1, g, b =>
    homingSteps ctx look (homingBlock ctx look fuel) fuel g (ctx.program.block b)

open Classical in
/-- Does something else where an operation would begin in a state or complete in it. -/
noncomputable def watchingFor (u : Session) (other action : Action Unit) : Action Unit :=
  fun s => if s = u ∨ action s = .ok () u then other s else action s

-- ================================================================= operations

/-- What is raised, if it is not refused, goes home. -/
theorem isolating_raiseTop (hs : Parted n s) (h : Op.error.strays g s = false) :
    (isolating g n).Alone s (onMachine s.current Vm.raiseTop s :
      EStateM.Result Stop Session HostValue) := by
  have htake : Vm.Inherits (s.vm s.current) (final (Vm.take (s.vm s.current))) :=
    Vm.keeps_inherits_steady Vm.steady_take _
  have hkept := keepsApart_withVm hs.current htake
  cases hv : Vm.take (s.vm s.current) with
  | ok v vm =>
      have hraise : (Vm.raiseTop : Vm.Action HostValue) (s.vm s.current)
          = .error (.machine v none) vm := by
        unfold Vm.raiseTop
        rw [bind_ok hv]
        rfl
      rw [hv] at hkept
      rw [onMachine_error hraise]
      refine alone_isolating (hkept.apart hs).1 hkept ?_
      rintro _ _ hr k w cause hg hf hobject
      cases hr
      cases hf
      have hhome : k = s.current := by
        simpa [Op.strays, hg, hv, hobject] using h
      rw [hhome]
      exact raised_take hs.current hv
  | error f vm =>
      have hraise : (Vm.raiseTop : Vm.Action HostValue) (s.vm s.current) = .error f vm := by
        unfold Vm.raiseTop
        exact bind_error hv
      have hconfined := Vm.steady_take.confined (s.vm s.current)
      rw [hv] at hkept hconfined
      rw [onMachine_error hraise]
      refine alone_isolating (hkept.apart hs).1 hkept fun _ _ hr => ?_
      cases hr
      exact stops_plain hconfined.2.plain

/-- An operation keeps machines apart if the blocks that it runs do, and comes to the
same for what runs them alike. -/
theorem alike_homingStep {runs runs' : Option MachineId → Runner} (hs : Parted n s)
    (hruns : ∀ g b t, Parted n t → (isolating g n).Alike M t (runs g b t) (runs' g b t)) :
    (isolating g n).Alike M s (homingStep ctx runs fuel g op s)
      (homingStep ctx runs' fuel g op s) := by
  unfold homingStep
  rw [bind_ok (get_apply s), bind_ok (get_apply s)]
  cases hstrays : op.strays g s with
  | true => exact .exhausted ⟨rfl, hs⟩ (.refl n s)
  | false =>
      rw [if_neg Bool.false_ne_true, if_neg Bool.false_ne_true]
      refine alike_step ?_
      cases hcall : op.protects with
      | true =>
          cases op with
          | pcall args wanted =>
              exact (isolating_protectedCall hs.current hs (hruns _)).bind
                fun _ t t' _ ht _ => .ok ht (.refl n t)
          | _ => cases hcall
      | false =>
          have haround : op.around g s.current = g := by
            unfold Op.around
            rw [hcall]
            rfl
          cases hraises : op.raises with
          | true =>
              cases op with
              | error => exact alike_isolating.2 ⟨isolating_raiseTop hs hstrays, .inl rfl⟩
              | _ => cases hraises
          | false =>
              rw [haround]
              refine holds_uncaught hs.current fuel hraises hcall M _ _ s s ⟨rfl, hs⟩ ?_
              rintro b t _ _ ⟨rfl, ht⟩
              exact hruns g b _ ht

-- =================================================================== watching

/-- Looking for a state makes no difference until the run has come through it. -/
theorem alike_watchingFor {other action action' : Action Unit}
    (h : (isolating g n).Alike (· = u) s (action s) (action' s)) :
    (isolating g n).Alike (· = u) s (action s) (watchingFor u other action' s) := by
  obtain ⟨halone, heq | hthrough⟩ := alike_isolating.1 h
  · unfold watchingFor
    rw [heq]
    split
    · next hfound =>
        rcases hfound with rfl | hend
        · exact .passed trivial halone ⟨_, rfl, .refl n _, halone⟩
        · rw [hend] at halone ⊢
          exact .passed trivial halone
            ⟨u, rfl, halone.kept, halone.same, .refl n u, fun _ _ hr => by cases hr⟩
    · exact alike_isolating.2 ⟨halone, .inl rfl⟩
  · exact .passed trivial halone hthrough

theorem alike_homingSteps {look look' : Action Unit → Action Unit}
    {runs runs' : Option MachineId → Runner}
    (hlook : ∀ {g action action' s}, (isolating g n).Alike M s (action s) (action' s) →
      (isolating g n).Alike M s (look action s) (look' action' s))
    (hruns : ∀ g b t, Parted n t → (isolating g n).Alike M t (runs g b t) (runs' g b t))
    (hs : Parted n s) (ops : List Op) :
    (isolating g n).Alike M s (homingSteps ctx look runs fuel g ops s)
      (homingSteps ctx look' runs' fuel g ops s) := by
  induction ops generalizing s with
  | nil => exact .ok ⟨rfl, hs⟩ (.refl n s)
  | cons op ops ih =>
      refine (hlook (alike_homingStep hs hruns)).bind fun _ t t' _ ht _ => ?_
      obtain ⟨rfl, ht⟩ := ht
      exact ih ht

/-- Blocks go alike where looking at their operations does. -/
theorem alike_homingBlock {look look' : Action Unit → Action Unit}
    (hlook : ∀ {g action action' s}, (isolating g n).Alike M s (action s) (action' s) →
      (isolating g n).Alike M s (look action s) (look' action' s))
    (fuel : Nat) (g : Option MachineId) (b : BlockId) (hs : Parted n s) :
    (isolating g n).Alike M s (homingBlock ctx look fuel g b s)
      (homingBlock ctx look' fuel g b s) := by
  induction fuel generalizing g b s with
  | zero => exact .exhausted ⟨rfl, hs⟩ (.refl n s)
  | succ fuel ih => exact alike_homingSteps hlook (fun g b _ ht => ih g b ht) hs _

-- ==================================================================== states

/-- Performs an operation inside a protected call of a machine, if there is one, and
blocks as they are. -/
abbrev performHoming (ctx : Context) (fuel : Nat) (g : Option MachineId) (op : Op) :
    Action Unit :=
  homingStep ctx (homingBlock ctx id fuel) fuel g op

/-- On its way an operation comes through a state: looking for it at the operations
inside makes a difference. -/
def Comes (ctx : Context) (fuel : Nat) (g : Option MachineId) (op : Op) (s u : Session) : Prop :=
  ∃ other, homingStep ctx (homingBlock ctx (watchingFor u other) fuel) fuel g op s
    ≠ performHoming ctx fuel g op s

/-- The states that a program comes to as long as it raises no object to another
machine: its session at the start, and what its operations lead to or come through,
in whatever protected calls. -/
inductive Homed (ctx : Context) : Session → Prop where
  | start {s : Session}
      (defined : evalClasses ctx.program ctx.program.classes []
        (Session.start ctx.program.machines ctx.program.checks) = .ok ctx.classes s) :
      Homed ctx s
  | step {s : Session} (fuel : Nat) (g : Option MachineId) (op : Op) (before : Homed ctx s) :
      Homed ctx (final (performHoming ctx fuel g op s))
  | inside {s u : Session} (fuel : Nat) (g : Option MachineId) (op : Op) (before : Homed ctx s)
      (comes : Comes ctx fuel g op s u) : Homed ctx u

/-- What such a program may come to from a state on: what operations lead to or come
through, and where an operation ends that has come through what went before. -/
inductive Leads (ctx : Context) (s : Session) : Session → Prop where
  | here : Leads ctx s s
  | step {t : Session} (fuel : Nat) (g : Option MachineId) (op : Op) (before : Leads ctx s t) :
      Leads ctx s (final (performHoming ctx fuel g op t))
  | inside {t u : Session} (fuel : Nat) (g : Option MachineId) (op : Op) (before : Leads ctx s t)
      (comes : Comes ctx fuel g op t u) : Leads ctx s u
  | leave {t u : Session} (fuel : Nat) (g : Option MachineId) (op : Op) (outside : Homed ctx t)
      (comes : Comes ctx fuel g op t u) (before : Leads ctx s u) :
      Leads ctx s (final (performHoming ctx fuel g op t))

theorem alone_performHoming (hs : Parted n s) :
    (isolating g n).Alone s (performHoming ctx fuel g op s) :=
  have h : (isolating g n).Alike Unmarked s (performHoming ctx fuel g op s) _ :=
    alike_homingStep hs fun g b _ ht => alike_homingBlock id fuel g b ht
  h.alone trivial

/-- An operation goes on from what it comes through. -/
theorem Comes.through (h : Comes ctx fuel g op s u) (hs : Parted n s) :
    KeepsApart n s u ∧ KeepsApart n u (final (performHoming ctx fuel g op s)) := by
  obtain ⟨other, hdiffers⟩ := h
  have halike : (isolating g n).Alike (· = u) s (performHoming ctx fuel g op s)
      (homingStep ctx (homingBlock ctx (watchingFor u other) fuel) fuel g op s) :=
    alike_homingStep hs fun g b _ ht => alike_homingBlock alike_watchingFor fuel g b ht
  obtain ⟨_, heq | ⟨_, rfl, hway, hsince⟩⟩ := alike_isolating.1 halike
  · exact absurd heq hdiffers
  · exact ⟨hway, hsince.kept⟩

-- ==================================================================== starting

theorem start_current (machines : Nat) (checks : Bool) :
    (Session.start machines checks).current = 0 := by
  induction machines with
  | zero => rfl
  | succ n ih =>
      rw [start_succ]
      exact ih

/-- A machine that is fresh reaches nothing but its registry, if that is empty. -/
theorem reaches_fresh {registry : TableId} (hfresh : s.machine k = .fresh registry)
    (hempty : s.heap.table registry = .empty) (h : s.Reaches k v) : v = .table registry := by
  have hmachine : (s.vm k).machine = .fresh registry := hfresh
  unfold Session.Reaches at h
  induction h with
  | slot slot =>
      rw [hmachine] at slot
      cases slot
  | registry => rw [hmachine]; rfl
  | key _ entry ih | value _ entry ih =>
      cases ih
      rw [show (s.vm k).heap.table registry = .empty from hempty] at entry
      cases entry

/-- A session begins with machines that have nothing but a registry of their own. -/
theorem start_parted {machines : Nat} (hmachines : 0 < machines) (checks : Bool) :
    Parted machines (Session.start machines checks) := by
  have hstart := start_pristine machines checks
  have hreach : ∀ k < machines, ∀ v, (Session.start machines checks).Reaches k v →
      v = .table k := fun k hk v h => reaches_fresh (hstart.fresh k hk) (hstart.table k) h
  refine ⟨hstart.machines, ?_, fun id => ?_, fun k hk v h => ?_, fun j hj k hk hne v _ h h' => ?_⟩
  · rw [start_current]
    exact hmachines
  · unfold Session.wrapper
    rw [hstart.wrappers]
    exact hmachines
  · rw [hreach k hk v h]
    exact Nat.lt_of_lt_of_eq hk hstart.tables.symm
  · have heq := (hreach j hj v h).symm.trans (hreach k hk v h')
    cases heq
    exact hne rfl

-- ==================================================================== running

/-- Machines have no object in common, whatever a program does, as long as it raises
none to another machine. -/
theorem Homed.parted (hmachines : 0 < ctx.program.machines) (h : Homed ctx s) :
    Parted ctx.program.machines s := by
  induction h with
  | start defined =>
      have hclasses : (isolating none ctx.program.machines).Alike Unmarked _
          (evalClasses ctx.program ctx.program.classes []
            (Session.start ctx.program.machines ctx.program.checks)) _ :=
        (holds_evalClasses ctx.program ctx.program.classes []).apply
          ⟨rfl, start_parted hmachines ctx.program.checks⟩
      have halone := hclasses.alone trivial
      rw [defined] at halone
      exact halone.same.2
  | step fuel g op _ ih => exact (alone_performHoming ih).same.2
  | inside fuel g op _ comes ih => exact ((comes.through ih).1.apart ih).1

/-- And they take nothing from each other from then on. -/
theorem Leads.keepsApart (hs : Parted ctx.program.machines s) (h : Leads ctx s t) :
    KeepsApart ctx.program.machines s t := by
  have hmachines := Nat.zero_lt_of_lt hs.current
  induction h with
  | here => exact .refl _ s
  | step fuel g op _ ih => exact ih.trans (alone_performHoming (ih.apart hs).1).kept
  | inside fuel g op _ comes ih => exact ih.trans (comes.through (ih.apart hs).1).1
  | leave fuel g op outside comes _ ih =>
      exact ih.trans (comes.through (outside.parted hmachines)).2

end Session

end StackBridge
