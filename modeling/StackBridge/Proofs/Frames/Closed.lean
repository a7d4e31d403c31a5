import StackBridge.Proofs.Frames.Calls
import StackBridge.Proofs.Machine.Unmarked
import StackBridge.Proofs.Wrapper.Registered

/-!
Closing a machine at whatever depth. Closing gives a machine one frame, for the
host, whatever calls are running on it; but each of these calls, when it ends,
takes the topmost frame for its own. So a call that closes the machine that it runs
on leaves it without a frame (`call_leftIn`), and only a machine that is closed while
no call is running on it keeps the frame of the host. Nothing else that a program
does takes a frame away or leaves one behind (`Outlives`).

That a machine has been closed is told by its registry, which is a new table.
-/

namespace StackBridge

namespace Machine

/-- What becomes of a machine, when there have been some tables: it is in the
frames that it was in, on its registry and as open as it was, or it has been
closed since and is left in certain frames. -/
inductive LeftIn (left : List Nat → Prop) (tables : Nat) (m m' : Machine) : Prop where
  | running (registry : m'.registry = m.registry) (frames : m'.frames = m.frames)
      (closed : m'.closed = m.closed)
  | closed (registry : tables ≤ m'.registry) (frames : left m'.frames) (closed : m'.closed = true)

/-- The frame of the host, or none: what operations leave of a machine that they
close. -/
abbrev AtMostHost (frames : List Nat) : Prop := frames = [0] ∨ frames = []

variable {left : List Nat → Prop} {tables tables' : Nat} {m m' m'' : Machine}

theorem LeftIn.refl (m : Machine) : LeftIn left tables m m := .running rfl rfl rfl

theorem LeftIn.mono {left' : List Nat → Prop} (h : LeftIn left tables m m')
    (hleft : ∀ fs, left fs → left' fs) : LeftIn left' tables m m' := by
  cases h with
  | running registry frames closed => exact .running registry frames closed
  | closed registry frames closed => exact .closed registry (hleft _ frames) closed

/-- Only the frames, the registry and the mark matter. -/
theorem LeftIn.of_fields (h : LeftIn left tables m m') (hregistry : m''.registry = m'.registry)
    (hframes : m''.frames = m'.frames) (hclosed : m''.closed = m'.closed) :
    LeftIn left tables m m'' := by
  cases h with
  | running registry frames closed =>
      exact .running (hregistry.trans registry) (hframes.trans frames) (hclosed.trans closed)
  | closed registry frames closed =>
      exact .closed (hregistry ▸ registry) (hframes ▸ frames) (hclosed.trans closed)

theorem LeftIn.trans (h : LeftIn left tables m m') (htables : tables ≤ tables')
    (h' : LeftIn left tables' m' m'') : LeftIn left tables m m'' := by
  cases h' with
  | closed registry frames closed => exact .closed (Nat.le_trans htables registry) frames closed
  | running registry frames closed =>
      cases h with
      | running registry' frames' closed' =>
          exact .running (registry.trans registry') (frames.trans frames') (closed.trans closed')
      | closed registry' frames' closed' =>
          refine .closed (registry ▸ registry') ?_ (closed.trans closed')
          rw [frames]
          exact frames'

end Machine

-- ============================================================== one machine

namespace Vm

/-- Tables are added only, and the machine is left in the frames that it was in,
or closed in the frame of the host or none. -/
structure Outlives (vm vm' : Vm) : Prop where
  tables : vm.heap.tables.size ≤ vm'.heap.tables.size
  machine : vm.machine.LeftIn Machine.AtMostHost vm.heap.tables.size vm'.machine

instance : Std.Refl Outlives := ⟨fun vm => ⟨Nat.le_refl _, .refl vm.machine⟩⟩

instance : IsTrans Vm Outlives :=
  ⟨fun _ _ _ h h' => ⟨Nat.le_trans h.tables h'.tables, h.machine.trans h.tables h'.machine⟩⟩

instance : Lasts Outlives where
  steady h := ⟨by rw [h.tables], .running h.registry h.frames h.closed⟩
  store {vm id _ _ t} _ := ⟨Nat.le_of_eq (vm.heap.setTable_size id t).symm, .refl vm.machine⟩
  setFree _ _ _ := ⟨Nat.le_refl _, .running rfl rfl rfl⟩

theorem tables_newTable (h : Heap) (t : Table) :
    h.tables.size ≤ (h.newTable t).2.tables.size := by
  simp [Heap.newTable]

theorem outlives_pushTable : Keeps Outlives pushTable :=
  fun vm => ⟨tables_newTable vm.heap .empty, .running rfl rfl rfl⟩

/-- Closing gives a machine the frame of the host and a new registry. -/
theorem outlives_close : Keeps Outlives close :=
  fun vm => ⟨tables_newTable vm.heap .empty, .closed (Nat.le_refl _) (.inl rfl) rfl⟩

end Vm

-- ================================================================= sessions

namespace Session

open Bridge

variable {ctx : Context} {s t u : Session} {k : MachineId} {fuel : Nat} {args wanted : Int}

/-- Tables are added only, and every machine is left in the frames that it was in,
or closed in certain frames. -/
structure LeftIn (left : List Nat → Prop) (s t : Session) : Prop where
  size : t.machines.size = s.machines.size
  tables : s.heap.tables.size ≤ t.heap.tables.size
  machine : ∀ k, (s.machine k).LeftIn left s.heap.tables.size (t.machine k)

/-- What any operation leaves of the machines. -/
abbrev Outlives : Session → Session → Prop := LeftIn Machine.AtMostHost

theorem Outlives.of_same (hheap : t.heap = s.heap) (hmachines : t.machines = s.machines) :
    Outlives s t where
  size := by rw [hmachines]
  tables := by rw [hheap]
  machine k := by
    unfold Session.machine
    rw [hmachines]
    exact .refl _

instance : Calm Outlives where
  refl _ := Outlives.of_same rfl rfl
  trans _ _ _ h h' := ⟨h'.size.trans h.size, Nat.le_trans h.tables h'.tables,
    fun k => (h.machine k).trans h.tables (h'.machine k)⟩
  unseen hheap hmachines _ _ := .of_same hheap hmachines

/-- One machine is put back with a heap, left like the others. -/
theorem Outlives.withVm (h : Outlives s t) {vm : Vm}
    (htables : t.heap.tables.size ≤ vm.heap.tables.size)
    (hvm : k < t.machines.size →
      (s.machine k).LeftIn Machine.AtMostHost s.heap.tables.size vm.machine) :
    Outlives s (t.withVm k vm) where
  size := (withVm_size t k vm).trans h.size
  tables := Nat.le_trans h.tables htables
  machine j := by
    by_cases hjk : k = j
    · subst hjk
      by_cases hk : k < t.machines.size
      · rw [withVm_machine hk]
        exact hvm hk
      · rw [withVm_machine_none hk]
        exact h.machine k
    · rw [withVm_machine_ne hjk]
      exact h.machine j

theorem outlives_onMachine {α : Type} {a : Vm.Action α} (ha : Keeps Vm.Outlives a) :
    Keeps Outlives (onMachine k a) := by
  intro s
  rw [onMachine_final]
  have h := ha (s.vm k)
  exact Outlives.withVm (Std.Refl.refl s) h.tables fun _ => h.machine

instance : Writes Outlives where
  steady _ ha := outlives_onMachine (Vm.keeps_steady ha)
  pushTable _ := outlives_onMachine Vm.outlives_pushTable
  close _ := outlives_onMachine Vm.outlives_close
  rewrapped hheap hmachines _ := .of_same hheap hmachines
  rawSet _ index := outlives_onMachine (Vm.keeps_rawSet index)
  setKey _ index key := outlives_onMachine (Vm.keeps_setKey index key)
  ref _ index := outlives_onMachine (Vm.keeps_ref index)
  unref _ index r := outlives_onMachine (Vm.keeps_unref index r)

instance : Describes ctx Outlives :=
  describes_of_blind ctx fun hheap hmachines _ => .of_same hheap hmachines

-- ==================================================================== calls

variable {position : Nat}

/-- What ran in a further frame outlives it there; when the frame is left, a
machine that has been closed since has none. -/
theorem leaving_leftIn (hk : k < s.machines.size) (h : Outlives (entering k position s) u) :
    Outlives s (final (onMachine k Vm.leaveFrame u))
      ∧ (s.machine k).LeftIn (· = []) s.heap.tables.size
          ((final (onMachine k Vm.leaveFrame u)).machine k) := by
  have hsize : u.machines.size = s.machines.size := h.size.trans (withVm_size s k _)
  have htables : s.heap.tables.size ≤ u.heap.tables.size := h.tables
  have hentered : ({ s.machine k with frames := position :: (s.machine k).frames } : Machine).LeftIn
      Machine.AtMostHost s.heap.tables.size (u.machine k) := by
    have hmachine := h.machine k
    rw [entering_machine hk] at hmachine
    exact hmachine
  -- the other machines have been left as they are
  have houtlives : ∀ {vm : Vm}, u.heap = vm.heap →
      (s.machine k).LeftIn (· = []) s.heap.tables.size vm.machine →
        Outlives s (u.withVm k vm) := by
    intro vm hheap hvm
    refine ⟨(withVm_size u k vm).trans hsize, ?_, fun j => ?_⟩
    · show s.heap.tables.size ≤ vm.heap.tables.size
      rw [← hheap]
      exact htables
    by_cases hjk : k = j
    · subst hjk
      rw [withVm_machine (by rw [hsize]; exact hk)]
      exact hvm.mono fun _ hnone => .inr hnone
    · have hother := h.machine j
      unfold entering at hother
      rw [withVm_machine_ne hjk] at hother ⊢
      exact hother
  rw [onMachine_final]
  have hku : k < u.machines.size := by rw [hsize]; exact hk
  cases hf : (u.machine k).frames with
  | nil =>
      rw [leaveFrame_none hf]
      have hnone : (s.machine k).LeftIn (· = []) s.heap.tables.size (u.vm k).machine := by
        cases hentered with
        | running _ frames _ =>
            rw [hf] at frames
            cases frames
        | closed registry _ closed => exact .closed registry hf closed
      dsimp only [final]
      rw [withVm_machine hku]
      exact ⟨houtlives rfl hnone, hnone⟩
  | cons b fs =>
      rw [leaveFrame_eq hf]
      have hleft : (s.machine k).LeftIn (· = []) s.heap.tables.size
          { u.machine k with frames := fs } := by
        cases hentered with
        | running registry frames closed =>
            rw [hf] at frames
            exact .running registry (List.cons.inj frames).2 closed
        | closed registry frames closed =>
            rw [hf] at frames
            refine .closed registry ?_ closed
            rcases frames with hhost | hnone
            · exact (List.cons.inj hhost).2
            · cases hnone
      dsimp only [final]
      rw [withVm_machine hku]
      exact ⟨houtlives rfl hleft, hleft⟩

/-- Slots are none of the frames' concern. -/
theorem Outlives.replaceFrom (h : Outlives s t) (k : MachineId) (position : Nat)
    (values : List Value) :
    Outlives s (final (onMachine k (Vm.replaceFrom position values) t)) := by
  rw [onMachine_final]
  exact h.withVm (Nat.le_refl _) fun _ => (h.machine k).of_fields rfl rfl rfl

/-- Going back to earlier frames leaves a closed machine at most the frame of the
host. -/
theorem recover_leftIn {left : List Nat → Prop} {m : Machine} {tables : Nat}
    (hleft : ∀ fs n, left fs → left (fs.drop n)) (vm : Vm) (h : m.LeftIn left tables vm.machine)
    (position : Int) (raised : Value) :
    m.LeftIn left tables (final (Vm.recover m.frames.length position raised vm)).machine := by
  obtain ⟨slots, _, hfinal⟩ := recover_shuffles m.frames.length position raised vm
  rw [hfinal]
  cases h with
  | running registry frames closed =>
      refine .running registry ?_ closed
      show vm.machine.frames.drop _ = m.frames
      rw [frames, Nat.sub_self, List.drop_zero]
  | closed registry frames closed => exact .closed registry (hleft _ _ frames) closed

theorem drop_atMostHost (fs : List Nat) (n : Nat) (h : Machine.AtMostHost fs) :
    Machine.AtMostHost (fs.drop n) := by
  rcases h with rfl | rfl
  · cases n with
    | zero => exact .inl rfl
    | succ n => exact .inr (List.drop_nil)
  · exact .inr List.drop_nil

/-- Calls may begin frames anywhere. -/
abbrev Anywhere (_ _ : Session) : Prop := True

instance : Encloses Anywhere Outlives where
  way _ := trivial
  trans _ _ := trivial
  entering _ _ _ := trivial
  leaving {s u k position} hk _ _ h := by
    have hleft := (leaving_leftIn hk h).1
    refine ⟨hleft, fun t ht values => ?_⟩
    rw [ht] at hleft
    exact hleft.replaceFrom k position values
  recovering {s t} k position raised h := by
    obtain ⟨slots, _, hfinal⟩ :=
      recover_shuffles (s.machine k).frames.length position raised (t.vm k)
    have hmachine := recover_leftIn drop_atMostHost (t.vm k) (h.machine k) position raised
    rw [onMachine_final]
    refine h.withVm ?_ fun _ => hmachine
    rw [hfinal]
    exact Nat.le_refl _

theorem outlives_step (ctx : Context) (fuel : Nat) (op : Op) :
    Keeps Outlives (step ctx (runBlock ctx fuel) fuel op) :=
  have hstep : Passes Anywhere Outlives fun run => step ctx run fuel op :=
    holds_step fun _ _ => holds_perform trivial fuel op
  hstep.keeps_of_run (keeps_block Anywhere ctx fuel)

/-- A call that closes the machine that it runs on leaves it without a frame. -/
theorem call_leftIn (ctx : Context) (fuel : Nat) (k : MachineId) (args wanted : Int) (s : Session) :
    (s.machine k).LeftIn (· = []) s.heap.tables.size
      ((final (call ctx (runBlock ctx fuel) fuel k args wanted s)).machine k) := by
  rcases call_cases ctx fuel k args wanted s with
    ⟨e, hfail⟩ | ⟨position, f, _, hlt, _, _, hcall⟩
  · rw [hfail]
    exact .refl _
  · rw [hcall]
    have hk := lt_size_of_slots hlt
    have hcallee : Passes Anywhere Outlives (callee ctx fuel k f) := holds_callee trivial fuel f
    have hkept :=
      hcallee.keeps_of_run (keeps_block Anywhere ctx fuel) (entering k (position + 1) s)
    obtain ⟨-, hleft⟩ := leaving_leftIn hk hkept
    rw [← ensuring_final] at hleft
    unfold returning
    rw [bind_apply]
    cases hr : ensuring (callee ctx fuel k f (runBlock ctx fuel)) (onMachine k Vm.leaveFrame)
        (entering k (position + 1) s) with
    | error e v =>
        rw [hr] at hleft
        exact hleft
    | ok values v =>
        rw [hr] at hleft
        dsimp only [final] at hleft ⊢
        by_cases hv : k < v.machines.size
        · show (s.machine k).LeftIn _ _ ((v.withVm k _).machine k)
          rw [withVm_machine hv]
          exact hleft.of_fields rfl rfl rfl
        · show (s.machine k).LeftIn _ _ ((v.withVm k _).machine k)
          rw [withVm_machine_none hv]
          exact hleft

/-- And so does a protected call, whatever it is ended by. -/
theorem protectedCall_leftIn (ctx : Context) (fuel : Nat) (k : MachineId) (args wanted : Int)
    (s : Session) :
    (s.machine k).LeftIn (· = []) s.heap.tables.size
      ((final (protectedCall ctx (runBlock ctx fuel) fuel k args wanted s)).machine k) := by
  have hcall := call_leftIn ctx fuel k args wanted s
  unfold protectedCall
  rw [bind_ok (get_apply s)]
  unfold handling
  rw [bind_apply]
  cases hr : call ctx (runBlock ctx fuel) fuel k args wanted s with
  | ok x t =>
      rw [hr] at hcall
      exact hcall
  | error e t =>
      rw [hr] at hcall
      cases e with
      | exhausted => exact hcall
      | failed f =>
          cases f with
          | machine v cause =>
              show (s.machine k).LeftIn _ _ ((final ((onMachine k
                (Vm.recover (s.machine k).frames.length _ v) >>= fun _ =>
                  pure Bridge.statusError) t)).machine k)
              rw [final_bind_pure, onMachine_final]
              by_cases ht : k < t.machines.size
              · rw [withVm_machine ht]
                exact recover_leftIn (fun _ _ h => by rw [h, List.drop_nil]) (t.vm k) hcall _ v
              · rw [withVm_machine_none ht]
                exact hcall
          | _ => exact hcall

-- ===================================================================== runs

theorem stepsRegardless_outlives (ctx : Context) (fuel : Nat) (ops : List Op) :
    Keeps Outlives (stepsRegardless ctx fuel ops) := by
  induction ops with
  | nil => exact Keeps.pure ()
  | cons op ops ih =>
      refine Keeps.bind ?_ fun _ => ih
      intro s
      have hstep := outlives_step ctx fuel op s
      unfold handling
      cases hr : step ctx (runBlock ctx fuel) fuel op s with
      | ok x t =>
          rw [hr] at hstep
          exact hstep
      | error e t =>
          rw [hr] at hstep
          cases e <;> exact hstep

theorem execute_outlives (p : Program) (fuel : Nat) : Keeps Outlives (p.execute fuel) :=
  Keeps.bind (holds_evalClasses p p.classes []).keeps fun classes =>
    stepsRegardless_outlives ⟨classes, p⟩ fuel _

/-- A session begins with the frame of the host on each machine. -/
theorem start_frames (machines : Nat) (checks : Bool) (k : MachineId) :
    ((Session.start machines checks).machine k).frames = [0] := by
  obtain ⟨registry, hfresh⟩ := start_fresh machines checks k
  rw [hfresh]
  rfl

/-- The frames of a machine that is closed. Closing it leaves, whatever runs on it,
a fresh machine in the frame of the host, and no sequence of primitives tells the
two apart. A call, protected or not, ends with the machine in the frames, on the
registry and as open as before; or it has closed the machine, which is on a new
registry then and has no frame at all. Whatever a program does, each machine is
left by its operations in the frame of the host, or closed without any. -/
theorem frames_after_closing (ctx : Context) (fuel : Nat) (k : MachineId) (s : Session) :
    (∃ vm : Vm, vm.machine = .fresh s.heap.tables.size ∧ vm.heap = (s.heap.newTable .empty).2
      ∧ onMachine k Vm.close s = .ok () (s.withVm k (vm.marked true))
      ∧ ∀ {α : Type} {a : Vm.Action α}, Vm.Script a →
          ∃ b, a (vm.marked true) = Vm.remarked b (a vm))
    ∧ (∀ args wanted, (s.machine k).LeftIn (· = []) s.heap.tables.size
        ((final (call ctx (runBlock ctx fuel) fuel k args wanted s)).machine k))
    ∧ (∀ args wanted, (s.machine k).LeftIn (· = []) s.heap.tables.size
        ((final (protectedCall ctx (runBlock ctx fuel) fuel k args wanted s)).machine k))
    ∧ (∀ op, (s.machine k).LeftIn (fun fs => fs = [0] ∨ fs = []) s.heap.tables.size
        ((final (step ctx (runBlock ctx fuel) fuel op s)).machine k))
    ∧ ∀ p : Program,
        let m := (final (p.execute fuel (Session.start p.machines p.checks))).machine k
        m.frames = [0] ∨ m.closed = true ∧ m.frames = [] := by
  refine ⟨⟨_, rfl, rfl, onMachine_ok (Vm.close_apply _), fun ha => ha.blind _ true⟩,
    fun args wanted => call_leftIn ctx fuel k args wanted s,
    fun args wanted => protectedCall_leftIn ctx fuel k args wanted s,
    fun op => (outlives_step ctx fuel op s).machine k, fun p => ?_⟩
  have hstart := start_frames p.machines p.checks k
  cases (execute_outlives p fuel (Session.start p.machines p.checks)).machine k with
  | running _ frames _ => exact .inl (frames.trans hstart)
  | closed _ frames closed => exact frames.imp id fun hnone => ⟨closed, hnone⟩

/-- A program of one machine, with a block that closes it. -/
abbrev closing : Context := ⟨[], ⟨[], 1, true, #[[.close]], #[], 0⟩⟩

/-- The machine with a function on its stack that runs that block. -/
def beforeClosing : Session := afterOps closing [.pushFunction (some "f") 0 (some 0)]

/-- The function is called: the machine is closed and is left without a frame. -/
theorem frames_after_closing_function :
    (beforeClosing.machine 0).frames = [0] ∧ (beforeClosing.machine 0).closed = false
      ∧ let t := final (call closing (runBlock closing 9) 9 0 0 0 beforeClosing)
        (t.machine 0).closed = true ∧ (t.machine 0).frames = [] := by
  refine ⟨by decide +kernel, by decide +kernel, ?_⟩
  cases (frames_after_closing closing 9 0 beforeClosing).2.1 0 0 with
  | running _ _ closed =>
      exact absurd closed (by decide +kernel)
  | closed _ frames closed => exact ⟨closed, frames⟩

/-- Such a machine does not behave as a fresh one: it does not even answer how many
slots it has. -/
theorem closed_inside_call :
    ∃ s : Session, Reachable closing s ∧ (s.machine 0).frames = [0]
      ∧ let t := final (call closing (runBlock closing 9) 9 0 0 0 s)
        (t.machine 0).closed = true ∧ (t.machine 0).frames ≠ [0]
          ∧ Vm.getTop (t.vm 0) = .error (.host .noFrame) (t.vm 0)
          ∧ Vm.getTop ⟨t.heap, .fresh (t.machine 0).registry⟩
              = .ok 0 ⟨t.heap, .fresh (t.machine 0).registry⟩ := by
  have hnone : ((final (call closing (runBlock closing 9) 9 0 0 0 beforeClosing)).machine 0).frames
      = [] := by decide +kernel
  refine ⟨beforeClosing, afterOps_reachable rfl _, by decide +kernel, by decide +kernel, ?_, ?_,
    rfl⟩
  · rw [hnone]
    decide
  · exact bind_error (Vm.base_none hnone)

end Session

end StackBridge
