import StackBridge.Proofs.Frames.Isolation

/-!
Protected calls. What a protected call answers is what the call inside it comes
to: a call that returns leaves its own state, and where a machine error leaves
the call, function and arguments have given way to the value that was raised.

That value may have been raised far inside. `Unwinds` says where: from the
operation that raises it outwards through blocks, machine functions, host
functions and bound functions, each reached by what ran before without a
failure. Every one of them has something to do when it is left (leaving its
frame, going back to the machine that was current, dropping what it had pushed,
renaming the failure), and none of it touches the value
(`Unwinds.raises`).
-/

namespace StackBridge

namespace Session

open Bridge

variable {ctx : Context} {k : MachineId} {s t : Session} {α β : Type}

-- ============================================================== open sessions

/-- No machine has been closed. -/
def Open (s : Session) : Prop := ∀ j, (s.machine j).closed = false

/-- Every machine that has not been closed has its frames in order. -/
def Framed (s : Session) : Prop := ∀ j, (s.machine j).closed = false → (s.machine j).Framed

theorem Open.of_machines (h : t.machines = s.machines) (ht : t.Open) : s.Open := by
  intro j
  have hj := ht j
  unfold Session.machine at hj ⊢
  rw [← h]
  exact hj

/-- Whatever a program comes to has its frames in order. -/
theorem Reachable.all_framed (h : Reachable ctx s) : s.Framed := fun _ hj => h.framed hj

theorem Within.framed (h : Within s t) (hs : s.Framed) : t.Framed :=
  fun j hj => (h.machine j).framed hj (hs j ((h.machine j).opened hj))

theorem Confined.framed (h : Confined s t) (hs : s.Framed) : t.Framed := h.within.framed hs

theorem Confined.opened (h : Confined s t) (ht : t.Open) : s.Open :=
  fun j => (h.machine j).opened (ht j)

theorem droppingAbove_ok {top : Int} (hc : (s.machine k).closed = false)
    (hm : (s.machine k).Framed) (htop : 0 ≤ top) :
    ∃ u, (do
      if !(← isClosed k) then
        if top < (← getTop k) then onMachine k (Vm.setTop top) : Action Unit) s = .ok () u := by
  obtain ⟨fs, hf⟩ := hm.frames_eq
  rw [bind_ok (isClosed_eq s k), hc]
  simp only [Bool.not_false, if_true]
  rw [bind_ok (getTop_eq hf)]
  split
  · have hset : Vm.setTop top (s.vm k) = .ok () ((s.vm k).withSlots
        ((s.machine k).slots.take ((s.machine k).baseOf + top).toNat
          ++ List.replicate (((s.machine k).baseOf + top).toNat - (s.machine k).slots.length) .nil))
        := by
      unfold Vm.setTop
      rw [bind_ok (Vm.base_eq hf)]
      simp only [Vm.getMachine, bind_apply, get_apply, pure_apply]
      rw [if_pos htop, if_neg (by omega)]
      rfl
    exact ⟨_, onMachine_ok hset⟩
  · exact ⟨s, rfl⟩

-- ============================================================ machine errors

/-- An action stops, and unless a machine has been closed it is a machine error
with this value that stops it. -/
def Raises (v : Value) (r : EStateM.Result Stop Session α) : Prop :=
  Ends r (fun _ _ => False) fun e t => t.Open → e = .failed (.machine v none)

namespace Raises

variable {v : Value} {a : Action α}

theorem bind {f : α → Action β} (h : Raises v (a s)) : Raises v ((a >>= f) s) :=
  Ends.bind h fun _ _ hfalse => hfalse.elim

/-- A handler that stops with the machine error that it has been given. -/
theorem handling {handler : Failure → Action α} (h : Raises v (a s))
    (hh : ∀ f t, Ends (handler f t) (fun _ _ => False) fun e u =>
      u.Open → t.Open ∧ (f = .machine v none → e = .failed f)) :
    Raises v (handling a handler s) := by
  unfold Session.handling
  cases hr : a s with
  | ok x t =>
      rw [hr] at h
      exact h
  | error e t =>
      rw [hr] at h
      cases e with
      | exhausted => exact h
      | failed f =>
          refine (hh f t).mono (fun _ _ hfalse => hfalse) fun e u hu hopen => ?_
          obtain ⟨ht, hsame⟩ := hu hopen
          have hf : f = .machine v none := Stop.failed.inj (h ht)
          rw [hsame hf, hf]

/-- A cleanup that works as long as no machine is closed. -/
theorem ensuring {cleanup : Action Unit} (h : Raises v (a s))
    (hc : (final (cleanup (final (a s)))).Open →
      (final (a s)).Open ∧ ∃ u, cleanup (final (a s)) = .ok () u) :
    Raises v (ensuring a cleanup s) := by
  unfold Session.ensuring
  cases hr : a s with
  | ok x t =>
      rw [hr] at h
      exact h.elim
  | error e t =>
      rw [hr] at h hc
      dsimp only [final] at hc ⊢
      cases hr' : cleanup t with
      | ok _ u =>
          rw [hr'] at hc
          exact fun hopen => h (hc hopen).1
      | error e' u =>
          rw [hr'] at hc
          intro hopen
          obtain ⟨_, u', hu'⟩ := hc hopen
          cases hu'

theorem onStop {cleanup : Action Unit} (h : Raises v (a s))
    (hc : (final (cleanup (final (a s)))).Open →
      (final (a s)).Open ∧ ∃ u, cleanup (final (a s)) = .ok () u) :
    Raises v (onStop a cleanup s) := by
  have hensured := h.ensuring hc
  unfold Session.onStop
  unfold Session.ensuring at hensured
  cases hr : a s with
  | ok x t =>
      rw [hr] at h
      exact h.elim
  | error e t =>
      rw [hr] at hensured
      exact hensured

/-- A restoring block drops what it has pushed and lets the error pass. -/
theorem restoringTop (hs : s.Framed) (ha : Keeps Confined a) (h : Raises v (a s)) :
    Raises v (restoringTop k a s) := by
  unfold Bridge.restoringTop
  cases hf : (s.machine k).frames with
  | nil =>
      have htop : getTop k s = .error (.failed (.host .noFrame)) (s.withVm k (s.vm k)) :=
        onMachine_error (bind_error (Vm.base_none hf))
      rw [bind_error htop, withVm_vm]
      exact fun hopen => absurd hf (hs k (hopen k)).1
  | cons b fs =>
      rw [bind_ok (getTop_eq hf)]
      refine h.onStop fun hopen => ?_
      have hback := ((Law.holds_droppingAbove (L := keeping Confined Confined) trivial
        _).keeps (final (a s))).opened hopen
      have hframed := (ha s).framed hs k (hback k)
      have hbase : b ≤ (s.machine k).slots.length := by
        have hle := (hs k ((ha s).opened hback k)).base_le
        rw [show (s.machine k).baseOf = b by unfold Machine.baseOf; rw [hf]; rfl] at hle
        exact hle
      exact ⟨hback, droppingAbove_ok (hback k) hframed (by omega)⟩

end Raises

-- ================================================================ unwinding

/-- What an error can be raised inside of: an operation on the current machine,
a block, or a call on a machine of the function below some arguments. -/
inductive Activity where
  | op (o : Op)
  | block (b : BlockId)
  | call (k : MachineId) (args : Int)

/-- What a function of the host comes to before its body runs: its arguments are
read and its entry is reported. -/
def arriving (ctx : Context) (fuel : Nat) (k : MachineId) (name : String) (spec : FunctionSpec)
    (signature : Signature) : Action (List HostValue) := do
  let depth ← getTop k
  let args ← readArguments (fun t i =>
    readValue ctx (runBlock ctx fuel) fuel k (.badArgument i (some name)) i t)
    k depth 1 signature.params
  report (.entry spec.name (← args.mapM view))
  return args

/-- An activity raises a value, at whatever depth: what runs before comes to
the operation that raises it, with calls of machine functions, of host
functions and of bound functions in between. -/
inductive Unwinds (ctx : Context) (v : Value) : Nat → Activity → Session → Prop where
  /-- The topmost value of the frame is raised. -/
  | error {fuel : Nat} {s : Session}
      (top : (s.machine s.current).frameSlots.getLast? = some v) : Unwinds ctx v fuel (.op .error) s
  /-- A message is raised. -/
  | raiseError {fuel : Nat} {s : Session} {message : String} (text : v = .str (utf8 message)) :
      Unwinds ctx v fuel (.op (.raiseError message)) s
  /-- An operation stops with the value of its own account, as a read does that
  finds a slot of another category. -/
  | raised {fuel : Nat} {s t : Session} {o : Op}
      (own : perform ctx (runBlock ctx fuel) fuel s.current o s
        = .error (.failed (.machine v none)) t) : Unwinds ctx v fuel (.op o) s
  /-- What is called is no function. -/
  | uncallable {fuel : Nat} {s : Session} {k : MachineId} {args : Int} {position : Nat}
      {w : Value} {c : Category}
      (place : (position : Int) = (s.machine k).slots.length - args - 1)
      (inside : (s.machine k).baseOf ≤ position)
      (slot : (s.machine k).slots[position]? = some w) (category : w.category? = some c)
      (nofunction : c ≠ .function)
      (text : v = .str (utf8 ("attempt to call a " ++ c.label ++ " value"))) :
      Unwinds ctx v fuel (.call k args) s
  /-- An operation of a block, after the ones before it. -/
  | block {fuel : Nat} {s t : Session} {b : BlockId} {before after : List Op} {o : Op}
      (ops : ctx.program.block b = before ++ o :: after)
      (reached : steps ctx (runBlock ctx fuel) fuel before s = .ok () t)
      (inner : Unwinds ctx v fuel (.op o) t) : Unwinds ctx v (fuel + 1) (.block b) s
  /-- A call. -/
  | called {fuel : Nat} {s : Session} {args wanted : Int}
      (inner : Unwinds ctx v fuel (.call s.current args) s) :
      Unwinds ctx v fuel (.op (.call args wanted)) s
  /-- A function of the machine, in a frame of its own. -/
  | frame {fuel : Nat} {s : Session} {k : MachineId} {args : Int} {position : Nat}
      {name : Option String} {b : BlockId} {results : Option Int}
      (place : (position : Int) = (s.machine k).slots.length - args - 1)
      (inside : (s.machine k).baseOf ≤ position)
      (function : functionAt? s k position = some ⟨name, .block b results⟩)
      (inner : Unwinds ctx v fuel (.block b) { entering k (position + 1) s with current := k }) :
      Unwinds ctx v fuel (.call k args) s
  /-- A function of the host, which runs a block of its own. -/
  | trampoline {fuel : Nat} {s t : Session} {k : MachineId} {args : Int} {position : Nat}
      {name : Option String} {n : Nat} {spec : FunctionSpec} {defaults values : List HostValue}
      {signature : Signature} {b : BlockId}
      (place : (position : Int) = (s.machine k).slots.length - args - 1)
      (inside : (s.machine k).baseOf ≤ position)
      (function : functionAt? s k position
        = some ⟨name, .host (.function n spec defaults) signature⟩)
      (reached : arriving ctx fuel k (name.getD "") spec signature (entering k (position + 1) s)
        = .ok values t)
      (taken : spec.takes (spec.completeArguments defaults values).length = true)
      (body : (ctx.program.body spec.body).block = some b)
      (inner : Unwinds ctx v fuel (.block b) t) : Unwinds ctx v fuel (.call k args) s
  /-- A bound function, on the machine that it belongs to. -/
  | bound {fuel : Nat} {s t u : Session} {name : String} {args : List Expr}
      {store : Option String} {id : Nat} {params : Option (List TypeExpr)} {returns : TypeExpr}
      {values : List HostValue}
      (stored : s.stored? name = some (.bound id params returns))
      (evaluated : evalList ctx args s = .ok values t)
      (count : ∀ ts, params = some ts → values.length = ts.length)
      (pushed : (do
        pushWrapped id
        pushArguments ctx (t.wrapper id).machine values (params.getD [])) t = .ok () u)
      (inner : Unwinds ctx v fuel (.call (t.wrapper id).machine values.length) u) :
      Unwinds ctx v fuel (.op (.boundCall name args store)) s

/-- An activity stops with a machine error, or a machine has been closed. -/
def Activity.Raises (ctx : Context) (v : Value) (fuel : Nat) : Activity → Session → Prop
  | .op o, s => Session.Raises v (step ctx (runBlock ctx fuel) fuel o s)
  | .block b, s => Session.Raises v (runBlock ctx fuel b s)
  | .call k args, s =>
      ∀ wanted, Session.Raises v (Bridge.call ctx (runBlock ctx fuel) fuel k args wanted s)

-- ------------------------------------------------------------ on the way out

section

variable {fuel : Nat} {v : Value}

/-- Reporting a failure lets it pass. -/
theorem raises_step {o : Op}
    (h : Raises v (perform ctx (runBlock ctx fuel) fuel s.current o s)) :
    Raises v (step ctx (runBlock ctx fuel) fuel o s) := by
  unfold step
  rw [bind_ok (get_apply s)]
  refine Raises.bind (Raises.handling h.bind fun f t => ?_)
  exact fun hopen => ⟨hopen, fun _ => rfl⟩

/-- An error ends a block. -/
theorem raises_steps {before after : List Op} {o : Op}
    (hreached : steps ctx (runBlock ctx fuel) fuel before s = .ok () t)
    (h : Raises v (step ctx (runBlock ctx fuel) fuel o t)) :
    Raises v (steps ctx (runBlock ctx fuel) fuel (before ++ o :: after) s) := by
  induction before generalizing s with
  | nil =>
      cases hreached
      exact h.bind
  | cons op before ih =>
      rw [List.cons_append]
      unfold steps at hreached ⊢
      rw [bind_apply] at hreached ⊢
      cases hr : step ctx (runBlock ctx fuel) fuel op s with
      | error e u =>
          rw [hr] at hreached
          cases hreached
      | ok x u =>
          rw [hr] at hreached
          exact ih hreached

theorem functionAt?_some {position : Nat} {f : FunctionObject}
    (h : functionAt? s k position = some f) :
    ∃ id, (s.machine k).slots[position]? = some (.function id)
      ∧ f = (s.heap.function? id).getD default := by
  unfold functionAt? at h
  split at h
  case h_1 id hslot =>
    cases h
    exact ⟨id, hslot, rfl⟩
  case h_2 => cases h

/-- Nothing is called where no frame is running. -/
theorem call_unframed {args wanted : Int} (hframes : (s.machine k).frames = [])
    (run : BlockId → Action Unit) : ∃ e, call ctx run fuel k args wanted s = .error e s := by
  have hcallee : ∃ f, Vm.calleePosition args (s.vm k) = .error f (s.vm k) := by
    unfold Vm.calleePosition
    split
    · exact ⟨_, rfl⟩
    · exact ⟨_, bind_error (Vm.base_none hframes)⟩
  obtain ⟨f, hf⟩ := hcallee
  refine ⟨.failed f, ?_⟩
  unfold call
  rw [bind_error (onMachine_error hf), withVm_vm]

/-- A machine without a frame has been closed. -/
theorem raises_unframed {args wanted : Int} (hs : s.Framed) (hframes : (s.machine k).frames = []) :
    Raises v (call ctx (runBlock ctx fuel) fuel k args wanted s) := by
  obtain ⟨e, he⟩ : ∃ e, call ctx (runBlock ctx fuel) fuel k args wanted s = .error e s :=
    call_unframed hframes _
  rw [he]
  exact fun hopen => absurd hframes (hs k (hopen k)).1

/-- What is below some arguments in the running frame is what a call finds. -/
theorem calleePosition_eq {args : Int} {position : Nat} {b : Nat} {fs : List Nat}
    (hframes : (s.machine k).frames = b :: fs)
    (hposition : (position : Int) = (s.machine k).slots.length - args - 1)
    (hbase : (s.machine k).baseOf ≤ position)
    (hlt : position < (s.machine k).slots.length) :
    Vm.calleePosition args (s.vm k) = .ok position (s.vm k) := by
  have hbase' : b ≤ position := by
    have hb : (s.vm k).machine.baseOf = b := Vm.baseOf_eq hframes
    rw [← hb]
    exact hbase
  have hlen : ((s.vm k).machine.slots.length : Int) = (s.machine k).slots.length := rfl
  unfold Vm.calleePosition
  rw [if_neg (by omega), bind_ok (Vm.base_eq hframes)]
  simp only [Vm.getMachine, bind_apply, get_apply, pure_apply]
  rw [hlen, ← hposition, if_neg (by omega)]
  rfl

/-- What there is in a slot is not made up. -/
theorem getD_slot {position : Nat} {w : Value} (h : (s.machine k).slots[position]? = some w) :
    (s.vm k).machine.slots[position]?.getD .nil = w := by
  show (s.machine k).slots[position]?.getD .nil = w
  rw [h]
  rfl

/-- A call of a function in the running frame runs it in a frame of its own. -/
theorem call_eq {args wanted : Int} {position : Nat} {f : FunctionObject} {b : Nat}
    {fs : List Nat} (hframes : (s.machine k).frames = b :: fs)
    (hposition : (position : Int) = (s.machine k).slots.length - args - 1)
    (hbase : (s.machine k).baseOf ≤ position) (hf : functionAt? s k position = some f)
    (run : BlockId → Action Unit) :
    call ctx run fuel k args wanted s
      = returning k position wanted (callee ctx fuel k f run) (entering k (position + 1) s) := by
  obtain ⟨id, hslot, rfl⟩ := functionAt?_some hf
  have hcallee := calleePosition_eq hframes hposition hbase
    (List.getElem?_eq_some_iff.mp hslot).1
  have hsame := getD_slot hslot
  unfold call
  rw [bind_ok (onMachine_look hcallee), bind_ok (get_apply s)]
  simp only [hsame]
  rfl

/-- A call of anything else raises a message that names what it is. -/
theorem call_uncallable {args wanted : Int} {position : Nat} {w : Value} {c : Category}
    {b : Nat} {fs : List Nat} (hframes : (s.machine k).frames = b :: fs)
    (hposition : (position : Int) = (s.machine k).slots.length - args - 1)
    (hbase : (s.machine k).baseOf ≤ position)
    (hslot : (s.machine k).slots[position]? = some w) (hc : w.category? = some c)
    (hnofunction : c ≠ .function) (run : BlockId → Action Unit) :
    call ctx run fuel k args wanted s
      = .error (.failed (.machine (.str (utf8 ("attempt to call a " ++ c.label ++ " value"))) none))
          s := by
  have hcallee := calleePosition_eq hframes hposition hbase
    (List.getElem?_eq_some_iff.mp hslot).1
  have hsame := getD_slot hslot
  have hraise : (do
      Vm.raiseText ("attempt to call a " ++ (← Vm.categoryOf w).label ++ " value") :
        Vm.Action Unit) (s.vm k)
      = .error (.machine (.str (utf8 ("attempt to call a " ++ c.label ++ " value"))) none)
          (s.vm k) :=
    bind_ok (Vm.categoryOf_eq hc _)
  have hrest := onMachine_error hraise
  rw [withVm_vm] at hrest
  unfold call
  rw [bind_ok (onMachine_look hcallee), bind_ok (get_apply s)]
  cases w with
  | function id =>
      cases hc
      exact absurd rfl hnofunction
  | _ =>
      simp only [hsame]
      exact hrest

/-- Leaving a frame closes nothing. -/
theorem leaveFrame_opened (h : (final (onMachine k Vm.leaveFrame s)).Open) : s.Open := by
  cases hr : onMachine k Vm.leaveFrame s with
  | error e u =>
      cases hf : (s.machine k).frames with
      | nil =>
          rw [onMachine_error (leaveFrame_none hf), withVm_vm] at h
          exact h
      | cons b fs =>
          rw [onMachine_ok (leaveFrame_eq hf)] at hr
          cases hr
  | ok x u =>
      rw [hr] at h
      intro j
      by_cases hjk : k = j
      · subst hjk
        exact (leaving_closed hr).symm.trans (h k)
      · have hj : final (onMachine k Vm.leaveFrame s) = u := by rw [hr]; rfl
        rw [onMachine_final] at hj
        have hopen := h j
        dsimp only [final] at hopen
        rw [← hj, withVm_machine_ne hjk] at hopen
        exact hopen

/-- Leaving the frame of a called function lets the error pass. -/
theorem raises_call {args wanted : Int} {position : Nat} {f : FunctionObject} (hs : s.Framed)
    (hposition : (position : Int) = (s.machine k).slots.length - args - 1)
    (hbase : (s.machine k).baseOf ≤ position) (hf : functionAt? s k position = some f)
    (h : (entering k (position + 1) s).Framed →
      Raises v (invoke ctx (runBlock ctx fuel) fuel k f (entering k (position + 1) s))) :
    Raises v (call ctx (runBlock ctx fuel) fuel k args wanted s) := by
  obtain ⟨id, hslot, _⟩ := functionAt?_some hf
  have hlt := (List.getElem?_eq_some_iff.mp hslot).1
  have hk := lt_size_of_slots hlt
  have hle := Nat.le_succ_of_le hbase
  have hentered := (entering_within hk hle hlt).framed hs
  cases hframes : (s.machine k).frames with
  | nil => exact raises_unframed hs hframes
  | cons b fs =>
      rw [call_eq hframes hposition hbase hf]
      have hbody := (@contained_callee ctx k fuel f).keeps_of_run (keeps_runBlock ctx fuel)
        (entering k (position + 1) s)
      refine Raises.bind (Raises.ensuring (Raises.bind (h hentered)) fun hopen => ?_)
      have hback := leaveFrame_opened hopen
      refine ⟨hback, ?_⟩
      obtain ⟨hne, _⟩ := hbody.framed hentered k (hback k)
      obtain ⟨b', fs', hfs⟩ := List.exists_cons_of_ne_nil hne
      exact ⟨_, onMachine_ok (leaveFrame_eq hfs)⟩

/-- A machine function goes back to the machine that was current before. -/
theorem raises_invoke_block {name : Option String} {b : BlockId} {results : Option Int}
    (h : Raises v (runBlock ctx fuel b { s with current := k })) :
    Raises v (invoke ctx (runBlock ctx fuel) fuel k ⟨name, .block b results⟩ s) := by
  unfold invoke
  refine Raises.bind ?_
  unfold withCurrent
  rw [bind_ok (get_apply s), bind_ok (modify_apply _ s)]
  exact Raises.ensuring h fun hopen => ⟨hopen.of_machines rfl, _, rfl⟩

/-- A function of the host that has come to its body. -/
theorem callThrough_arrived {name : String} {n : Nat} {spec : FunctionSpec}
    {defaults values : List HostValue} {signature : Signature} {b : BlockId}
    (hreached : arriving ctx fuel k name spec signature s = .ok values t)
    (htaken : spec.takes (spec.completeArguments defaults values).length = true)
    (hbody : (ctx.program.body spec.body).block = some b)
    (h : Raises v (runBlock ctx fuel b t)) :
    Raises v (callThrough ctx (runBlock ctx fuel) fuel k name (.function n spec defaults)
      signature s) := by
  unfold arriving at hreached
  obtain ⟨depth, s₁, htop, hreached⟩ := bind_answered hreached
  obtain ⟨args, s₂, hargs, hreached⟩ := bind_answered hreached
  obtain ⟨views, s₃, hviews, hreached⟩ := bind_answered hreached
  obtain ⟨_, s₄, hreport, hreached⟩ := bind_answered hreached
  cases hreached
  have hrun : Raises v (runBody ctx (runBlock ctx fuel) spec
      (spec.completeArguments defaults values) t) := by
    unfold runBody
    simp only [hbody]
    exact h.bind
  unfold callThrough
  rw [bind_ok htop, bind_ok hargs]
  refine Raises.bind ?_
  show Raises v (callFunction ctx (runBlock ctx fuel) spec defaults values s₂)
  unfold callFunction
  rw [bind_ok hviews, bind_ok hreport]
  simp only [htaken, Bool.not_true, Bool.false_eq_true, if_false]
  exact hrun

/-- The failure of a host function is not renamed if it is a machine error. -/
theorem raises_invoke_host {name : Option String} {n : Nat} {spec : FunctionSpec}
    {defaults values : List HostValue} {signature : Signature} {b : BlockId}
    (hreached : arriving ctx fuel k (name.getD "") spec signature s = .ok values t)
    (htaken : spec.takes (spec.completeArguments defaults values).length = true)
    (hbody : (ctx.program.body spec.body).block = some b)
    (h : Raises v (runBlock ctx fuel b t)) :
    Raises v (invoke ctx (runBlock ctx fuel) fuel k
      ⟨name, .host (.function n spec defaults) signature⟩ s) := by
  unfold invoke
  refine Raises.handling (callThrough_arrived hreached htaken hbody h) fun f t => ?_
  exact fun hopen => ⟨hopen, fun hf => by rw [hf]; rfl⟩

/-- A bound function drops what it has pushed. -/
theorem raises_callBound {id : Nat} {params : Option (List TypeExpr)} {returns : TypeExpr}
    {args : List HostValue} (hs : s.Framed)
    (hcount : ∀ ts, params = some ts → args.length = ts.length)
    (hpushed : (do
      pushWrapped id
      pushArguments ctx (s.wrapper id).machine args (params.getD [])) s = .ok () t)
    (h : ∀ wanted, Raises v
      (call ctx (runBlock ctx fuel) fuel (s.wrapper id).machine args.length wanted t)) :
    Raises v (callBound ctx (runBlock ctx fuel) fuel id params returns args s) := by
  have hcount' : ¬ (params.isSome && args.length != (params.getD []).length) = true := by
    cases params with
    | none => simp
    | some ts => simp [hcount ts rfl]
  obtain ⟨_, u, hu, hpushed⟩ := bind_answered hpushed
  unfold callBound
  rw [bind_ok (get_apply s)]
  simp only [if_neg hcount']
  have hbody := @holds_boundBody (keeping Within Confined) ctx (s.wrapper id).machine _ trivial
    fuel id params returns args
  refine Raises.restoringTop hs (Passes.keeps_of_run hbody (keeps_runBlock ctx fuel)) ?_
  · rw [bind_ok hu, bind_ok hpushed]
    exact (h _).bind

/-- A value on top of the running frame can be taken. -/
theorem take_top (h : (s.machine k).frameSlots.getLast? = some v) :
    ∃ vm, Vm.take (s.vm k) = .ok v vm := by
  unfold Machine.frameSlots at h
  cases hf : (s.machine k).frames with
  | nil =>
      rw [hf] at h
      cases h
  | cons b fs =>
      rw [hf, List.getLast?_drop] at h
      split at h
      · cases h
      · obtain ⟨l, hl⟩ := List.getLast?_eq_some_iff.mp h
        have hlen := congrArg List.length hl
        rw [List.length_append, List.length_singleton] at hlen
        have htake : Vm.take (s.vm k) = .ok v _ := Vm.take_eq hf hl (by omega)
        exact ⟨_, htake⟩

theorem keeps_arriving (fuel : Nat) (name : String) (spec : FunctionSpec) (signature : Signature) :
    Keeps Confined (arriving ctx fuel k name spec signature) := by
  refine Law.holds_getTop.keeps.bind fun depth => ?_
  have hread : Contained fun run => readArguments (fun t i =>
      readValue ctx run fuel k (.badArgument i (some name)) i t) k depth 1 signature.params :=
    holds_readArguments (fun t i => holds_readValue trivial fuel _ i t) depth 1 _
  refine (hread.keeps_of_run (keeps_runBlock ctx fuel)).bind fun args => ?_
  exact (holds_mapM holds_view args).keeps.bind fun views =>
    (holds_report _).keeps.bind fun _ => Keeps.pure _

theorem arriving_framed {name : String} {spec : FunctionSpec} {signature : Signature}
    {values : List HostValue} (h : arriving ctx fuel k name spec signature s = .ok values t)
    (hs : s.Framed) : t.Framed := by
  have hconf : Confined s (final (arriving ctx fuel k name spec signature s)) :=
    keeps_arriving fuel name spec signature s
  rw [h] at hconf
  exact hconf.framed hs

end

/-- Whatever lies between an activity and where it raises a value, the value is
what it stops with. -/
theorem Unwinds.raises {fuel : Nat} {v : Value} {a : Activity} (h : Unwinds ctx v fuel a s)
    (hs : s.Framed) : a.Raises ctx v fuel s := by
  induction h with
  | @error fuel s htop =>
      obtain ⟨vm, hvm⟩ := take_top htop
      refine raises_step ?_
      have hraise : (Vm.raiseTop : Vm.Action HostValue) (s.vm s.current)
          = .error (.machine v none) vm := by
        unfold Vm.raiseTop
        rw [bind_ok hvm]
        rfl
      show Raises v (onMachine s.current Vm.raiseTop s)
      rw [onMachine_error hraise]
      exact fun _ => rfl
  | @raiseError fuel s message htext =>
      rw [htext]
      exact raises_step fun _ => rfl
  | raised hown =>
      refine raises_step ?_
      rw [hown]
      exact fun _ => rfl
  | @uncallable fuel s k args position w c hplace hinside hslot hcategory hnofunction htext =>
      intro wanted
      cases hframes : (s.machine k).frames with
      | nil => exact raises_unframed hs hframes
      | cons b fs =>
          rw [call_uncallable hframes hplace hinside hslot hcategory hnofunction, htext]
          exact fun _ => rfl
  | @block fuel s t b before after o hops hreached _ ih =>
      show Raises v (runBlock ctx (fuel + 1) b s)
      unfold runBlock
      rw [hops]
      have hbefore : Contained fun run => steps ctx run fuel before :=
        holds_steps fun op _ _ _ => holds_perform trivial fuel op
      have hconf := hbefore.keeps_of_run (keeps_runBlock ctx fuel) s
      rw [hreached] at hconf
      exact raises_steps hreached (ih (hconf.framed hs))
  | @called fuel s args wanted _ ih => exact raises_step (ih hs wanted).bind
  | frame hplace hinside hfunction _ ih =>
      intro wanted
      refine raises_call hs hplace hinside hfunction fun hentered => ?_
      exact raises_invoke_block (ih hentered)
  | trampoline hplace hinside hfunction hreached htaken hbody _ ih =>
      intro wanted
      refine raises_call hs hplace hinside hfunction fun hentered => ?_
      exact raises_invoke_host hreached htaken hbody (ih (arriving_framed hreached hentered))
  | @bound fuel s t u name args store id params returns values hstored hevaluated hcount hpushed _
      ih =>
      have heval : Confined s (final (evalList ctx args s)) :=
        (holds_evalList args).keeps s
      rw [hevaluated] at heval
      have ht := heval.framed hs
      have hpush : Keeps Confined (do
          pushWrapped id
          pushArguments ctx (t.wrapper id).machine values (params.getD [])) :=
        (holds_pushWrapped id).keeps.bind fun _ => (holds_pushArguments trivial values _).keeps
      have hpush := hpush t
      rw [hpushed] at hpush
      have hvalue : Session.stored name s = .ok (.bound id params returns) s := by
        unfold Session.stored
        rw [bind_ok (get_apply s), hstored]
        rfl
      refine raises_step (Raises.bind ?_)
      rw [bind_ok hvalue, bind_ok hevaluated]
      exact raises_callBound ht hcount hpushed (ih (hpush.framed ht))

-- ============================================================ protected calls

/-- Where nothing can be called the stack has been misused, or there is no frame. -/
theorem calleePosition_fails {args : Int} {vm vm' : Vm} {f : Failure}
    (h : Vm.calleePosition args vm = .error f vm') :
    f = .misuse .notEnough ∨ f = .host .noFrame := by
  unfold Vm.calleePosition at h
  split at h
  · cases h
    exact Or.inl rfl
  · cases hf : vm.machine.frames with
    | nil =>
        rw [bind_error (Vm.base_none hf)] at h
        cases h
        exact Or.inr rfl
    | cons b fs =>
        rw [bind_ok (Vm.base_eq hf)] at h
        simp only [Vm.getMachine, bind_apply, get_apply, pure_apply] at h
        split at h
        · cases h
          exact Or.inl rfl
        · cases h

/-- A machine error that leaves a call has found something to call in the
running frame. -/
theorem call_raised {run : BlockId → Action Unit} {fuel : Nat} {args wanted : Int} {v : Value}
    {cause : Option ErrorKind}
    (h : call ctx run fuel k args wanted s = .error (.failed (.machine v cause)) t) :
    ∃ position : Nat, (position : Int) = (s.machine k).slots.length - args - 1
      ∧ position < (s.machine k).slots.length ∧ (s.machine k).baseOf ≤ position := by
  cases hp : Vm.calleePosition args (s.vm k) with
  | ok position vm => exact ⟨position, calleePosition_spec hp⟩
  | error f vm =>
      unfold call at h
      rw [bind_error (onMachine_error hp)] at h
      rcases calleePosition_fails hp with rfl | rfl <;> cases h

/-- Putting a value at a position of the running frame, with no frame above it
to go back from. -/
theorem recover_eq {vm : Vm} {position : Nat} (hm : vm.machine.Framed)
    (hbase : vm.machine.baseOf ≤ position) (v : Value) :
    Vm.recover vm.machine.frames.length position v vm
      = .ok () (vm.withSlots (vm.machine.slots.take position ++ [v])) := by
  obtain ⟨fs, hf⟩ := hm.frames_eq
  obtain ⟨cut, hcut, h⟩ := recover_cases vm.machine.frames.length position v vm
  obtain rfl : cut = vm := by rw [hcut, Nat.sub_self, List.drop_zero]
  rcases h with ⟨hnone, _⟩ | ⟨b, fs', hf', heq⟩
  · cases hnone.symm.trans hf
  · cases hf'.symm.trans hf
    rw [heq, show (max (position : Int) (cut.machine.baseOf : Int)).toNat = position by omega]

/-- A protected call that a machine error has ended: it answers so, the value
stands where the function stood, and the frames are those from before it. -/
def Caught (ctx : Context) (fuel : Nat) (k : MachineId) (args wanted : Int) (position : Nat)
    (v : Value) (s : Session) : Prop :=
  ∃ t, protectedCall ctx (runBlock ctx fuel) fuel k args wanted s = .ok statusError t
    ∧ (t.machine k).slots = (s.machine k).slots.take position ++ [v]
    ∧ (t.machine k).frames = (s.machine k).frames

/-- A machine error that leaves a call is caught by a protected one. -/
theorem caught {fuel : Nat} {args wanted : Int} {position : Nat} {v : Value}
    {cause : Option ErrorKind} (hs : s.Framed)
    (hposition : position = ((s.machine k).slots.length - args - 1 : Int).toNat)
    (h : call ctx (runBlock ctx fuel) fuel k args wanted s = .error (.failed (.machine v cause)) t)
    (hc : (t.machine k).closed = false) : Caught ctx fuel k args wanted position v s := by
  obtain ⟨p, hp, hlt, hbase⟩ := call_raised h
  obtain rfl : p = position := by omega
  have hreturned : Returned k p s t := by
    have hcall : Returned k p s (final (call ctx (runBlock ctx fuel) fuel k args wanted s)) :=
      call_returned (keeps_runBlock ctx fuel) fuel args wanted hposition
    rw [h] at hcall
    exact hcall
  have hm := hs k ((hreturned.confined.machine k).opened hc)
  have hframes := (hreturned.confined.machine k).frames hc hm
  have hframed := (hreturned.confined.machine k).framed hc hm
  have hk : k < t.machines.size := by
    rw [hreturned.confined.size]
    exact lt_size_of_slots hlt
  have hbase' : (t.machine k).baseOf ≤ p := by
    unfold Machine.baseOf at hbase ⊢
    rw [hframes]
    exact hbase
  have hrecover : Vm.recover _ _ v (t.vm k) = _ := recover_eq hframed hbase' v
  refine ⟨t.withSlots k ((t.machine k).slots.take p ++ [v]), ?_, ?_, ?_⟩
  · unfold protectedCall
    rw [bind_ok (get_apply s)]
    unfold handling
    rw [bind_error h]
    dsimp only
    have hsame : Vm.recover (s.machine k).frames.length ((s.machine k).slots.length - args - 1) v
        (t.vm k) = .ok () ((t.vm k).withSlots ((t.machine k).slots.take p ++ [v])) := by
      rw [← hp, ← hframes]
      exact hrecover
    rw [bind_ok (onMachine_ok hsame)]
    rfl
  · rw [withSlots_machine hk]
    show (t.machine k).slots.take p ++ [v] = _
    rw [hreturned.below hc hm]
  · rw [withSlots_machine hk]
    exact hframes

/-- The law of protected calls. Where the call would return, the protected one
says so and leaves exactly the same state. Where a machine error leaves the
call, it says that, and the stack is what was below the function and then the
value of the error. That value is the one that was raised, wherever inside
the call that happened. -/
theorem protectedCall_law (hs : s.Framed) (fuel : Nat) (args wanted : Int) {position : Nat}
    (hposition : position = ((s.machine k).slots.length - args - 1 : Int).toNat) :
    (∀ t, call ctx (runBlock ctx fuel) fuel k args wanted s = .ok () t →
        protectedCall ctx (runBlock ctx fuel) fuel k args wanted s = .ok statusOk t)
      ∧ (∀ v cause t,
        call ctx (runBlock ctx fuel) fuel k args wanted s = .error (.failed (.machine v cause)) t →
          (t.machine k).closed = false → Caught ctx fuel k args wanted position v s)
      ∧ ∀ v, Unwinds ctx v fuel (.call k args) s →
        (final (call ctx (runBlock ctx fuel) fuel k args wanted s)).Open →
          (∃ t, call ctx (runBlock ctx fuel) fuel k args wanted s
            = .error (.failed (.machine v none)) t)
          ∧ Caught ctx fuel k args wanted position v s := by
  refine ⟨fun t ht => ?_, fun v cause t ht hc => caught hs hposition ht hc, fun v hv hopen => ?_⟩
  · unfold protectedCall
    rw [bind_ok (get_apply s)]
    unfold handling
    rw [bind_ok ht]
    rfl
  · have hraises := hv.raises hs wanted
    cases hr : call ctx (runBlock ctx fuel) fuel k args wanted s with
    | ok x t =>
        rw [hr] at hraises
        exact hraises.elim
    | error e t =>
        rw [hr] at hraises hopen
        obtain rfl := hraises hopen
        exact ⟨⟨t, rfl⟩, caught hs hposition hr (hopen k)⟩

-- ------------------------------------------------------- an error from inside

theorem answered_final {r : EStateM.Result Stop Session Unit}
    (h : Ends r (fun _ _ => True) fun _ _ => False) : r = .ok () (final r) := by
  cases r with
  | ok x t => rfl
  | error e t => exact h.elim

theorem answered_nil {r : EStateM.Result Stop Session (List α)}
    (h : Ends r (fun xs _ => xs.isEmpty = true) fun _ _ => False) : r = .ok [] (final r) := by
  cases r with
  | ok xs t =>
      rw [List.isEmpty_iff.mp h]
      rfl
  | error e t => exact h.elim

theorem exists_block {f : Option FunctionObject} {b : BlockId}
    (h : (match f with
      | some ⟨_, .block b' _⟩ => b' == b
      | _ => false) = true) : ∃ name results, f = some ⟨name, .block b results⟩ := by
  split at h
  · obtain rfl := eq_of_beq h
    exact ⟨_, _, rfl⟩
  · cases h

theorem exists_host {f : Option FunctionObject}
    (h : (match f with
      | some ⟨some "g", .host (.function _ ⟨"g", [], none, false, 0⟩ []) ⟨[], .any⟩⟩ => true
      | _ => false) = true) :
    ∃ n, f = some ⟨some "g", .host (.function n ⟨"g", [], none, false, 0⟩ []) ⟨[], .any⟩⟩ := by
  split at h
  · exact ⟨_, rfl⟩
  · cases h

theorem bound_of {v : Option HostValue} {id : Nat}
    (h : (match v with
      | some (.bound id' none .any) => id' == id
      | _ => false) = true) : v = some (.bound id none .any) := by
  split at h
  · obtain rfl := eq_of_beq h
    rfl
  · cases h

theorem open_of_all (h : (s.machines.all fun m => !m.closed) = true) : s.Open := by
  intro j
  unfold Session.machine
  rw [Array.getD_eq_getD_getElem?]
  cases hj : s.machines[j]? with
  | none => rfl
  | some m =>
      obtain ⟨hlt, rfl⟩ := Array.getElem?_eq_some_iff.mp hj
      have hall := Array.all_eq_true.mp h j hlt
      simpa using hall

/-- A function of the machine calls one of the host, that one calls a bound
function, and the function under that one raises nil; the protected call below
all of them leaves it in the place of the first. -/
theorem protectedCall_law_nested :
    ∃ ctx s, Framed s ∧ 1 = ((s.machine 0).slots.length - 0 - 1 : Int).toNat
      ∧ Unwinds ctx .nil 9 (.call 0 0) s
      ∧ (final (call ctx (runBlock ctx 9) 9 0 0 1 s)).Open
      ∧ Caught ctx 9 0 0 1 1 .nil s := by
  let spec : FunctionSpec := ⟨"g", [], none, false, 0⟩
  let ctx : Context := ⟨[], ⟨[], 1, false,
    #[[], [.push (.function spec []) .none, .call 0 0],
      [.boundCall "f" [] none], [.pushNil, .error]], #[⟨some 2, .value (.value .none)⟩], 0⟩⟩
  let s : Session := final (steps ctx (runBlock ctx 9) 9
    [.pushFunction (some "f") 3 none, .boundNew (-1) none .any "f",
      .pushFunction (some "h") 1 none] (Session.start 1 false))
  have hsteps : ∀ ops, Contained fun run => steps ctx run 9 ops := fun ops =>
    holds_steps fun op _ _ _ => holds_perform trivial 9 op
  have hs : s.Framed := ((hsteps _).keeps_of_run (keeps_runBlock ctx 9) _).framed
    fun j _ => start_framed 1 false j
  -- the outermost function comes to its call
  obtain ⟨name, results, houter⟩ : ∃ name results,
      functionAt? s 0 1 = some ⟨name, .block 1 results⟩ := exists_block (by decide +kernel)
  let s₁ : Session := { entering 0 2 s with current := 0 }
  let s₂ : Session := final (steps ctx (runBlock ctx 8) 8 [.push (.function spec []) .none] s₁)
  have h₂ : steps ctx (runBlock ctx 8) 8 [.push (.function spec []) .none] s₁ = .ok () s₂ :=
    answered_final (by decide +kernel)
  -- the host function comes to its body
  have hhost : ∃ n, functionAt? s₂ 0 2
      = some ⟨some "g", .host (.function n spec []) ⟨[], .any⟩⟩ := exists_host (by decide +kernel)
  obtain ⟨n, hhost⟩ := hhost
  let s₃ : Session := final (arriving ctx 8 0 "g" spec ⟨[], .any⟩ (entering 0 3 s₂))
  have h₃ : arriving ctx 8 0 "g" spec ⟨[], .any⟩ (entering 0 3 s₂) = .ok [] s₃ :=
    answered_nil (by decide +kernel)
  -- the bound function comes to its call
  have hbound : s₃.stored? "f" = some (.bound 0 none .any) := bound_of (by decide +kernel)
  let m : MachineId := (s₃.wrapper 0).machine
  let s₄ : Session := final ((do
    pushWrapped 0
    pushArguments ctx m [] []) s₃)
  have h₄ : (do
      pushWrapped 0
      pushArguments ctx m [] []) s₃ = .ok () s₄ := answered_final (by decide +kernel)
  -- the innermost function comes to what raises
  obtain ⟨name', results', hinner⟩ : ∃ name results,
      functionAt? s₄ m 3 = some ⟨name, .block 3 results⟩ := exists_block (by decide +kernel)
  let s₅ : Session := { entering m 4 s₄ with current := m }
  let s₆ : Session := final (steps ctx (runBlock ctx 6) 6 [.pushNil] s₅)
  have h₆ : steps ctx (runBlock ctx 6) 6 [.pushNil] s₅ = .ok () s₆ :=
    answered_final (by decide +kernel)
  have herror : Unwinds ctx .nil 6 (.op .error) s₆ := .error (by decide +kernel)
  have hinnerBlock : Unwinds ctx .nil 7 (.block 3) s₅ := Unwinds.block rfl h₆ herror
  have hinnerPlace : ((3 : Nat) : Int) = (s₄.machine m).slots.length - 0 - 1 := by decide +kernel
  have hinnermost : Unwinds ctx .nil 7 (.call m 0) s₄ :=
    Unwinds.frame hinnerPlace (by decide +kernel) hinner hinnerBlock
  have hnothing : steps ctx (runBlock ctx 7) 7 [] s₃ = .ok () s₃ := rfl
  have hbody : Unwinds ctx .nil 8 (.block 2) s₃ :=
    Unwinds.block rfl hnothing
      (Unwinds.bound hbound rfl (fun _ hts => by cases hts) h₄ hinnermost)
  have hhostcall : Unwinds ctx .nil 8 (.call 0 0) s₂ :=
    Unwinds.trampoline (by decide +kernel) (by decide +kernel) hhost h₃ rfl rfl hbody
  have hcurrent : s₂.current = 0 := by decide +kernel
  have hcalled : Unwinds ctx .nil 8 (.op (.call 0 0)) s₂ :=
    Unwinds.called (by rw [hcurrent]; exact hhostcall)
  have hcall : Unwinds ctx .nil 9 (.call 0 0) s :=
    Unwinds.frame (by decide +kernel) (by decide +kernel) houter
      (Unwinds.block rfl h₂ hcalled)
  have hopen : (final (call ctx (runBlock ctx 9) 9 0 0 1 s)).Open :=
    open_of_all (by decide +kernel)
  have hposition : 1 = ((s.machine 0).slots.length - 0 - 1 : Int).toNat := by decide +kernel
  obtain ⟨_, _, hlaw⟩ := protectedCall_law hs 9 0 1 hposition
  exact ⟨ctx, s, hs, hposition, hcall, hopen, (hlaw .nil hcall hopen).2⟩

end Session

end StackBridge
