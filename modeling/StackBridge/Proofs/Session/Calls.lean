import StackBridge.Bridge.Call
import StackBridge.Proofs.Session.Answered
import StackBridge.Proofs.Session.Reads

/-!
Laws hold of calls where they hold of what runs in the frame of the called
function. A call begins a frame, lets the function run in it, leaves it and puts
the results where the function was; a protected call goes back to the frames
from before when a machine error ends it. What laws make of frames is asked of
them as a whole (`Law.Calls`).
-/

namespace StackBridge

namespace Session

open Bridge Law

variable {L : Law} {ctx : Context} {k : MachineId} {α β : Type}

-- ==================================================================== calls

/-- A session in which a frame has begun on a machine. -/
def entering (k : MachineId) (base : Nat) (s : Session) : Session :=
  s.withVm k { s.vm k with machine := { s.machine k with frames := base :: (s.machine k).frames } }

/-- What runs in the frame of a called function, and answers its results. -/
def callee (ctx : Context) (fuel : Nat) (k : MachineId) (f : FunctionObject)
    (run : BlockId → Action Unit) : Action (List Value) := do
  let count ← invoke ctx run fuel k f
  onMachine k (Vm.results count)

/-- Leaves the frame when a function has run, and puts its results where the
function was. -/
def returning (k : MachineId) (position : Nat) (wanted : Int) (body : Action (List Value)) :
    Action Unit := do
  let values ← ensuring body (onMachine k Vm.leaveFrame)
  onMachine k (Vm.replaceFrom position (Vm.adjustResults wanted values))

theorem leaveFrame_eq {vm : Vm} {b : Nat} {fs : List Nat} (hf : vm.machine.frames = b :: fs) :
    Vm.leaveFrame vm = .ok () { vm with machine := { vm.machine with frames := fs } } := by
  unfold Vm.leaveFrame
  simp only [Vm.getMachine, bind_apply, get_apply, pure_apply, hf]
  rfl

theorem leaveFrame_none {vm : Vm} (hf : vm.machine.frames = []) :
    Vm.leaveFrame vm = .error (.host .noFrameToLeave) vm := by
  unfold Vm.leaveFrame
  simp only [Vm.getMachine, bind_apply, get_apply, pure_apply, hf]
  rfl

/-- The position of the function below some arguments is one in the frame. -/
theorem calleePosition_spec {vm vm' : Vm} {args : Int} {position : Nat}
    (h : Vm.calleePosition args vm = .ok position vm') :
    (position : Int) = vm.machine.slots.length - args - 1 ∧ position < vm.machine.slots.length
      ∧ vm.machine.baseOf ≤ position := by
  unfold Vm.calleePosition at h
  split at h
  · cases h
  · cases hf : vm.machine.frames with
    | nil =>
        rw [bind_error (Vm.base_none hf)] at h
        cases h
    | cons b fs =>
        rw [bind_ok (Vm.base_eq hf)] at h
        simp only [Vm.getMachine, bind_apply, get_apply, pure_apply] at h
        rw [Vm.baseOf_eq hf]
        split at h
        · cases h
        · cases h
          omega

/-- What is no function cannot be called. -/
theorem raiseCategory_fails (v : Value) (vm : Vm) :
    ∃ f, (do Vm.raiseText ("attempt to call a " ++ (← Vm.categoryOf v).label ++ " value") :
      Vm.Action Unit) vm = .error f vm := by
  cases hc : v.category? with
  | none => exact ⟨_, bind_error (Vm.categoryOf_stray hc vm)⟩
  | some c => exact ⟨_, bind_ok (Vm.categoryOf_eq hc vm)⟩

/-- The function that is called, if a slot holds one. -/
def functionAt? (s : Session) (k : MachineId) (position : Nat) : Option FunctionObject :=
  match (s.machine k).slots[position]? with
  | some (.function id) => some ((s.heap.function? id).getD default)
  | _ => none

/-- A call fails at once and changes nothing, or it runs a function in a frame
right above that function, whatever runs the blocks. -/
theorem call_cases (ctx : Context) (fuel : Nat) (k : MachineId) (args wanted : Int) (s : Session) :
    (∃ e, ∀ run, call ctx run fuel k args wanted s = .error e s)
      ∨ ∃ (position : Nat) (f : FunctionObject),
          (position : Int) = (s.machine k).slots.length - args - 1
          ∧ position < (s.machine k).slots.length ∧ (s.machine k).baseOf ≤ position
          ∧ functionAt? s k position = some f
          ∧ ∀ run, call ctx run fuel k args wanted s
              = returning k position wanted (callee ctx fuel k f run)
                  (entering k (position + 1) s) := by
  have hlook := (Vm.looks_calleePosition args).ends (s.vm k)
  cases hp : Vm.calleePosition args (s.vm k) with
  | error f vm =>
      rw [hp] at hlook
      obtain rfl : vm = s.vm k := hlook
      refine Or.inl ⟨.failed f, fun run => ?_⟩
      unfold call
      rw [bind_error (onMachine_error hp), withVm_vm]
  | ok position vm =>
      rw [hp] at hlook
      obtain rfl : vm = s.vm k := hlook
      obtain ⟨heq, hlt, hbase⟩ := calleePosition_spec hp
      have hrefused : ∀ v : Value, ∃ e, onMachine k (do
          Vm.raiseText ("attempt to call a " ++ (← Vm.categoryOf v).label ++ " value") :
            Vm.Action Unit) s = .error e s := by
        intro v
        obtain ⟨f, hf⟩ := raiseCategory_fails v (s.vm k)
        exact ⟨.failed f, by rw [onMachine_error hf, withVm_vm]⟩
      have hsome : (s.machine k).slots[position]?
          = some ((s.machine k).slots[position]?.getD .nil) := by
        have hget : (s.machine k).slots[position]? = some (s.machine k).slots[position] :=
          List.getElem?_eq_getElem hlt
        rw [hget]
        rfl
      have hslot : (s.vm k).machine.slots[position]?.getD .nil
          = (s.machine k).slots[position]?.getD .nil := rfl
      cases hv : (s.machine k).slots[position]?.getD .nil with
      | function id =>
          rw [hv] at hsome
          refine Or.inr ⟨position, (s.heap.function? id).getD default, heq, hlt, hbase, ?_,
            fun run => ?_⟩
          · unfold functionAt?
            rw [hsome]
          · unfold call
            rw [bind_ok (onMachine_look hp), bind_ok (get_apply s)]
            simp only [hslot, hv]
            rfl
      | _ =>
          obtain ⟨e, he⟩ := hrefused ((s.machine k).slots[position]?.getD .nil)
          refine Or.inl ⟨e, fun run => ?_⟩
          unfold call
          rw [bind_ok (onMachine_look hp), bind_ok (get_apply s)]
          simp only [hslot, hv]
          rw [hv] at he
          exact he

variable {s : Session}

/-- The cleanup runs last, in the state that the action has left. -/
theorem ensuring_final (a : Action α) (cleanup : Action Unit) (s : Session) :
    final (ensuring a cleanup s) = final (cleanup (final (a s))) := by
  unfold ensuring
  cases a s with
  | ok x t =>
      dsimp only [final]
      cases cleanup t <;> rfl
  | error e t =>
      dsimp only [final]
      cases cleanup t <;> rfl

-- ====================================================================== laws

/-- A law that holds of calls where it holds of what runs in the called
function's frame, and of what the host functions of a program answer and
raise. -/
class Law.Calls (ctx : Context) (L : Law) : Prop extends Reads ctx L where
  finish : ∀ (body : Nat) (args : List HostValue),
    L.Holds fun _ => Bridge.finish ctx args (ctx.program.body body).finish
  call : ∀ {k : MachineId} {fuel : Nat} (args wanted : Int), L.Valid k →
    (∀ f, L.Holds (callee ctx fuel k f)) → L.Holds fun run => Bridge.call ctx run fuel k args wanted

/-- And of protected calls. -/
class Law.Protects (ctx : Context) (L : Law) : Prop extends Calls ctx L where
  protectedCall : ∀ {k : MachineId} {fuel : Nat} {args wanted : Int}, L.Valid k →
    (L.Holds fun run => Bridge.call ctx run fuel k args wanted) →
      L.Holds fun run => Bridge.protectedCall ctx run fuel k args wanted

/-- A call goes alike in two runs if it does where it runs a function in a frame of
its own; anything else than a function cannot be called in either. -/
theorem Law.holds_call_of [Lawful L] {fuel : Nat} {args wanted : Int}
    (hcall : ∀ (s s' : Session) (position : Nat) (f : FunctionObject), L.Same s s' →
      position < (s.machine k).slots.length → (s.machine k).baseOf ≤ position →
        ∀ (M : Session → Prop) (run run' : Runner),
          (∀ b t t', L.Way s t → L.Same t t' → L.Alike M t (run b t) (run' b t')) → L.Alike M s
            (returning k position wanted (callee ctx fuel k f run) (entering k (position + 1) s))
            (returning k position wanted (callee ctx fuel k f run')
              (entering k (position + 1) s'))) :
    L.Holds fun run => Bridge.call ctx run fuel k args wanted := by
  intro M run run' s s' hsame hrun
  have hvm : s'.vm k = s.vm k := by
    rw [Lawful.checks hsame]
    rfl
  have hlook := Vm.looks_calleePosition args (s.vm k)
  dsimp only
  unfold Bridge.call
  cases hp : Vm.calleePosition args (s.vm k) with
  | error f vm =>
      rw [hp] at hlook
      obtain rfl : s.vm k = vm := hlook.1
      have hfails : ∀ t : Session, t.vm k = s.vm k →
          onMachine k (Vm.calleePosition args) t = .error (.failed f) t := by
        intro t ht
        rw [onMachine_error (by rw [ht]; exact hp), ← ht, withVm_vm]
      rw [bind_error (hfails s rfl), bind_error (hfails s' hvm)]
      exact .failed hsame (Lawful.refl s) (Lawful.plain hsame hlook.2.plain)
  | ok position vm =>
      rw [hp] at hlook
      obtain rfl : s.vm k = vm := hlook
      obtain ⟨_, hlt, hbase⟩ := calleePosition_spec hp
      rw [bind_ok (onMachine_look hp), bind_ok (onMachine_look (by rw [hvm]; exact hp)),
        bind_ok (get_apply s), bind_ok (get_apply s')]
      have huncallable : ∀ v : Value, Vm.Looks (do
          Vm.raiseText ("attempt to call a " ++ (← Vm.categoryOf v).label ++ " value") :
            Vm.Action Unit) :=
        fun v => (Vm.looks_categoryOf v).bind fun c => Vm.looks_throw trivial
      simp only [hvm]
      cases (s.vm k).machine.slots[position]?.getD .nil with
      | function id => exact hcall s s' position _ hsame hlt hbase M run run' hrun
      | _ => exact holds_look (huncallable _) M run run' s s' hsame hrun

section

variable [Wraps L]

-- =================================================================== parts

theorem holds_callMethod (owner : HostValue) (name : String) (args : List HostValue) :
    L.Holds fun _ => callMethod owner name args := by
  unfold callMethod
  split
  · exact (holds_pushWrapped _).bind fun _ => .pure _
  · exact (Wraps.release _).bind fun _ => .pure _
  · exact (Wraps.release _).bind fun _ => .pure _
  · dsimp only
    split
    · exact holds_individual _
    · exact .fail trivial
  · exact .fail trivial

theorem holds_readRest {readAt : Runner → Int → Action HostValue}
    (hr : ∀ i, L.Holds fun run => readAt run i) (first : Int) (count : Nat) :
    L.Holds fun run => readRest (readAt run) first count := by
  induction count generalizing first with
  | zero => exact .pure _
  | succ count ih => exact (hr first).bind fun v => (ih (first + 1)).bind fun vs => .pure _

theorem holds_readArguments {readAt : Runner → TypeExpr → Int → Action HostValue}
    (hr : ∀ t i, L.Holds fun run => readAt run t i) (depth i : Int) (ps : List Param) :
    L.Holds fun run => readArguments (readAt run) k depth i ps := by
  induction ps generalizing i with
  | nil => exact .pure _
  | cons p ps ih =>
      unfold readArguments
      by_cases hvariadic : p.variadic = true
      · simp only [if_pos hvariadic]
        exact holds_readRest (hr p.type) _ _
      · simp only [if_neg hvariadic]
        have hrest : ∀ v : HostValue, L.Holds fun run => (do
            let vs ← readArguments (readAt run) k depth (i + 1) ps
            return v :: vs) :=
          fun v => (ih (i + 1)).bind fun vs => .pure _
        cases p.default with
        | none => exact Law.Holds.bind (hr p.type i) hrest
        | some d =>
            refine (holds_look (Vm.looks_categoryAt i)).bind fun c => ?_
            by_cases hmissing : c = .absent ∨ c = .nil
            · simp only [if_pos hmissing]
              exact Law.Holds.bind (.pure d) hrest
            · simp only [if_neg hmissing]
              exact Law.Holds.bind (hr p.type i) hrest

theorem holds_withCurrent (hk : L.Valid k) {F : Runner → Action α} (hF : L.Holds F) :
    L.Holds fun run => withCurrent k (F run) :=
  .ask (fun _ _ => rfl) fun _ _ hsame => (Law.Holds.focus hk).bind fun _ =>
    hF.ensuring (.focus (Lawful.current hsame))

end

-- ======================================================== host functions

theorem holds_admitted [Pushes ctx L] (hk : L.Valid k) (v : HostValue) :
    L.Holds fun _ => admitted ctx k v := by
  unfold admitted
  split
  · exact .pure _
  · exact .ask (fun _ _ => rfl) fun _ _ _ => (holds_ofHost _).bind fun _ =>
      holds_primitive hk (.newGuestValue _ _)

/-- What a host function answers, unless it raises a value. -/
theorem holds_finish [Pushes ctx L] (args : List HostValue) {f : Finish}
    (hraise : ∀ kind message, f = .raise kind message → (raised kind message).Plain)
    (hvalue : ∀ e, f ≠ .raiseValue e) : L.Holds fun _ => finish ctx args f := by
  cases f with
  | raise kind message => exact .fail (hraise kind message rfl)
  | raiseValue e => exact absurd rfl (hvalue e)
  | argument i =>
      unfold finish
      dsimp only
      cases args[i]? with
      | some v => exact .pure v
      | none => exact .fail trivial
  | arguments => exact .pure _
  | sum =>
      unfold finish
      dsimp only
      cases HostValue.sumOfIntegers? args with
      | some n => exact .pure _
      | none => exact .fail trivial
  | value e => exact holds_eval e

theorem holds_pushArguments [Pushes ctx L] (hk : L.Valid k) (vs : List HostValue)
    (ts : List TypeExpr) : L.Holds fun _ => pushArguments ctx k vs ts := by
  induction vs generalizing ts with
  | nil => exact .pure _
  | cons v vs ih => exact (Pushes.pushValue _ _ hk).bind fun _ => ih _

section

variable [Calls ctx L]

theorem holds_runBody (spec : FunctionSpec) (args : List HostValue) :
    L.Holds fun run => runBody ctx run spec args := by
  unfold runBody
  dsimp only
  cases (ctx.program.body spec.body).block with
  | some b => exact (Law.Holds.run b).bind fun _ => Calls.finish _ _
  | none => exact Calls.finish _ _

theorem holds_callFunction (spec : FunctionSpec) (defaults args : List HostValue) :
    L.Holds fun run => callFunction ctx run spec defaults args := by
  refine (holds_mapM holds_view args).bind fun views => ?_
  refine (holds_report _).bind fun _ => ?_
  dsimp only
  by_cases htakes : (!spec.takes (spec.completeArguments defaults args).length) = true
  · simp only [if_pos htakes]
    refine Law.Holds.bind (.fail ?_) fun _ => holds_runBody spec _
    trivial
  · simp only [if_neg htakes]
    exact holds_runBody spec _

theorem holds_callBuiltin (b : Builtin) (args : List HostValue) :
    L.Holds fun _ => callBuiltin ctx b args := by
  refine .ask (fun _ _ => rfl) fun _ _ _ => (holds_ofHost _).bind fun answer => ?_
  cases answer with
  | value v => exact holds_individual v
  | greatest vs => exact holds_greatest _ vs

theorem holds_callHost (callee : HostValue) (args : List HostValue) :
    L.Holds fun run => callHost ctx run callee args := by
  unfold callHost
  split
  · exact holds_callFunction _ _ _
  · exact holds_callBuiltin _ _
  · exact holds_callMethod _ _ _
  · split
    · exact .pure _
    · exact .fail trivial
  · split
    · exact .pure _
    · exact .fail trivial
  · exact .fail trivial

-- ==================================================== functions of a machine

theorem holds_callThrough (hk : L.Valid k) (fuel : Nat) (name : String) (callee : HostValue)
    (signature : Signature) :
    L.Holds fun run => callThrough ctx run fuel k name callee signature := by
  refine holds_getTop.bind fun depth => ?_
  refine Law.Holds.bind (holds_readArguments
    (fun t i => Reads.readValue fuel i t hk rfl) depth 1 _) fun args => ?_
  refine (holds_callHost callee args).bind fun result => ?_
  split
  · exact .pure _
  · exact (Pushes.pushValue _ _ hk).bind fun _ => .pure _

theorem holds_invoke (hk : L.Valid k) (fuel : Nat) (f : FunctionObject) :
    L.Holds fun run => invoke ctx run fuel k f := by
  unfold invoke
  cases f.code with
  | block b results => exact (holds_withCurrent hk (.run b)).bind fun _ => .pure _
  | host callee signature => exact (holds_callThrough hk fuel _ callee signature).escaping

-- ==================================================================== calls

theorem holds_callee (hk : L.Valid k) (fuel : Nat) (f : FunctionObject) :
    L.Holds (callee ctx fuel k f) :=
  (holds_invoke hk fuel f).bind fun _ => holds_look (Vm.looks_results _)

theorem holds_call (hk : L.Valid k) (fuel : Nat) (args wanted : Int) :
    L.Holds fun run => call ctx run fuel k args wanted :=
  Calls.call args wanted hk (holds_callee hk fuel)

-- ======================================================== bound functions

theorem holds_popValue (hk : L.Valid k) (fuel : Nat) {h : Handler} (hh : h.isOwn = false)
    (t : TypeExpr) : L.Holds fun run => popValue ctx run fuel k h t :=
  holds_popping hk (Reads.readValue fuel (-1) t hk hh)

/-- What a bound function does on its machine: the call, from the function and
the arguments pushed to the result read. -/
theorem holds_boundBody (hk : L.Valid k) (fuel : Nat) (id : Nat) (params : Option (List TypeExpr))
    (returns : TypeExpr) (args : List HostValue) :
    L.Holds fun run => (do
      pushWrapped id
      pushArguments ctx k args (params.getD [])
      call ctx run fuel k args.length (if returns = .none ∨ returns = .cls .none then 0 else 1)
      if returns = .none ∨ returns = .cls .none then return HostValue.none
      else popValue ctx run fuel k .standard returns : Action HostValue) := by
  refine (holds_pushWrapped id).bind fun _ => ?_
  refine (holds_pushArguments hk _ _).bind fun _ => ?_
  refine (holds_call hk fuel _ _).bind fun _ => ?_
  by_cases hdiscards : returns = .none ∨ returns = .cls .none
  · simp only [if_pos hdiscards]
    exact .pure _
  · simp only [if_neg hdiscards]
    exact holds_popValue hk fuel rfl returns

theorem holds_callBound (fuel : Nat) (id : Nat) (params : Option (List TypeExpr))
    (returns : TypeExpr) (args : List HostValue) :
    L.Holds fun run => callBound ctx run fuel id params returns args := by
  refine .ask (fun _ _ => rfl) fun s s' hsame => ?_
  have hhome := Lawful.home hsame id
  dsimp only
  by_cases hcount : (params.isSome && args.length != (params.getD []).length) = true
  · simp only [if_pos hcount]
    refine Law.Holds.bind (.fail ?_) fun _ =>
      holds_restoringTop hhome (holds_boundBody hhome fuel id params returns args)
    trivial
  · simp only [if_neg hcount]
    exact holds_restoringTop hhome (holds_boundBody hhome fuel id params returns args)

end

/-- A protected call, for a law that holds of those. -/
theorem holds_protectedCall [Protects ctx L] (hk : L.Valid k) (fuel : Nat) (args wanted : Int) :
    L.Holds fun run => protectedCall ctx run fuel k args wanted :=
  Protects.protectedCall hk (holds_call hk fuel args wanted)

end Session

end StackBridge
