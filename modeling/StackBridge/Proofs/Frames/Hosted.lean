import StackBridge.Proofs.Frames.Protected
import StackBridge.Proofs.Push.Atomic

/-!
Functions made of host callables, under a protected call. Such a function fails
while it reads its arguments, in the callable, or while it pushes the result;
machine errors leave it as they are, and any other failure leaves it as a
machine error with a string that begins with the name of its kind. A protected
call stops either. What it lets through is an imbalance of the stack, and a
failure whose text no encoding can write, which is then the failure of encoding
it.
-/

namespace StackBridge

namespace Session

open Bridge

variable {ctx : Context} {k : MachineId} {s t u : Session} {fuel : Nat} {args wanted count : Int}
  {position : Nat} {f : FunctionObject}

-- ======================================================== ends of a call

/-- A frame with as many slots as a function claims has its results. -/
theorem results_ok (vm : Vm) (hm : vm.machine.Framed)
    (h : count ≤ (vm.machine.frameSlots.length : Int)) :
    Vm.results count vm = .ok (vm.machine.frameSlots.rtake count.toNat) vm := by
  obtain ⟨fs, hf⟩ := hm.frames_eq
  have hbase := hm.base_le
  have hslots : vm.machine.frameSlots = vm.machine.slots.drop vm.machine.baseOf := by
    unfold Machine.frameSlots
    rw [hf]
  have hlen : vm.machine.frameSlots.length = vm.machine.slots.length - vm.machine.baseOf := by
    rw [hslots, List.length_drop]
  have hanswers : ∃ values, Vm.results count vm = .ok values vm := by
    unfold Vm.results
    rw [bind_ok (Vm.getTop_eq hf), if_neg (by omega)]
    exact ⟨_, rfl⟩
  obtain ⟨values, hvalues⟩ := hanswers
  rw [hvalues, (results_spec hm hvalues).2.1]

/-- A session back in the frames of an earlier one, with some slots. -/
def resuming (k : MachineId) (s : Session) (slots : List Value) (u : Session) : Session :=
  u.withVm k { u.vm k with machine := { u.machine k with frames := (s.machine k).frames, slots } }

/-- What a function has come to in the frame of its call. -/
structure Invoked (k : MachineId) (position : Nat) (s u : Session) : Prop where
  running : (u.machine k).frames = (position + 1) :: (s.machine k).frames
  framed : (u.machine k).Framed
  below : (u.machine k).slots.take position = (s.machine k).slots.take position
  size : u.machines.size = s.machines.size
  inside : k < s.machines.size
  framedBefore : (s.machine k).Framed
  entered : ((entering k (position + 1) s).machine k).Framed

/-- Whatever a function comes to in its frame, unless the machine is closed
then. -/
theorem invoked (hs : s.Framed) (hbase : (s.machine k).baseOf ≤ position)
    (hf : functionAt? s k position = some f)
    (hu : final (invoke ctx (runBlock ctx fuel) fuel k f (entering k (position + 1) s)) = u)
    (hopen : (u.machine k).closed = false) : Invoked k position s u := by
  obtain ⟨id, hslot, _⟩ := functionAt?_some hf
  have hlt := (List.getElem?_eq_some_iff.mp hslot).1
  have hk := lt_size_of_slots hlt
  have hle := Nat.le_succ_of_le hbase
  have hkept := (@contained_invoke ctx k fuel f).keeps_of_run (keeps_runBlock ctx fuel)
    (entering k (position + 1) s)
  rw [hu] at hkept
  have hconfines := hkept.machine k
  rw [entering_machine hk] at hconfines
  have hm := hs k (hconfines.opened hopen)
  obtain ⟨hframes, hlen, hslots⟩ := hconfines.entered hle hlt hopen hm
  have hentered := hm.enter hle hlt
  refine ⟨hframes, hconfines.framed hopen hentered, ?_, ?_, hk, hm, ?_⟩
  · have hbelow := congrArg (List.take position) hslots
    rw [List.take_take, List.take_take, Nat.min_eq_left (Nat.le_succ position)] at hbelow
    exact hbelow
  · exact hkept.size.trans (withVm_size s k _)
  · rw [entering_machine hk]
    exact hentered

/-- Leaving the frame of the call. -/
theorem Invoked.leave (h : Invoked k position s u) :
    onMachine k Vm.leaveFrame u = .ok () (resuming k s (u.machine k).slots u) :=
  onMachine_ok (leaveFrame_eq h.running)

theorem resuming_machine (hk : k < u.machines.size) (slots : List Value) :
    (resuming k s slots u).machine k
      = { u.machine k with frames := (s.machine k).frames, slots } :=
  withVm_machine hk _

/-- Putting results where the function was. -/
theorem Invoked.replace (h : Invoked k position s u) (values : List Value) :
    onMachine k (Vm.replaceFrom position values) (resuming k s (u.machine k).slots u)
      = .ok () (resuming k s ((s.machine k).slots.take position ++ values) u) := by
  have hreplace : Vm.replaceFrom position values ((resuming k s (u.machine k).slots u).vm k)
      = .ok () { u.vm k with machine := { u.machine k with
          frames := (s.machine k).frames
          slots := (u.machine k).slots.take position ++ values } } := by
    unfold Session.vm
    rw [resuming_machine (by rw [h.size]; exact h.inside)]
    rfl
  rw [onMachine_ok hreplace, h.below]
  unfold resuming
  rw [withVm_withVm]

/-- A function that has answered, with the results that it claims in its frame:
the call leaves the frame and puts them where the function was. -/
theorem call_invoked (wanted : Int) (hs : s.Framed)
    (hposition : (position : Int) = (s.machine k).slots.length - args - 1)
    (hbase : (s.machine k).baseOf ≤ position) (hf : functionAt? s k position = some f)
    (hinvoke : invoke ctx (runBlock ctx fuel) fuel k f (entering k (position + 1) s)
      = .ok count u)
    (hopen : (u.machine k).closed = false)
    (hcount : count ≤ ((u.machine k).frameSlots.length : Int)) :
    call ctx (runBlock ctx fuel) fuel k args wanted s
      = .ok () (resuming k s ((s.machine k).slots.take position
          ++ Vm.adjustResults wanted ((u.machine k).frameSlots.rtake count.toNat)) u) := by
  have hin : Invoked k position s u := invoked hs hbase hf (congrArg final hinvoke) hopen
  obtain ⟨fs, hframes⟩ := hin.framedBefore.frames_eq
  have hcallee : callee ctx fuel k f (runBlock ctx fuel) (entering k (position + 1) s)
      = .ok ((u.machine k).frameSlots.rtake count.toNat) u := by
    unfold callee
    rw [bind_ok hinvoke]
    have hresults := results_ok (u.vm k) hin.framed hcount
    exact onMachine_look hresults
  have hleft : ensuring (callee ctx fuel k f (runBlock ctx fuel)) (onMachine k Vm.leaveFrame)
      (entering k (position + 1) s)
        = .ok ((u.machine k).frameSlots.rtake count.toNat)
            (resuming k s (u.machine k).slots u) := by
    unfold ensuring
    rw [hcallee]
    dsimp only
    rw [hin.leave]
  rw [call_eq hframes hposition hbase hf]
  unfold returning
  rw [bind_ok hleft, hin.replace]

/-- A function that has stopped: the call leaves the frame and stops alike. -/
theorem call_stopped (hs : s.Framed)
    (hposition : (position : Int) = (s.machine k).slots.length - args - 1)
    (hbase : (s.machine k).baseOf ≤ position) (hf : functionAt? s k position = some f) {e : Stop}
    (hinvoke : invoke ctx (runBlock ctx fuel) fuel k f (entering k (position + 1) s)
      = .error e u)
    (hopen : (u.machine k).closed = false) :
    call ctx (runBlock ctx fuel) fuel k args wanted s
      = .error e (resuming k s (u.machine k).slots u) := by
  have hin : Invoked k position s u := invoked hs hbase hf (congrArg final hinvoke) hopen
  obtain ⟨fs, hframes⟩ := hin.framedBefore.frames_eq
  have hcallee : callee ctx fuel k f (runBlock ctx fuel) (entering k (position + 1) s)
      = .error e u := bind_error hinvoke
  have hleft : ensuring (callee ctx fuel k f (runBlock ctx fuel)) (onMachine k Vm.leaveFrame)
      (entering k (position + 1) s) = .error e (resuming k s (u.machine k).slots u) := by
    unfold ensuring
    rw [hcallee]
    dsimp only
    rw [hin.leave]
  rw [call_eq hframes hposition hbase hf]
  exact bind_error hleft

-- ========================================================== host functions

variable {name : Option String} {callee : HostValue} {signature : Signature}

/-- What a host function claims to have pushed is in its frame. -/
theorem callThrough_results {run : BlockId → Action Unit} {shown : String}
    (hrun : ∀ b, Keeps Confined (run b)) (hk : k < s.machines.size)
    (hm : (s.machine k).Framed)
    (h : callThrough ctx run fuel k shown callee signature s = .ok count u)
    (hopen : (u.machine k).closed = false) :
    count ≤ ((u.machine k).frameSlots.length : Int) := by
  unfold callThrough at h
  obtain ⟨depth, s₁, htop, h⟩ := bind_answered h
  obtain ⟨values, s₂, hread, h⟩ := bind_answered h
  obtain ⟨result, v, hcalled, h⟩ := bind_answered h
  split at h
  · cases h
    exact Int.natCast_nonneg _
  · obtain ⟨_, w, hpushed, h⟩ := bind_answered h
    cases h
    -- up to the push the frame has been kept to
    obtain ⟨rfl, _⟩ := looked_onMachine Vm.looks_getTop htop
    have hreads : Contained fun run => readArguments
        (fun t i => readValue ctx run fuel k (.badArgument i (some shown)) i t) k depth 1
        signature.params :=
      holds_readArguments (fun t i => holds_readValue trivial fuel _ i t) depth 1 _
    have hargs := hreads.keeps_of_run hrun s₁
    rw [hread] at hargs
    have hcalls : Contained fun run => callHost ctx run callee values := holds_callHost _ _
    have hcall := hcalls.keeps_of_run hrun s₂
    rw [hcalled] at hcall
    have hbefore : Confined s₁ v := hargs.trans hcall
    have hpush : Keeps Confined (pushValue ctx k result
      (if signature.returns = .any then .none else signature.returns)) := Kept.pushValue _ _ _
    have hopenBefore : (v.machine k).closed = false := by
      have h := hpush v
      rw [hpushed] at h
      exact (h.machine k).opened hopen
    have hframed := (hbefore.machine k).framed hopenBefore hm
    obtain ⟨fs, hf⟩ := hframed.frames_eq
    have hlive : (v.machine k).Live := ⟨hopenBefore, _, fs, hf, hframed.base_le⟩
    have hadds := addsOne_pushAs ctx pushLimit result
      (if signature.returns = .any then .none else signature.returns) v
      (by rw [hbefore.size]; exact hk) hlive
    unfold pushValue at hpushed
    rw [hpushed] at hadds
    obtain ⟨x, hx⟩ := hadds
    have hslots : (u.machine k).frameSlots = (u.machine k).slots.drop (v.machine k).baseOf := by
      unfold Machine.frameSlots
      rw [hx.frames, hf]
    have hbase := hframed.base_le
    rw [hslots, hx.slots, List.length_drop, List.length_append]
    show (1 : Int) ≤ (((v.machine k).slots.length + 1 - (v.machine k).baseOf : Nat) : Int)
    omega

/-- A function made of a host callable is called through its signature, and its
failure leaves it renamed. -/
theorem invoke_host :
    invoke ctx (runBlock ctx fuel) fuel k ⟨name, .host callee signature⟩ s
      = handling (callThrough ctx (runBlock ctx fuel) fuel k (name.getD "") callee signature)
          (fun e => fail (escaping e)) s :=
  rfl

/-- A machine error or an imbalance leaves a host function as it is. -/
theorem escaping_passes {e : Failure} (h : e.kind = .machine ∨ e.kind = .imbalance) :
    escaping e = e := by
  unfold escaping
  rw [if_pos h]

/-- Any other failure leaves a host function under the name of its kind. -/
theorem escaping_named {e : Failure} (hm : e.kind ≠ .machine) (hi : e.kind ≠ .imbalance)
    {b : Bytes} (hb : e.text.encode = .ok b) :
    escaping e = .machine (.str (utf8 (e.kind.label ++ ": ") ++ b)) (some e.kind) := by
  unfold escaping
  rw [if_neg (not_or.mpr ⟨hm, hi⟩), HostText.encode_prefixed _ hb]

-- ========================================================= protected calls

theorem protectedCall_ok (h : call ctx (runBlock ctx fuel) fuel k args wanted s = .ok () t) :
    protectedCall ctx (runBlock ctx fuel) fuel k args wanted s = .ok statusOk t := by
  unfold protectedCall
  rw [bind_ok (get_apply s)]
  unfold handling
  rw [bind_ok h]
  rfl

/-- A protected call stops nothing but machine errors. -/
theorem protectedCall_stopped {e : Stop}
    (h : call ctx (runBlock ctx fuel) fuel k args wanted s = .error e t)
    (he : ∀ v cause, e ≠ .failed (.machine v cause)) :
    protectedCall ctx (runBlock ctx fuel) fuel k args wanted s = .error e t := by
  unfold protectedCall
  rw [bind_ok (get_apply s)]
  unfold handling
  rw [bind_error h]
  cases e with
  | exhausted => rfl
  | failed f =>
      cases f with
      | machine v cause => exact absurd rfl (he v cause)
      | _ => rfl

/-- Where reading the arguments of a function made of a host callable, calling
it and pushing what it has answered comes to `r`, how a protected call of the
function ends. -/
def Protects (ctx : Context) (fuel : Nat) (k : MachineId) (args wanted : Int) (position : Nat)
    (s : Session) : EStateM.Result Stop Session Int → Prop
  | .ok _ _ =>
    ∃ t, protectedCall ctx (runBlock ctx fuel) fuel k args wanted s = .ok statusOk t
  | .error .exhausted _ =>
    ∃ t, protectedCall ctx (runBlock ctx fuel) fuel k args wanted s = .error .exhausted t
  | .error (.failed e) _ =>
    (∀ v cause, e = .machine v cause → Caught ctx fuel k args wanted position v s)
      ∧ (e.kind = .imbalance →
          ∃ t, protectedCall ctx (runBlock ctx fuel) fuel k args wanted s = .error (.failed e) t)
      ∧ ∀ b, e.kind ≠ .machine → e.kind ≠ .imbalance → e.text.encode = .ok b →
          Caught ctx fuel k args wanted position
            (.str (utf8 (e.kind.label ++ ": ") ++ b)) s

/-- A program with one host function, which raises a text. -/
def raisingProgram (message : HostText) : Context :=
  ⟨[], ⟨[], 1, false, #[], #[⟨none, .raise .value message⟩], 0⟩⟩

/-- Its function, pushed onto the empty stack. -/
def raisingPushed (message : HostText) : Session :=
  final (step (raisingProgram message) (runBlock (raisingProgram message) 9) 9
    (.push (.function ⟨"f", [], none, false, 0⟩ []) .none) (Session.start 1 false))

theorem raisingPushed_framed (message : HostText) : (raisingPushed message).Framed := by
  have hstep : Contained fun run => step (raisingProgram message) run 9
      (.push (.function ⟨"f", [], none, false, 0⟩ []) .none) := contained_step 9 _
  exact (hstep.keeps_of_run (keeps_runBlock _ 9) _).framed fun j _ => start_framed 1 false j

/-- A function made of a host callable that passes a test. -/
theorem exists_hosted {f : Option FunctionObject}
    {test : Option String → HostValue → Signature → Bool}
    (h : (match f with
      | some ⟨name, .host callee signature⟩ => test name callee signature
      | _ => false) = true) :
    ∃ name callee signature, f = some ⟨name, .host callee signature⟩
      ∧ test name callee signature = true := by
  split at h
  · exact ⟨_, _, _, rfl, h⟩
  · cases h

end Session

end StackBridge
