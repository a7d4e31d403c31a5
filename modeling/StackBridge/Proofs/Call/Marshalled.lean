import StackBridge.Proofs.Call.Signature
import StackBridge.Proofs.Frames.Hosted
import StackBridge.Proofs.RoundTrip.Bound

/-!
What a call of a function of the program makes of the values in its frame. The
arguments are fetched from the sources that the signature says (`callThrough_sources`).
If all of them can be fetched the function is entered, once, with what has been fetched
(`Marshals.entered`); if one cannot be, the call stops with the failure of that one and
the function has not been entered (`Marshals.refused`), and where the failure is a
mismatch, it is in the words of an argument (`Marshals.mismatched`). Either way the
values are where they were.
-/

namespace StackBridge

namespace Bridge

open Session

variable {ctx : Context} {run : BlockId → Action Unit} {fuel : Nat} {k : MachineId}
  {name : String} {s t u : Session} {xs : List Value} {signature : Signature}
  {spec : FunctionSpec} {defaults args : List HostValue} {n : Nat}

-- ============================================================== functions

/-- The machine function that pushing a host callable by its own signature makes. -/
def Pushes (ctx : Context) (v : HostValue) (f : FunctionObject) : Prop :=
  ∃ (k : MachineId) (host : HostType) (s t : Session),
    Signature.ofCallableArgs host.args = none ∧ pushCallable ctx k v host s = .ok () t
      ∧ functionAt? t k ((t.machine k).slots.length - 1) = some f

theorem callableName_ne (n : Nat) (spec : FunctionSpec) (defaults : List HostValue) :
    (HostValue.function n spec defaults).callableName ≠ "" := by
  unfold HostValue.callableName
  dsimp only
  split
  · decide
  · split
    · decide
    · assumption

/-- A function that has been pushed is what is on top. -/
theorem pushFunction_top {f g : FunctionObject}
    (h : onMachine k (Vm.pushFunction f) s = .ok () t)
    (hg : functionAt? t k ((t.machine k).slots.length - 1) = some g) : g = f := by
  obtain ⟨_, hslot, _⟩ := functionAt?_some hg
  have ht := lt_size_of_slots (List.getElem?_eq_some_iff.mp hslot).1
  rw [onMachine_ok (Vm.pushFunction_eq f (s.vm k))] at h
  cases h
  rw [withVm_size] at ht
  have hslots : ((s.withVm k { (s.vm k).withSlots ((s.vm k).machine.slots
      ++ [.function (s.vm k).heap.functions.size]) with
        heap := { (s.vm k).heap with functions := (s.vm k).heap.functions.push f } }).machine
      k).slots = (s.machine k).slots ++ [.function s.heap.functions.size] := by
    rw [withVm_machine ht]
    rfl
  unfold functionAt? at hg
  rw [hslots, List.length_append, List.length_singleton, Nat.add_sub_cancel,
    List.getElem?_concat_length] at hg
  have hfound : some ((s.heap.functions.push f)[s.heap.functions.size]?.getD default) = some g := hg
  rw [Array.getElem?_push_size] at hfound
  exact (Option.some.inj hfound).symm

/-- A function of a program is pushed under its name, with the signature it shows. -/
theorem Pushes.function {f : FunctionObject} (h : Pushes ctx (.function n spec defaults) f) :
    ∃ signature, spec.signature ctx.classes defaults = .ok signature
      ∧ f = ⟨some (HostValue.function n spec defaults).callableName,
          .host (.function n spec defaults) signature⟩ := by
  obtain ⟨k, host, s, t, hargs, hpushed, hf⟩ := h
  unfold pushCallable at hpushed
  rw [hargs] at hpushed
  dsimp only at hpushed
  obtain ⟨signature, u, hsignature, hpushed⟩ := bind_answered hpushed
  obtain ⟨_, v, hparams, hpushed⟩ := bind_answered hpushed
  obtain ⟨_, w, hreturns, hpushed⟩ := bind_answered hpushed
  have hown : spec.signature ctx.classes defaults = .ok signature := by
    change ofHost (spec.signature ctx.classes defaults) s = .ok signature u at hsignature
    cases hsig : spec.signature ctx.classes defaults with
    | error f =>
        rw [hsig] at hsignature
        cases hsignature
    | ok shown =>
        rw [hsig] at hsignature
        cases hsignature
        rfl
  exact ⟨signature, hown, pushFunction_top hpushed hf⟩

-- ================================================================== calls

/-- Enters a function of the program with some arguments: the entry is reported, and the
body runs. -/
def enter (ctx : Context) (run : BlockId → Action Unit) (spec : FunctionSpec)
    (args : List HostValue) : Action HostValue := do
  report (.entry spec.name (← args.mapM view))
  runBody ctx run spec args

/-- Pushes what a function has answered, and tells how many results that is. -/
def answer (ctx : Context) (k : MachineId) (signature : Signature) (result : HostValue) :
    Action Int := do
  if signature.returnsNothing || (signature.returns = .any && result.isNone) then return 0
  pushValue ctx k result (if signature.returns = .any then .none else signature.returns)
  return 1

/-- The rest of a call from where the arguments are there: the function is entered, its
answer pushed, and the results taken. -/
def proceed (ctx : Context) (run : BlockId → Action Unit) (k : MachineId) (spec : FunctionSpec)
    (signature : Signature) (args : List HostValue) : Action (List Value) := do
  let count ← handling (enter ctx run spec args >>= answer ctx k signature)
    fun e => fail (escaping e)
  onMachine k (Vm.results count)

/-- Entering a function reports that once, before anything else. -/
theorem enter_eq {views : List View} (h : View.ofValues s.wrapperText args = .ok views) :
    enter ctx run spec args s
      = runBody ctx run spec args { s with reports := .entry spec.name views :: s.reports } := by
  unfold enter
  rw [bind_ok (mapM_view h)]
  rfl

/-- Calling a host callable in a frame of some values is fetching the arguments from
their sources, and calling it with them. -/
theorem callThrough_sources (ctx : Context) (run : BlockId → Action Unit) (fuel : Nat)
    (name : String) (hframe : InFrame k xs s)
    (hlast : ∀ p ∈ signature.params.dropLast, p.variadic = false) (host : HostValue) :
    callThrough ctx run fuel k name host signature s
      = ((signature.sources xs).mapM (fetch ctx run fuel k name) >>= fun args =>
          callHost ctx run host args >>= answer ctx k signature) s := by
  unfold callThrough
  rw [bind_ok hframe.top]
  exact bind_alike (readArguments_sources hframe hlast 0) fun args t _ => rfl

/-- All of the arguments that a function takes have a source. -/
theorem callHost_enter (hordered : spec.Ordered)
    (hsignature : spec.signature ctx.classes defaults = .ok signature)
    (hargs : args.length = (signature.sources xs).length) :
    callHost ctx run (.function n spec defaults) args = enter ctx run spec args := by
  obtain ⟨hcomplete, htakes⟩ := hordered.complete hsignature hargs
  show callFunction ctx run spec defaults args = _
  unfold callFunction enter
  simp only [hcomplete, htakes, Bool.not_true, Bool.false_eq_true, if_false]

/-- Any arguments from sources of a signature may be fetched. -/
theorem fetches_sources {sources : List Source} (h : sources ⊆ signature.sources xs) :
    Fetches k xs (sources.mapM (fetch ctx run fuel k name)) :=
  fetches_mapM fun _ hsource => fetches_source fun _ _ hslot =>
    slot_sourcesFrom signature.params 0 (hslot ▸ h hsource)

/-- A stop, as it leaves a function that was made of a host callable. -/
def escapingStop : Stop → Stop
  | .failed e => .failed (escaping e)
  | .exhausted => .exhausted

/-- A host function that has got its arguments goes on to be entered with them. -/
theorem invoke_entered (hframe : InFrame k xs s) (hordered : spec.Ordered)
    (hsignature : spec.signature ctx.classes defaults = .ok signature)
    (h : (signature.sources xs).mapM (fetch ctx (runBlock ctx fuel) fuel k name) s = .ok args t) :
    invoke ctx (runBlock ctx fuel) fuel k
        ⟨some name, .host (.function n spec defaults) signature⟩ s
      = handling (enter ctx (runBlock ctx fuel) spec args >>= answer ctx k signature)
          (fun e => fail (escaping e)) t := by
  have hthrough := callThrough_sources ctx (runBlock ctx fuel) fuel name hframe
    (hordered.last hsignature) (.function n spec defaults)
  rw [invoke_host]
  unfold handling
  rw [Option.getD_some, hthrough, bind_ok h,
    callHost_enter hordered hsignature (fetched_length h)]

/-- One that has not got its arguments stops with what has stopped them. -/
theorem invoke_refused (hframe : InFrame k xs s)
    (hlast : ∀ p ∈ signature.params.dropLast, p.variadic = false) (host : HostValue) {e : Stop}
    (h : (signature.sources xs).mapM (fetch ctx (runBlock ctx fuel) fuel k name) s = .error e t) :
    invoke ctx (runBlock ctx fuel) fuel k ⟨some name, .host host signature⟩ s
      = .error (escapingStop e) t := by
  have hthrough := callThrough_sources ctx (runBlock ctx fuel) fuel name hframe hlast host
  rw [invoke_host]
  unfold handling
  rw [Option.getD_some, hthrough, bind_error h]
  cases e <;> rfl

theorem entering_inFrame {position : Nat} (hopen : (s.machine k).closed = false)
    (hlt : position < (s.machine k).slots.length) :
    InFrame k ((s.machine k).slots.drop (position + 1)) (entering k (position + 1) s) := by
  have hk := lt_size_of_slots hlt
  have hmachine := entering_machine hk (position + 1)
  refine ⟨(withVm_size s k _).symm ▸ hk, ?_, (s.machine k).slots.take (position + 1),
    (s.machine k).frames, ?_, ?_⟩
  · rw [hmachine]
    exact hopen
  · rw [hmachine, List.take_append_drop]
  · rw [hmachine, List.length_take, Nat.min_eq_left hlt]

/-- What a call of a function of the program does, with sources for its arguments: `r` is
what the call comes to, and its frame begins in `s₁`. -/
structure Marshals (ctx : Context) (fuel : Nat) (k : MachineId) (position : Nat) (wanted : Int)
    (name : String) (spec : FunctionSpec) (signature : Signature) (sources : List Source)
    (s s₁ : Session) (r : EStateM.Result Stop Session Unit) : Prop where
  /-- With all the arguments, the function is entered with them; the entry is reported. -/
  entered : ∀ args u, sources.mapM (fetch ctx (runBlock ctx fuel) fuel k name) s₁ = .ok args u →
    (u.machine k).slots = (s.machine k).slots
      ∧ r = returning k position wanted (proceed ctx (runBlock ctx fuel) k spec signature args) u
      ∧ ∀ views, View.ofValues u.wrapperText args = .ok views →
          enter ctx (runBlock ctx fuel) spec args u
            = runBody ctx (runBlock ctx fuel) spec args
                { u with reports := .entry spec.name views :: s.reports }
  /-- Without one of them, it is not. -/
  refused : ∀ e u, sources.mapM (fetch ctx (runBlock ctx fuel) fuel k name) s₁ = .error e u →
    ∃ t, r = .error (escapingStop e) t ∧ (t.machine k).slots = (s.machine k).slots
      ∧ (t.machine k).frames = (s.machine k).frames ∧ t.reports = s.reports
  /-- Where the first that is not there is a mismatch, the call raises that it is a bad
  argument. -/
  mismatched : ∀ before after (index : Nat) type args u actual expected v,
    sources = before ++ .slot index type :: after →
    before.mapM (fetch ctx (runBlock ctx fuel) fuel k name) s₁ = .ok args u →
    readValue ctx (runBlock ctx fuel) fuel k .strict index type u
      = .error (.failed (.mismatch actual expected)) v →
    ∃ t, r = .error (.failed (badArgument index name actual expected)) t
      ∧ (t.machine k).slots = (s.machine k).slots ∧ (t.machine k).frames = (s.machine k).frames
      ∧ t.reports = s.reports

/-- A call goes on from where what runs in its frame does. -/
theorem returning_alike {position : Nat} {wanted : Int} {body body' : Action (List Value)}
    (h : body s = body' t) :
    returning k position wanted body s = returning k position wanted body' t := by
  have hensuring : ensuring body (onMachine k Vm.leaveFrame) s
      = ensuring body' (onMachine k Vm.leaveFrame) t := by
    unfold ensuring
    rw [h]
  unfold returning
  rw [bind_apply, bind_apply, hensuring]

/-- A call whose function stops in its frame leaves the values where they were, if the
function has. -/
theorem call_refused {position : Nat} {args wanted : Int} {f : FunctionObject} {e : Stop}
    (hs : s.Framed) (hopen : (s.machine k).closed = false)
    (hposition : (position : Int) = (s.machine k).slots.length - args - 1)
    (hbase : (s.machine k).baseOf ≤ position) (hf : functionAt? s k position = some f)
    (hu : Leaves Unreported k [] (entering k (position + 1) s) u)
    (h : invoke ctx (runBlock ctx fuel) fuel k f (entering k (position + 1) s) = .error e u) :
    ∃ t, call ctx (runBlock ctx fuel) fuel k args wanted s = .error e t
      ∧ (t.machine k).slots = (s.machine k).slots ∧ (t.machine k).frames = (s.machine k).frames
      ∧ t.reports = s.reports := by
  obtain ⟨id, hslot, _⟩ := functionAt?_some hf
  have hk := lt_size_of_slots (List.getElem?_eq_some_iff.mp hslot).1
  have hsize : u.machines.size = s.machines.size := hu.size.trans (withVm_size s k _)
  have hopen' : (u.machine k).closed = false := by
    rw [hu.closed, entering_machine hk]
    exact hopen
  have hmachine := @resuming_machine k s u (hsize ▸ hk) (u.machine k).slots
  refine ⟨_, call_stopped hs hposition hbase hf h hopen', ?_, ?_, hu.rest⟩
  · rw [hmachine, hu.slots, entering_machine hk, List.append_nil]
  · rw [hmachine]

/-- A call of a function of the program, pushed by its own signature, marshals the values
above it by that signature: the function is entered exactly when all of its arguments can
be fetched, and then with what has been fetched. Otherwise the call stops with the
failure of the first that cannot be, a mismatch in the words of a bad argument. The
values above the function stay where they are until it is entered or the call has
stopped. -/
theorem call_marshals {position : Nat} {count wanted : Int} {f : FunctionObject}
    (hordered : spec.Ordered) (hpushed : Pushes ctx (.function n spec defaults) f)
    (hs : s.Framed) (hopen : (s.machine k).closed = false)
    (hposition : (position : Int) = (s.machine k).slots.length - count - 1)
    (hbase : (s.machine k).baseOf ≤ position) (hf : functionAt? s k position = some f) :
    ∃ signature, spec.signature ctx.classes defaults = .ok signature
      ∧ Marshals ctx fuel k position wanted (HostValue.function n spec defaults).callableName
          spec signature (signature.sources ((s.machine k).slots.drop (position + 1))) s
          (entering k (position + 1) s)
          (call ctx (runBlock ctx fuel) fuel k count wanted s) := by
  obtain ⟨signature, hsignature, rfl⟩ := hpushed.function
  refine ⟨signature, hsignature, ?_⟩
  obtain ⟨id, hslot, _⟩ := functionAt?_some hf
  have hlt := (List.getElem?_eq_some_iff.mp hslot).1
  have hname := callableName_ne n spec defaults
  generalize (HostValue.function n spec defaults).callableName = name at hname hf ⊢
  have hframe := entering_inFrame hopen hlt
  generalize (s.machine k).slots.drop (position + 1) = xs at hframe ⊢
  have hfetches {sources : List Source} (h : sources ⊆ signature.sources xs) :
      Fetches k xs (sources.mapM (fetch ctx (runBlock ctx fuel) fuel k name)) :=
    fetches_sources h
  have hrefused : ∀ e u, (signature.sources xs).mapM
        (fetch ctx (runBlock ctx fuel) fuel k name) (entering k (position + 1) s) = .error e u →
      ∃ t, call ctx (runBlock ctx fuel) fuel k count wanted s = .error (escapingStop e) t
        ∧ (t.machine k).slots = (s.machine k).slots
        ∧ (t.machine k).frames = (s.machine k).frames ∧ t.reports = s.reports := by
    intro e u hfetched
    have hleaves := hfetches (List.Subset.refl _) _ hframe
    rw [hfetched] at hleaves
    exact call_refused hs hopen hposition hbase hf hleaves
      (invoke_refused hframe (hordered.last hsignature) _ hfetched)
  refine ⟨fun args u hfetched => ?_, hrefused, ?_⟩
  · have hleaves := hfetches (List.Subset.refl _) _ hframe
    rw [hfetched] at hleaves
    have hslots := hleaves.slots
    rw [List.append_nil, entering_machine (lt_size_of_slots hlt)] at hslots
    have hreports : u.reports = s.reports := hleaves.rest
    refine ⟨hslots, ?_, fun views hviews => hreports ▸ enter_eq hviews⟩
    obtain ⟨fs, hframes⟩ := (hs k hopen).frames_eq
    rw [call_eq hframes hposition hbase hf]
    refine returning_alike ?_
    unfold callee proceed
    rw [bind_apply, bind_apply, invoke_entered hframe hordered hsignature hfetched]
  · intro before after index type args u actual expected v hsplit hbefore hread
    have hindex : (.slot index type : Source) ∈ signature.sources xs := by
      rw [hsplit]
      exact List.mem_append_right _ (List.mem_cons_self ..)
    obtain ⟨i, rfl⟩ := Nat.exists_eq_add_one_of_ne_zero
      (Nat.ne_of_gt (slot_sourcesFrom signature.params 0 hindex))
    have hleaves := hfetches (hsplit ▸ List.subset_append_left before _) _ hframe
    rw [hbefore] at hleaves
    have hfetched := fetch_stopped after hbefore
      (fetch_mismatch (hframe.after hleaves) hname hread)
    rw [← hsplit] at hfetched
    exact hrefused _ v hfetched

/-- A program with a function that does nothing. -/
def idle : Context := ⟨[], ⟨[], 1, true, #[], #[⟨none, .arguments⟩], 0⟩⟩

/-- A function with a default for its first parameter; the others are lists of integers. -/
def collect : FunctionSpec :=
  ⟨"collect", [⟨"label", some (.cls (.text .plain)), true, .positional⟩,
    ⟨"rows", some (.generic (.sequence .list) [.cls (.integer .plain)]), false, .variadic⟩],
    none, false, 0⟩

/-- The function on top of the stack. -/
def collecting : Session :=
  final (pushCallable idle 0 (.function 0 collect [.str "all"]) ⟨.anyCallable, .callable⟩
    (Session.start 1 false))

/-- Above it nil, a list, and a table that is no list of integers. -/
def collected : Session :=
  let arguments : Vm.Action Unit := do
    Vm.push .nil
    Vm.pushTable
    Vm.push (.int 5)
    Vm.setKey (-2) (.int 1)
    Vm.pushTable
    Vm.push (.str [120])
    Vm.setKey (-2) (.int 1)
  final (onMachine 0 arguments collecting)

theorem collected_framed : collected.Framed := by
  intro j _
  cases j with
  | zero => exact ⟨by decide +kernel, by decide +kernel⟩
  | succ j =>
      have hsize : collected.machines.size = 1 := by decide +kernel
      have hnone : collected.machine (j + 1) = .fresh 0 := by
        unfold Session.machine
        rw [Array.getD_eq_getD_getElem?, Array.getElem?_eq_none (by omega)]
        rfl
      rw [hnone]
      exact Machine.fresh_framed 0

/-- The mismatch in the last table is one in the third argument. -/
theorem call_marshals_collected :
    collect.Ordered
      ∧ (∃ f, Pushes idle (.function 0 collect [.str "all"]) f ∧ functionAt? collected 0 0 = some f)
      ∧ ∃ t, call idle (runBlock idle 9) 9 0 3 1 collected
          = .error (.failed (badArgument 3 "collect" .string .number)) t
        ∧ (t.machine 0).slots = (collected.machine 0).slots ∧ t.reports = collected.reports := by
  have hordered : collect.Ordered := by
    refine ⟨[⟨"label", some (.cls (.text .plain)), true, .positional⟩],
      [⟨"rows", some (.generic (.sequence .list) [.cls (.integer .plain)]), false, .variadic⟩],
      [], rfl, ?_, ?_, ?_, ?_⟩ <;> decide
  have hpushed : pushCallable idle 0 (.function 0 collect [.str "all"]) ⟨.anyCallable, .callable⟩
      (Session.start 1 false) = .ok () collecting := rfl
  have hthere : (functionAt? collecting 0 0).isSome = true := by decide +kernel
  obtain ⟨f, hf⟩ := Option.isSome_iff_exists.mp hthere
  have hpushes : Pushes idle (.function 0 collect [.str "all"]) f := ⟨0, _, _, _, rfl, hpushed, hf⟩
  have hcalled : functionAt? collected 0 0 = some f := hf
  obtain ⟨signature, hsignature, hmarshals⟩ := @call_marshals idle 9 0 collected collect
    [.str "all"] 0 0 3 1 f hordered hpushes collected_framed (by decide +kernel)
    (by decide +kernel) (by decide +kernel) hcalled
  refine ⟨hordered, ⟨f, hpushes, hcalled⟩, ?_⟩
  let rows : TypeExpr := .generic (.sequence .list) [.cls (.integer .plain)]
  have hown : collect.signature idle.classes [.str "all"]
      = .ok ⟨[⟨.cls (.text .plain), some (.str "all"), false⟩, ⟨rows, none, true⟩], .any⟩ := rfl
  obtain rfl := Except.ok.inj (hown.symm.trans hsignature)
  let read := [.default (.str "all"), .slot 2 rows].mapM
    (fetch idle (runBlock idle 9) 9 0 "collect") (entering 0 1 collected)
  have hstops : (match read with
      | .ok _ u => failure? (readValue idle (runBlock idle 9) 9 0 .strict 3 rows u)
      | .error _ _ => none) = some (.mismatch .string .number) := by decide +kernel
  cases hread : read with
  | error e u =>
      rw [hread] at hstops
      cases hstops
  | ok args u =>
      rw [hread] at hstops
      obtain ⟨v, hv⟩ := stopped_of_failure? hstops
      obtain ⟨t, hcall, hslots, _, hreports⟩ := hmarshals.mismatched
        [.default (.str "all"), .slot 2 rows] [] 3 rows args u .string .number v rfl hread hv
      exact ⟨t, hcall, hslots, hreports⟩

end Bridge

end StackBridge
