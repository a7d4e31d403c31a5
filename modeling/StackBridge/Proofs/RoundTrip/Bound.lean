import StackBridge.Proofs.Frames.Hosted
import StackBridge.Proofs.RoundTrip.Arguments
import StackBridge.Proofs.RoundTrip.Whole
import StackBridge.Proofs.Wrapper.References

/-!
Calling through a machine. A function of the program that has been pushed and
read back as a bound function is called as if directly: it is entered once, with
the arguments that were given, and what its body comes to is what the call comes
to, a result as itself and a failure under the name of its kind.

All that happens before the body runs is in `Entered`, and nothing of it depends
on what the body does; all that happens afterwards is decided by what the body
has come to (`Comes`).
-/

namespace StackBridge

open Session

namespace Bridge

variable {R : String → Prop} {ctx : Context} {k : MachineId} {s t u : Session} {n fuel : Nat}
  {spec : FunctionSpec} {args vs : List HostValue} {params : List TypeExpr} {returns : TypeExpr}
  {run : BlockId → Action Unit} {name : String}

-- ================================================================= entering

/-- What a function of the program finds when it is entered: the machine open,
the arguments as they were given, and the entry reported. -/
structure Entered (ctx : Context) (k : MachineId) (spec : FunctionSpec)
    (args vs : List HostValue) (s u : Session) : Prop where
  ready : Ready k u
  canonical : vs.map HostValue.canonical = args.map HostValue.canonical
  equal : ∀ p ∈ vs.zip args, equal ctx.classes p.1 p.2 u = .ok true u
  reported : ∃ views, View.ofValues u.wrapperText vs = .ok views
    ∧ u.reports = .entry spec.name views :: s.reports

/-- Copies of arguments fit the same types. -/
theorem fits_copies {cs : Classes} (hargs : List.Forall₂ (Fits cs) args params)
    (hvs : vs.map HostValue.canonical = args.map HostValue.canonical) :
    List.Forall₂ (Fits cs) vs params
      ∧ ∀ p ∈ vs.zip args, ∃ t, Fits cs p.2 t ∧ p.1.canonical = p.2.canonical := by
  induction hargs generalizing vs with
  | nil =>
      rw [List.map_eq_nil_iff.mp hvs]
      exact ⟨.nil, fun p hp => absurd hp List.not_mem_nil⟩
  | @cons v t args params hv _ ih =>
      cases vs with
      | nil => cases hvs
      | cons v' vs =>
          obtain ⟨hhead, htail⟩ := List.cons.inj hvs
          obtain ⟨hfits, hpairs⟩ := ih htail
          refine ⟨.cons (hv.of_canonical hhead) hfits, fun p hp => ?_⟩
          rw [List.zip_cons_cons] at hp
          rcases List.mem_cons.mp hp with rfl | hmem
          · exact ⟨t, hv, hhead⟩
          · exact hpairs p hmem

theorem mapM_view {views : List View} (h : View.ofValues s.wrapperText vs = .ok views) :
    vs.mapM view s = .ok views s := by
  induction vs generalizing views with
  | nil =>
      cases h
      rfl
  | cons v vs ih =>
      rw [View.ofValues] at h
      have hview : view v s = ofHost (View.ofValue s.wrapperText v) s := rfl
      cases hv : View.ofValue s.wrapperText v with
      | error f =>
          rw [hv] at h
          cases h
      | ok w =>
          rw [hv] at h hview
          cases hvs : View.ofValues s.wrapperText vs with
          | error f =>
              rw [hvs] at h
              cases h
          | ok ws =>
              rw [hvs] at h
              cases h
              rw [List.mapM_cons]
              exact (bind_ok hview).trans ((bind_ok (ih hvs)).trans rfl)

/-- Calling such a function with copies of fitting arguments runs its body with
them, once the entry has been reported. -/
theorem callFunction_declared (run : BlockId → Action Unit)
    (hspec : spec.Declares ctx.classes params returns)
    (hargs : List.Forall₂ (Fits ctx.classes) args params)
    (hvs : vs.map HostValue.canonical = args.map HostValue.canonical) (hr : Ready k s) :
    ∃ u, Entered ctx k spec args vs s u ∧ u.heap = s.heap ∧ u.machines = s.machines
      ∧ u.encoding = s.encoding
      ∧ callFunction ctx run spec [] vs s = runBody ctx run spec vs u := by
  obtain ⟨hfits, hpairs⟩ := fits_copies hargs hvs
  obtain ⟨views, hviews⟩ : ∃ views, View.ofValues s.wrapperText vs = .ok views :=
    View.ofValues_ok fun v hv => by
      obtain ⟨t, ht⟩ := mem_zip_of_mem hfits.length_eq hv
      exact View.ofValue_fits ((List.forall₂_zip hfits) ht)
  obtain ⟨hcomplete, htakes⟩ := hspec.complete hfits.length_eq
  refine ⟨{ s with reports := .entry spec.name views :: s.reports },
    ⟨⟨hr.machine, hr.live, hr.encoding⟩, hvs, fun p hp => ?_, views, hviews, rfl⟩, rfl, rfl, rfl, ?_⟩
  · obtain ⟨t, hfit, heq⟩ := hpairs p hp
    exact equal_ok hfit heq _
  · unfold callFunction
    rw [bind_ok (mapM_view hviews)]
    simp only [hcomplete, htakes, Bool.not_true, Bool.false_eq_true, if_false]
    rfl

/-- What a function that was made of one of the program does with the answer of
its body, and how many results it has then. -/
def answering (ctx : Context) (k : MachineId) (returns : TypeExpr) (result : HostValue) :
    Action Int :=
  if returns = .cls .none then return 0
  else do
    pushValue ctx k result returns
    return 1

theorem answering_eq (h : Calls R params returns) (ctx : Context) (k : MachineId)
    (result : HostValue) :
    (if (Signature.positional params returns).returnsNothing
        || ((Signature.positional params returns).returns = .any && result.isNone) then return 0
      else do
        pushValue ctx k result (if (Signature.positional params returns).returns = .any then .none
          else (Signature.positional params returns).returns)
        return 1 : Action Int) = answering ctx k returns result := by
  show (if (decide (returns = .none) || decide (returns = .cls .none)
      || (decide (returns = .any) && result.isNone)) = true then return 0
    else do
      pushValue ctx k result (if returns = .any then .none else returns)
      return 1 : Action Int) = _
  unfold answering
  rcases h.returns with rfl | hbuilt
  · rfl
  · have hnone : returns ≠ .none := hbuilt.ne_none
    have hclass : returns ≠ .cls .none := by rintro rfl; cases hbuilt
    have hany : returns ≠ .any := by rintro rfl; cases hbuilt
    simp only [decide_eq_false hnone, decide_eq_false hclass, decide_eq_false hany, Bool.or_self,
      Bool.false_and, Bool.false_eq_true, if_false, if_neg hclass, if_neg hany]

/-- The frame of a call: a machine function has been pushed, and above it what
stands for the arguments; the frame begins with the first of them. -/
structure Framing (k : MachineId) (args : List HostValue) (s : Session) : Prop where
  ready : Ready k s
  slots : ∃ l ws fs, (s.machine k).slots = l ++ ws ∧ (s.machine k).frames = l.length :: fs
    ∧ HoldsEach .utf8 s.heap 0 ws args

/-- The arguments have been read when the function is entered; unless one of
them nests too deeply, and then it is not entered. -/
theorem callThrough_enters (n : Nat) (name : String) (run : BlockId → Action Unit)
    (hopens : ∀ name, R name → Opens ctx.classes R name)
    (hspec : spec.Declares ctx.classes params returns) (hcalls : Calls R params returns)
    (hargs : Passable ctx.classes fuel args params) (hframing : Framing k args s) :
    ((∀ v ∈ args, v.levels ≤ readLimit) ∧ ∃ vs u, Entered ctx k spec args vs s u
        ∧ Leaves (fun _ _ => True) k [] s u ∧ u.encoding = s.encoding
        ∧ callThrough ctx run fuel k name (.function n spec []) (.positional params returns) s
            = (runBody ctx run spec vs >>= answering ctx k returns) u)
      ∨ ((∃ v ∈ args, readLimit < v.levels) ∧ ∃ u, Keeping k [] s u
        ∧ callThrough ctx run fuel k name (.function n spec []) (.positional params returns) s
            = .error tooDeep u) := by
  obtain ⟨l, ws, fs, hslots, hframes, hw⟩ := hframing.slots
  have hbefore : (s.machine k).slots = l ++ [] ++ ws := by
    rw [List.append_nil]
    exact hslots
  have hread := readArguments_reads run (fun i => .badArgument i (some name))
    (((s.machine k).slots.length : Int) - l.length) hopens hcalls.params hargs hframing.ready
    hbefore hframes hw (Leaves.refl s)
  have hthrough : callThrough ctx run fuel k name (.function n spec [])
      (.positional params returns) s = (do
        let args ← readArguments (fun t i => readValue ctx run fuel k
          (.badArgument i (some name)) i t) k (((s.machine k).slots.length : Int) - l.length) 1
          (params.map fun t => ⟨t, none, false⟩)
        let result ← callFunction ctx run spec [] args
        answering ctx k returns result) s := by
    unfold callThrough
    rw [bind_ok (getTop_eq hframes)]
    refine congrFun (bind_congr fun args => bind_congr fun result => ?_) s
    exact answering_eq hcalls ctx k result
  rw [List.length_nil, Int.natCast_zero, Int.zero_add] at hread
  cases hresult : readArguments (fun t i => readValue ctx run fuel k
      (.badArgument i (some name)) i t) k (((s.machine k).slots.length : Int) - l.length) 1
      (params.map fun t => ⟨t, none, false⟩) s with
  | error e t =>
      rw [hresult] at hread
      obtain ⟨⟨hdeep, rfl⟩, ht⟩ := hread
      exact Or.inr ⟨hdeep, t, ht, hthrough.trans (bind_error hresult)⟩
  | ok vs t =>
      rw [hresult] at hread
      obtain ⟨hshallow, hvs, ht⟩ := hread
      obtain ⟨u, hentered, hheap, hmachines, hencoding, hcall⟩ :=
        callFunction_declared run hspec hargs.fits hvs (hframing.ready.during ht)
      have hmachine : u.machine k = t.machine k := congrArg (·.getD k (.fresh 0)) hmachines
      refine Or.inl ⟨hshallow, vs, u, ⟨hentered.ready, hvs, hentered.equal, ?_⟩,
        ⟨?_, ?_, ?_, ?_, ?_, trivial⟩, hencoding.trans ht.rest.encoding, ?_⟩
      · obtain ⟨views, hviews, hreports⟩ := hentered.reported
        exact ⟨views, hviews, hreports.trans (congrArg _ ht.rest.reports)⟩
      · exact (congrArg Machine.slots hmachine).trans ht.slots
      · exact (congrArg Machine.frames hmachine).trans ht.frames
      · exact (congrArg Machine.registry hmachine).trans ht.registry
      · exact (congrArg Machine.closed hmachine).trans ht.closed
      · exact (congrArg Array.size hmachines).trans ht.size
      · rw [hthrough, bind_ok hresult, bind_apply, hcall, bind_apply]

-- ================================================================== calling

/-- Above what a machine held, a machine function and what stands for its
arguments. -/
structure Laid (k : MachineId) (f : FunctionObject) (args : List HostValue) (s t : Session) :
    Prop where
  ready : Ready k t
  framed : t.Framed
  frames : (t.machine k).frames = (s.machine k).frames
  slots : ∃ id ws, (t.machine k).slots = (s.machine k).slots ++ .function id :: ws
    ∧ t.heap.function? id = some f ∧ HoldsEach .utf8 t.heap 0 ws args
  reports : t.reports = s.reports

namespace Laid

variable {f : FunctionObject}

/-- The function is where a call looks for it. -/
theorem functionAt (h : Laid k f args s t) :
    ((s.machine k).slots.length : Int) = (t.machine k).slots.length - args.length - 1
      ∧ functionAt? t k (s.machine k).slots.length = some f := by
  obtain ⟨id, ws, hslots, hf, hw⟩ := h.slots
  refine ⟨?_, ?_⟩
  · rw [hslots, List.length_append, List.length_cons, hw.length]
    omega
  · unfold functionAt?
    rw [hslots, List.getElem?_append_right (Nat.le_refl _), Nat.sub_self]
    simp [hf]

theorem base_le (h : Laid k f args s t) (hs : s.Framed) (hl : (s.machine k).Live) :
    (t.machine k).baseOf ≤ (s.machine k).slots.length := by
  unfold Machine.baseOf
  rw [h.frames]
  exact (hs k hl.opened).base_le

/-- The frame of the call begins with the arguments. -/
theorem framing (h : Laid k f args s t) :
    Framing k args (entering k ((s.machine k).slots.length + 1) t) := by
  obtain ⟨id, ws, hslots, _, hw⟩ := h.slots
  have hmachine := entering_machine h.ready.machine ((s.machine k).slots.length + 1)
  refine ⟨⟨?_, ?_, h.ready.encoding⟩, (s.machine k).slots ++ [.function id], ws,
    (t.machine k).frames, ?_, ?_, hw⟩
  · exact Nat.lt_of_lt_of_eq h.ready.machine (withVm_size t k _).symm
  · rw [hmachine]
    refine ⟨h.ready.live.opened, _, _, rfl, ?_⟩
    rw [hslots, List.length_append, List.length_cons]
    omega
  · rw [hmachine, ← List.append_cons]
    exact hslots
  · rw [hmachine, List.length_append]
    rfl

/-- And the machine is framed in it. -/
theorem entered (h : Laid k f args s t) (hs : s.Framed) (hl : (s.machine k).Live) :
    ((entering k ((s.machine k).slots.length + 1) t).machine k).Framed := by
  obtain ⟨id, ws, hslots, _, _⟩ := h.slots
  rw [entering_machine h.ready.machine]
  refine (h.framed k h.ready.live.opened).enter (Nat.le_succ_of_le (h.base_le hs hl)) ?_
  rw [hslots, List.length_append, List.length_cons]
  omega

end Laid

/-- The call of a bound function, once function and arguments have been pushed. -/
def completing (ctx : Context) (run : BlockId → Action Unit) (fuel : Nat) (k : MachineId)
    (returns : TypeExpr) (count : Int) : Action HostValue := do
  call ctx run fuel k count (if returns = .cls .none then 0 else 1)
  if returns = .cls .none then return .none else popValue ctx run fuel k .standard returns

/-- A call of a bound function lays function and arguments, and goes on from
there. -/
theorem callBound_lays (run : BlockId → Action Unit)
    (hopens : ∀ name, R name → Opens ctx.classes R name) (hcalls : Calls R params returns)
    {id : Nat} (hs : s.Framed) (hr : Ready k s)
    (hbinds : Binds k id n spec params returns s)
    (hargs : Passable ctx.classes fuel args params) :
    ∃ t, Laid k (madeOf n spec params returns) args s t
      ∧ ∃ block, callBound ctx run fuel id (some params) returns args s = restoringTop k block s
        ∧ block s = completing ctx run fuel k returns args.length t := by
  obtain ⟨a, hwrapper⟩ := hbinds.machine
  obtain ⟨f, hheld, hf⟩ := hbinds.held
  have hlength := hargs.fits.length_eq
  let s₁ := s.withSlots k ((s.machine k).slots ++ [.function f])
  have hfirst : pushWrapped id s = .ok () s₁ := pushWrapped_live hwrapper hheld rfl
  have hadds : Adds k [.function f] s s₁ := push_leaves hr.machine _
  obtain ⟨ws, t, hpush, hadds', hw, hreports⟩ :=
    pushArguments_stores hopens hcalls.params hargs (hr.after hadds)
  have hconfined : Confined s t := by
    have h := ((holds_pushWrapped id).keeps : Keeps Confined (pushWrapped id)) s
    have h' := ((holds_pushArguments (k := k) trivial args params).keeps :
      Keeps Confined (pushArguments ctx k args params)) s₁
    rw [hfirst] at h
    rw [hpush] at h'
    exact h.trans h'
  have hfunctions : Heap.KeepsFunctions s.heap t.heap := by
    have h := ((holds_pushArguments (k := k) trivial args params).keeps :
      Keeps (OnHeap Heap.KeepsFunctions) (pushArguments ctx k args params)) s₁
    rw [hpush] at h
    exact h
  have hdiscards : (returns = .none ∨ returns = .cls .none) = (returns = .cls .none) := by
    rcases hcalls.returns with rfl | hbuilt
    · simp
    · simp [hbuilt.ne_none]
  refine ⟨t, ⟨(hr.after hadds).after hadds', fun j hj => ?_, hadds'.frames.trans hadds.frames,
    ⟨f, ws, ?_, hfunctions f _ hf, hw.length,
      fun p hp => (hw.each p hp).mono (.refl _ _) (Nat.zero_le _)⟩, hreports⟩,
    (do
      pushWrapped id
      pushArguments ctx k args params
      completing ctx run fuel k returns args.length), ?_, ?_⟩
  · exact (hconfined.machine j).framed hj (hs j ((hconfined.machine j).opened hj))
  · rw [hadds'.slots, hadds.slots, List.append_assoc]
    rfl
  · unfold callBound
    rw [bind_ok (get_apply s), hwrapper]
    simp only [Option.getD_some, Option.isSome_some, hlength, bne_self_eq_false, Bool.and_false,
      Bool.false_eq_true, if_false, hdiscards]
    rfl
  · rw [bind_ok hfirst, bind_ok hpush]

-- ================================================================ returning

/-- Machine `k` is back where it was before a call, with nothing reported since
some moment of it. -/
structure Back (k : MachineId) (s w t : Session) : Prop where
  slots : (t.machine k).slots = (s.machine k).slots
  frames : (t.machine k).frames = (s.machine k).frames
  reports : t.reports = w.reports

/-- What a call of a bound function comes to where the body of the function has
come to `r`. -/
def Comes (ctx : Context) (fuel : Nat) (k : MachineId) (returns : TypeExpr) (s : Session)
    (called : EStateM.Result Stop Session HostValue) : EStateM.Result Stop Session HostValue → Prop
  | .ok r w =>
    (returns = .cls .none → ∃ t, called = .ok .none t ∧ Back k s w t)
      ∧ (Fits ctx.classes r returns → r.levels ≤ readLimit → sizeOf r ≤ fuel →
          w.encoding = .utf8 →
          ∃ r' t, called = .ok r' t ∧ r'.canonical = r.canonical
            ∧ equal ctx.classes r' r t = .ok true t ∧ Back k s w t)
  | .error (.failed e) w =>
    ∃ t, called = .error (.failed (escaping e)) t ∧ Back k s w t
      ∧ ∀ b, e.kind ≠ .machine → e.kind ≠ .imbalance → e.text.encode = .ok b →
          escaping e = .machine (.str (utf8 (e.kind.label ++ ": ") ++ b)) (some e.kind)
  | .error .exhausted w => ∃ t, called = .error .exhausted t ∧ Back k s w t

section

variable {w : Session} {f : FunctionObject} {block : Action HostValue}

/-- A function that stops in its frame stops the call, and the stack is as it was
before. -/
theorem completing_stopped (hs : s.Framed) (hr : Ready k s) (hlaid : Laid k f args s t)
    (hblock : block s = completing ctx (runBlock ctx fuel) fuel k returns args.length t) {e : Stop}
    (hinvoke : invoke ctx (runBlock ctx fuel) fuel k f
      (entering k ((s.machine k).slots.length + 1) t) = .error e w)
    (hopen : (w.machine k).closed = false) :
    ∃ u, restoringTop k block s = .error e u ∧ Back k s w u := by
  obtain ⟨hposition, hf⟩ := hlaid.functionAt
  have hbase := hlaid.base_le hs hr.live
  have hin : Invoked k (s.machine k).slots.length t w :=
    invoked hlaid.framed hbase hf (congrArg final hinvoke) hopen
  have hcall : block s = .error e (resuming k t (w.machine k).slots w) := by
    rw [hblock]
    exact bind_error (call_stopped hlaid.framed hposition hbase hf hinvoke hopen)
  have hkw : k < w.machines.size := by rw [hin.size]; exact hin.inside
  have hkr : k < (resuming k t (w.machine k).slots w).machines.size :=
    Nat.lt_of_lt_of_eq hkw (withVm_size w k _).symm
  have hmachine := resuming_machine (s := t) hkw (w.machine k).slots
  obtain ⟨id, ws, hslots, _, _⟩ := hlaid.slots
  have hbelow : (w.machine k).slots
      = (s.machine k).slots ++ (w.machine k).slots.drop (s.machine k).slots.length := by
    have h := hin.below
    rw [hslots, List.take_left] at h
    conv_lhs => rw [← List.take_append_drop (s.machine k).slots.length (w.machine k).slots, h]
  have hstopped := restoringTop_stopped hr.live hcall
    (by rw [hmachine]; exact hopen) (by rw [hmachine]; exact hlaid.frames)
    (by rw [hmachine]; exact hbelow)
  refine ⟨_, hstopped, ?_, ?_, rfl⟩
  · rw [withSlots_machine hkr]
  · rw [withSlots_machine hkr, hmachine]
    exact hlaid.frames

/-- A function that claims results which are in its frame: what of them was
wanted is in the place of the function. -/
theorem completing_called (hs : s.Framed) (hr : Ready k s) (hlaid : Laid k f args s t)
    (wanted : Int) (results : List Value) {count : Int}
    (hinvoke : invoke ctx (runBlock ctx fuel) fuel k f
      (entering k ((s.machine k).slots.length + 1) t) = .ok count w)
    (hopen : (w.machine k).closed = false)
    (hcount : count ≤ ((w.machine k).frameSlots.length : Int))
    (hresults : Vm.adjustResults wanted ((w.machine k).frameSlots.rtake count.toNat) = results) :
    call ctx (runBlock ctx fuel) fuel k args.length wanted t
        = .ok () (resuming k t ((s.machine k).slots ++ results) w)
      ∧ k < w.machines.size := by
  obtain ⟨hposition, hf⟩ := hlaid.functionAt
  have hbase := hlaid.base_le hs hr.live
  have hin : Invoked k (s.machine k).slots.length t w :=
    invoked hlaid.framed hbase hf (congrArg final hinvoke) hopen
  have hcall := call_invoked wanted hlaid.framed hposition hbase hf hinvoke hopen hcount
  obtain ⟨id, ws, hslots, _, _⟩ := hlaid.slots
  rw [hresults, hslots, List.take_left] at hcall
  exact ⟨hcall, by rw [hin.size]; exact hin.inside⟩

/-- How a run ends for whom it is called by: of its failures, what leaves it. -/
def escaped {α : Type} : EStateM.Result Stop Session α → EStateM.Result Stop Session α
  | .ok a u => .ok a u
  | .error (.failed e) u => .error (.failed (escaping e)) u
  | .error .exhausted u => .error .exhausted u

theorem invoke_madeOf (s : Session) :
    invoke ctx (runBlock ctx fuel) fuel k (madeOf n spec params returns) s
      = escaped (callThrough ctx (runBlock ctx fuel) fuel k
          ((madeOf n spec params returns).name.getD "") (.function n spec [])
          (.positional params returns) s) := by
  show handling _ (fun e => fail (escaping e)) s = _
  unfold handling
  cases callThrough ctx (runBlock ctx fuel) fuel k ((madeOf n spec params returns).name.getD "")
      (.function n spec []) (.positional params returns) s with
  | ok count u => rfl
  | error e u => cases e <;> rfl

/-- A result in the place of the function is what has come on top of the stack from
before the call. -/
theorem returned_on_top (hr : Ready k s) (hlaid : Laid k f args s t) (hw : Ready k w) (v : Value) :
    Ready k (resuming k t (s.machine k).slots w)
      ∧ Keeping k [v] (resuming k t (s.machine k).slots w)
          (resuming k t ((s.machine k).slots ++ [v]) w) := by
  let base := resuming k t (s.machine k).slots w
  have hmachine : base.machine k
      = { w.machine k with frames := (t.machine k).frames, slots := (s.machine k).slots } :=
    resuming_machine hw.machine _
  have hready : Ready k base := by
    refine ⟨Nat.lt_of_lt_of_eq hw.machine (withVm_size w k _).symm, ⟨?_, ?_⟩, hw.encoding⟩
    · rw [hmachine]
      exact hw.live.opened
    · rw [hmachine, hlaid.frames]
      exact hr.live.framed
  have htop : resuming k t ((s.machine k).slots ++ [v]) w
      = base.withSlots k ((base.machine k).slots ++ [v]) := by
    unfold Session.withSlots
    rw [show base.vm k = _ from vm_withVm hw.machine _, hmachine]
    exact (withVm_withVm w k _ _).symm
  rw [htop]
  exact ⟨hready, push_leaves hready.machine v⟩

/-- What has come on top is the end of the frame. -/
theorem frameSlots_after {xs : List Value} (hl : (s.machine k).Live) (h : Adds k xs s t) :
    (t.machine k).frameSlots = (s.machine k).frameSlots ++ xs := by
  obtain ⟨_, b, fs, hf, hb⟩ := hl
  unfold Machine.frameSlots
  rw [h.frames, hf, h.slots]
  exact List.drop_append_of_le_length hb

/-- The answer of a body that fits the declared result comes back as the answer
of the call. -/
theorem result_returned (hopens : ∀ name, R name → Opens ctx.classes R name)
    (hbuilt : Built R returns) (hs : s.Framed) (hr : Ready k s)
    (hlaid : Laid k (madeOf n spec params returns) args s t)
    (hblock : block s = completing ctx (runBlock ctx fuel) fuel k returns args.length t)
    {r : HostValue}
    (hthrough : callThrough ctx (runBlock ctx fuel) fuel k
        ((madeOf n spec params returns).name.getD "") (.function n spec [])
        (.positional params returns) (entering k ((s.machine k).slots.length + 1) t)
      = answering ctx k returns r w)
    (hr' : Ready k w) (hfits : Fits ctx.classes r returns) (hlevels : r.levels ≤ readLimit)
    (hfuel : sizeOf r ≤ fuel) :
    ∃ r' u, restoringTop k block s = .ok r' u ∧ r'.canonical = r.canonical
      ∧ equal ctx.classes r' r u = .ok true u ∧ Back k s w u := by
  have hclass : returns ≠ .cls .none := by rintro rfl; cases hbuilt
  obtain ⟨v, x, hpush, hadds, hv, hreports⟩ := pushAs_stores hopens pushLimit hbuilt hfits
    hfits.written (Or.inr rfl) (Nat.le_trans hlevels (by decide)) w hr'.coded
  have hpushed : pushValue ctx k r returns w = .ok () x := hpush
  have hinvoke : invoke ctx (runBlock ctx fuel) fuel k (madeOf n spec params returns)
      (entering k ((s.machine k).slots.length + 1) t) = .ok 1 x := by
    rw [invoke_madeOf, hthrough]
    unfold answering
    rw [if_neg hclass, bind_ok hpushed]
    rfl
  have hframe := frameSlots_after hr'.live hadds
  have hrx : Ready k x := hr'.after hadds
  obtain ⟨hcall, _⟩ := completing_called hs hr hlaid 1 [v] hinvoke hrx.live.opened
    (by rw [hframe, List.length_append, List.length_singleton]; omega)
    (by rw [hframe]; simp [List.rtake_concat_succ, Vm.adjustResults])
  -- it is read from the top of the stack from before the call
  obtain ⟨hready, hleaves⟩ := returned_on_top hr hlaid hrx v
  have hmachine := resuming_machine (s := t) hrx.machine (s.machine k).slots
  have hread : Reads k readLimit (readValue ctx (runBlock ctx fuel) fuel k .standard (-1) returns) r
      (resuming k t ((s.machine k).slots ++ [v]) x) :=
    readAs_reads hopens readLimit hbuilt hfits hfuel v _ (hready.during hleaves).coded
      (at_top [] hready.live hleaves) (hv.mono (.refl _ _) (Nat.zero_le _))
  have hpop := popping_reads (fun h => h) hready.coded hleaves hread
  have hcompleted : block s = popValue ctx (runBlock ctx fuel) fuel k .standard returns
      (resuming k t ((s.machine k).slots ++ [v]) x) := by
    rw [hblock]
    unfold completing
    rw [if_neg hclass, if_neg hclass, bind_ok hcall]
  cases hresult : popValue ctx (runBlock ctx fuel) fuel k .standard returns
      (resuming k t ((s.machine k).slots ++ [v]) x) with
  | error e u =>
      rw [show popping _ _ _ = _ from hresult] at hpop
      exact absurd hpop.1.1 (Nat.not_lt.mpr hlevels)
  | ok r' u =>
      rw [show popping _ _ _ = _ from hresult] at hpop
      obtain ⟨_, hr', hu⟩ := hpop
      refine ⟨r', u, restoringTop_ok hr.live (hcompleted.trans hresult), hr',
        equal_ok hfits hr' u, ?_, ?_, ?_⟩
      · rw [hu.slots, hmachine, List.append_nil]
      · rw [hu.frames, hmachine]
        exact hlaid.frames
      · exact hu.rest.reports.trans hreports

/-- A function without a declared result answers nothing. -/
theorem nothing_returned (hs : s.Framed) (hr : Ready k s)
    (hlaid : Laid k (madeOf n spec params (.cls .none)) args s t)
    (hblock : block s = completing ctx (runBlock ctx fuel) fuel k (.cls .none) args.length t)
    {r : HostValue}
    (hthrough : callThrough ctx (runBlock ctx fuel) fuel k
        ((madeOf n spec params (.cls .none)).name.getD "") (.function n spec [])
        (.positional params (.cls .none)) (entering k ((s.machine k).slots.length + 1) t)
      = answering ctx k (.cls .none) r w)
    (hopen : (w.machine k).closed = false) :
    ∃ u, restoringTop k block s = .ok .none u ∧ Back k s w u := by
  have hinvoke : invoke ctx (runBlock ctx fuel) fuel k (madeOf n spec params (.cls .none))
      (entering k ((s.machine k).slots.length + 1) t) = .ok 0 w := by
    rw [invoke_madeOf, hthrough]
    rfl
  obtain ⟨hcall, hkw⟩ := completing_called hs hr hlaid 0 [] hinvoke hopen
    (Int.natCast_nonneg _) (by simp [Vm.adjustResults])
  have hmachine := resuming_machine (s := t) hkw ((s.machine k).slots ++ [])
  refine ⟨_, restoringTop_ok hr.live (hblock.trans (bind_ok hcall)), ?_, ?_, rfl⟩
  · rw [hmachine, List.append_nil]
  · rw [hmachine]
    exact hlaid.frames

/-- Calling a bound function enters the function that it was made of, once and
with the arguments that were given, and comes to what the body of that does. -/
theorem callBound_comes (hopens : ∀ name, R name → Opens ctx.classes R name)
    (hspec : spec.Declares ctx.classes params returns) (hcalls : Calls R params returns) {id : Nat}
    (hs : s.Framed) (hr : Ready k s) (hbinds : Binds k id n spec params returns s)
    (hargs : Passable ctx.classes fuel args params) (hshallow : ∀ v ∈ args, v.levels ≤ readLimit) :
    ∃ vs u, Entered ctx k spec args vs s u
      ∧ (((final (runBody ctx (runBlock ctx fuel) spec vs u)).machine k).closed = false →
          Comes ctx fuel k returns s
            (callBound ctx (runBlock ctx fuel) fuel id (some params) returns args s)
            (runBody ctx (runBlock ctx fuel) spec vs u)) := by
  obtain ⟨t, hlaid, block, hcall, hblock⟩ :=
    callBound_lays (runBlock ctx fuel) hopens hcalls hs hr hbinds hargs
  have henters := callThrough_enters n ((madeOf n spec params returns).name.getD "")
    (runBlock ctx fuel) hopens hspec hcalls hargs hlaid.framing
  rcases henters with ⟨_, vs, u, hentered, hleaves, hencoding, hthrough⟩ | ⟨⟨v, hv, hdeep⟩, _⟩
  case inr => exact absurd (hshallow v hv) (Nat.not_le.mpr hdeep)
  refine ⟨vs, u, ⟨hentered.ready, hentered.canonical, hentered.equal, ?_⟩, fun hopen => ?_⟩
  · obtain ⟨views, hviews, hreports⟩ := hentered.reported
    exact ⟨views, hviews, hreports.trans (congrArg _ hlaid.reports)⟩
  rw [hcall]
  cases hbody : runBody ctx (runBlock ctx fuel) spec vs u with
  | error e w =>
      rw [hbody] at hopen
      rw [bind_error hbody] at hthrough
      have hinvoke := (invoke_madeOf _).trans (congrArg escaped hthrough)
      cases e with
      | exhausted => exact completing_stopped hs hr hlaid hblock hinvoke hopen
      | failed e =>
          obtain ⟨x, hx, hback⟩ := completing_stopped hs hr hlaid hblock hinvoke hopen
          exact ⟨x, hx, hback, fun b hm hi hb => escaping_named hm hi hb⟩
  | ok r w =>
      rw [hbody] at hopen
      rw [bind_ok hbody] at hthrough
      refine ⟨?_, fun hfits hlevels hfuel hutf => ?_⟩
      · rintro rfl
        exact nothing_returned hs hr hlaid hblock hthrough hopen
      · have hbuilt : Built R returns := by
          rcases hcalls.returns with rfl | hbuilt
          · cases hfits
          · exact hbuilt
        have hconfined : Confined u w := by
          have hruns : Contained fun run => runBody ctx run spec vs := holds_runBody spec vs
          have h := hruns.keeps_of_run (keeps_runBlock ctx fuel) u
          rw [hbody] at h
          exact h
        have hframed : (w.machine k).Framed := by
          refine (hconfined.machine k).framed hopen ?_
          unfold Machine.Framed
          rw [hleaves.frames, hleaves.slots, List.append_nil]
          exact hlaid.entered hs hr.live
        refine result_returned hopens hbuilt hs hr hlaid hblock hthrough
          ⟨?_, hframed.live hopen, hutf⟩ hfits hlevels hfuel
        rw [hconfined.size, hleaves.size]
        exact hlaid.framing.ready.machine

/-- An argument that nests more deeply than is read does not reach the function:
the call fails with the fault of reading it, and nothing is entered. -/
theorem callBound_tooDeep (hopens : ∀ name, R name → Opens ctx.classes R name)
    (hspec : spec.Declares ctx.classes params returns) (hcalls : Calls R params returns) {id : Nat}
    (hs : s.Framed) (hr : Ready k s) (hbinds : Binds k id n spec params returns s)
    (hargs : Passable ctx.classes fuel args params) (hdeep : ∃ v ∈ args, readLimit < v.levels) :
    ∃ t, callBound ctx (runBlock ctx fuel) fuel id (some params) returns args s
        = .error (.failed (escaping (.host .tooDeep))) t ∧ Back k s s t := by
  obtain ⟨t, hlaid, block, hcall, hblock⟩ :=
    callBound_lays (runBlock ctx fuel) hopens hcalls hs hr hbinds hargs
  have henters := callThrough_enters n ((madeOf n spec params returns).name.getD "")
    (runBlock ctx fuel) hopens hspec hcalls hargs hlaid.framing
  rcases henters with ⟨hshallow, _⟩ | ⟨_, u, hu, hthrough⟩
  case inl =>
    obtain ⟨v, hv, hlevels⟩ := hdeep
    exact absurd (hshallow v hv) (Nat.not_le.mpr hlevels)
  have hinvoke := (invoke_madeOf _).trans (congrArg escaped hthrough)
  obtain ⟨x, hx, hback⟩ := completing_stopped hs hr hlaid hblock hinvoke
    (hu.closed.trans hlaid.framing.ready.live.opened)
  exact ⟨x, hcall.trans hx, hback.slots, hback.frames,
    hback.reports.trans (hu.rest.reports.trans hlaid.reports)⟩

end

-- ============================================================ there and back

/-- A function of the program can be pushed, by its own signature or as one with
that, and read back as a bound function. -/
theorem function_readable (hopens : ∀ name, R name → Opens ctx.classes R name)
    (hspec : spec.Declares ctx.classes params returns) (hcalls : Calls R params returns)
    {u : TypeExpr} (hu : u = .none ∨ u = .callable (some params) returns) (hr : Ready k s)
    (hs : s.Framed) (hreg : s.Registered) :
    ∃ s₁, pushValue ctx k (.function n spec []) u s = .ok () s₁
      ∧ ∀ handler fuel, ∃ id s₂, readValue ctx (runBlock ctx fuel) fuel k handler (-1)
            (.callable (some params) returns) s₁ = .ok (.bound id (some params) returns) s₂
          ∧ (s₂.machine k).slots = (s₁.machine k).slots
          ∧ (s₂.machine k).frames = (s₁.machine k).frames
          ∧ Ready k s₂ ∧ s₂.Framed ∧ Binds k id n spec params returns s₂ := by
  obtain ⟨s₁, hpush, hadds, hmade⟩ := pushAs_function (n := n) hopens hspec hcalls hu 489 hr
  have hpushed : pushValue ctx k (.function n spec []) u s = .ok () s₁ := hpush
  refine ⟨s₁, hpushed, fun handler fuel => ?_⟩
  have hconfined : Confined s s₁ := by
    have h := (Kept.pushValue k (.function n spec []) u : Keeps Confined (pushValue ctx k _ u)) s
    rw [hpushed] at h
    exact h
  have hregistered : s₁.Registered := by
    have h := (Kept.pushValue k (.function n spec []) u :
      Keeps StaysRegistered (pushValue ctx k _ u)) s
    rw [hpushed] at h
    exact h hreg
  obtain ⟨s₂, id, hread, hleaves, hencoding, hbinds⟩ := readAs_binds (runBlock ctx fuel) fuel
    handler hopens hcalls 244 (hr.after hadds) hregistered
    (at_top [] hr.live hadds) hmade
  have hread' : readValue ctx (runBlock ctx fuel) fuel k handler (-1)
      (.callable (some params) returns) s₁ = .ok (.bound id (some params) returns) s₂ := hread
  have hconfined' : Confined s₁ s₂ := by
    have h : Contained fun run => readValue ctx run fuel k handler (-1)
        (.callable (some params) returns) := holds_readValue trivial fuel handler (-1) _
    have h' := h.keeps_of_run (keeps_runBlock ctx fuel) s₁
    rw [hread'] at h'
    exact h'
  have hslots := hleaves.slots
  rw [List.append_nil] at hslots
  refine ⟨id, s₂, hread', hslots, hleaves.frames, ⟨?_, hleaves.live (hr.after hadds).live,
    hencoding.trans (hr.after hadds).encoding⟩, fun j hj => ?_, hbinds⟩
  · rw [hleaves.size]
    exact (hr.after hadds).machine
  · have hm := (hconfined.trans hconfined').machine j
    exact hm.framed hj (hs j (hm.opened hj))

/-- A program with one body, which answers the first argument. -/
def echoing : Context := ⟨trees.classes, ⟨[], 1, true, #[], #[⟨none, .argument 0⟩], 0⟩⟩

/-- A function with that body, from a type to itself. -/
def echo (t : TypeExpr) : FunctionSpec :=
  ⟨"echo", [⟨"x", some t, false, .positional⟩], some t, false, 0⟩

theorem echo_declares {t : TypeExpr} (h : echoing.classes.hint t = .ok t) :
    (echo t).Declares echoing.classes [t] t where
  shown := rfl
  positional p hp := by
    rw [List.mem_singleton.mp hp]
    exact ⟨rfl, rfl⟩
  params := .cons ⟨t, rfl, h⟩ .nil
  returns := ⟨t, rfl, h⟩

theorem start_ready : Ready 0 (Session.start 1 true) :=
  ⟨by decide, ⟨rfl, 0, [], rfl, by decide⟩, rfl⟩

/-- A program with one function, which closes the machine and answers a number. -/
def closing : Context :=
  ⟨[], ⟨[], 1, true, #[[.close]], #[⟨some 0, .value (.value (.int 5))⟩], 0⟩⟩

/-- Pushes a function without parameters, reads it back as a bound function and
calls that. -/
def throughMachine (ctx : Context) (fuel : Nat) (spec : FunctionSpec) (returns : TypeExpr) :
    Action HostValue := do
  pushValue ctx 0 (.function 7 spec []) .none
  match ← readValue ctx (runBlock ctx fuel) fuel 0 .standard (-1) (.callable (some []) returns) with
  | .bound id params returns =>
    callBound ctx (runBlock ctx fuel) fuel id params returns []
  | v => return v

end Bridge

end StackBridge
