import StackBridge.Bridge.Call
import StackBridge.Proofs.RoundTrip.Value
import StackBridge.Proofs.Session.OnHeap
import StackBridge.Proofs.Wrapper.Wrap

/-!
A function of the program there and back. Pushing one makes a machine function
that calls it through its signature; reading that as a callable with the same
parameters and result makes a bound function, which holds on to the machine
function (`Binds`).
-/

namespace StackBridge

open Bridge

-- ============================================================== signatures

/-- Positional parameters of some types, without defaults. -/
def Signature.positional (params : List TypeExpr) (returns : TypeExpr) : Signature :=
  ⟨params.map fun t => ⟨t, none, false⟩, returns⟩

namespace FunctionSpec

variable {cs : Classes} {spec : FunctionSpec} {params : List TypeExpr} {returns : TypeExpr}

/-- A function that is declared with positional parameters without defaults,
with hints for all of them and for the result. -/
structure Declares (spec : FunctionSpec) (cs : Classes) (params : List TypeExpr)
    (returns : TypeExpr) : Prop where
  shown : spec.object = false
  positional : ∀ p ∈ spec.params, p.kind = .positional ∧ p.hasDefault = false
  params : List.Forall₂ (fun p t => ∃ a, p.type = some a ∧ cs.hint a = .ok t) spec.params params
  returns : ∃ a, spec.returns = some a ∧ cs.hint a = .ok returns

/-- Parameters without defaults have none. -/
theorem withDefaults_none {ps : List ParamSpec} (h : ∀ p ∈ ps, p.hasDefault = false)
    (ds : List HostValue) : withDefaults ps ds = ps.map fun p => (p, none) := by
  induction ps with
  | nil => rfl
  | cons p ps ih =>
      unfold withDefaults
      rw [h p (List.mem_cons_self ..), ih fun q hq => h q (List.mem_cons_of_mem _ hq)]
      rfl

theorem mapM_hintOf {ps : List ParamSpec}
    (h : List.Forall₂ (fun p t => ∃ a, p.type = some a ∧ cs.hint a = .ok t) ps params) :
    (ps.mapM fun p => hintOf cs p.type) = .ok (params.map some) := by
  induction h with
  | nil => rfl
  | cons hp _ ih =>
      obtain ⟨a, htype, hhint⟩ := hp
      rw [List.mapM_cons, ih]
      simp only [htype, hintOf, hhint]
      rfl

theorem zip_positional {f : (ParamSpec × Option HostValue) × Option TypeExpr → Option Param}
    (hf : ∀ p t, p.kind = .positional → f ((p, none), some t) = some ⟨t, none, false⟩)
    {ps : List ParamSpec} (hkind : ∀ p ∈ ps, p.kind = .positional)
    (hlength : ps.length = params.length) :
    ((ps.map fun p => (p, none)).zip (params.map some)).filterMap f
      = params.map fun t => ⟨t, none, false⟩ := by
  induction ps generalizing params with
  | nil =>
      cases params with
      | nil => rfl
      | cons t ts => cases hlength
  | cons p ps ih =>
      cases params with
      | nil => cases hlength
      | cons t ts =>
          have hrest := ih (fun q hq => hkind q (List.mem_cons_of_mem _ hq)) (Nat.succ.inj hlength)
          rw [List.map_cons, List.map_cons, List.zip_cons_cons, List.map_cons, ← hrest]
          exact List.filterMap_cons_some (hf p t (hkind p (List.mem_cons_self ..)))

/-- The signature that such a function shows. -/
theorem Declares.signature (h : spec.Declares cs params returns) :
    spec.signature cs [] = .ok (.positional params returns) := by
  obtain ⟨a, hreturns, hhint⟩ := h.returns
  have hresult : hintOf cs spec.returns = .ok (some returns) := by
    unfold hintOf
    simp only [hreturns, hhint]
    rfl
  have hhints : spec.hints cs = .ok (params.map some, some returns) := by
    unfold FunctionSpec.hints
    simp only [h.shown, mapM_hintOf h.params, hresult]
    rfl
  unfold FunctionSpec.signature
  rw [hhints, withDefaults_none fun p hp => (h.positional p hp).2]
  refine congrArg (fun ps => Except.ok (Signature.mk ps returns)) (zip_positional ?_
    (fun p hp => (h.positional p hp).1) h.params.length_eq)
  intro p t hp
  simp only [hp, Option.getD_some]

/-- Its arguments are complete. -/
theorem Declares.complete (h : spec.Declares cs params returns) {args : List HostValue}
    (hargs : args.length = params.length) :
    spec.completeArguments [] args = args ∧ spec.takes args.length = true := by
  have hall : spec.params.filter (·.kind = .positional) = spec.params :=
    List.filter_eq_self.mpr fun p hp => decide_eq_true (h.positional p hp).1
  have hlength : spec.params.length = args.length := h.params.length_eq.trans hargs.symm
  refine ⟨?_, ?_⟩
  · unfold FunctionSpec.completeArguments
    dsimp only
    have hnone : (((withDefaults spec.params []).filter (·.1.kind = .positional)).drop
        args.length) = [] := by
      rw [withDefaults_none fun p hp => (h.positional p hp).2]
      refine List.drop_eq_nil_of_le (Nat.le_trans (List.length_filter_le _ _) ?_)
      rw [List.length_map, hlength]
    rw [hnone]
    exact List.append_nil args
  · unfold FunctionSpec.takes FunctionSpec.positionalCount
    rw [hall, hlength]
    simp

end FunctionSpec

-- ================================================================== types

theorem Built.mono {R R' : String → Prop} {t : TypeExpr} (h : Built R t)
    (hR : ∀ name, R name → R' name) : Built R' t := by
  induction h with
  | boolean => exact .boolean
  | integer => exact .integer
  | enum e => exact .enum e
  | float => exact .float
  | text => exact .text
  | bytes => exact .bytes
  | array => exact .array
  | list _ ih => exact .list ih
  | tuple _ ih => exact .tuple ih
  | fixedTuple _ ih => exact .fixedTuple ih
  | mapping kind _ _ ihk ihv => exact .mapping kind ihk ihv
  | record allowed => exact .record (hR _ allowed)

/-- Supported types are built from the same record classes: all that are allowed
anywhere. -/
theorem Classes.supports_together (cs : Classes) :
    ∃ R : String → Prop, (∀ name, R name → Opens cs R name)
      ∧ ∀ t, cs.Supports t → Built R t := by
  refine ⟨fun name => ∃ R : String → Prop, (∀ n, R n → Opens cs R n) ∧ R name, ?_, ?_⟩
  · rintro name ⟨R, hopens, hname⟩
    have h := hopens name hname
    refine ⟨h.distinct, h.init, fun f hf => ?_⟩
    obtain ⟨a, t, htype, hhint, hbuilt⟩ := h.hinted f hf
    exact ⟨a, t, htype, hhint, hbuilt.mono fun n hn => ⟨R, hopens, hn⟩⟩
  · rintro t ⟨R, hopens, hbuilt⟩
    exact hbuilt.mono fun n hn => ⟨R, hopens, hn⟩

/-- Parameters and result of a function whose values come back: each of a built
type, or no result. -/
structure Calls (R : String → Prop) (params : List TypeExpr) (returns : TypeExpr) : Prop where
  params : ∀ t ∈ params, Built R t
  returns : returns = .cls .none ∨ Built R returns

namespace Calls

variable {R : String → Prop} {cs : Classes} {params : List TypeExpr} {t returns : TypeExpr}
  {operation : String}

theorem signaturePart_built (h : Built R t) : t.signaturePart = t := by
  cases h <;> rfl

/-- A signature of such types is written as it is. -/
theorem callable_eq (h : Calls R params returns) :
    TypeExpr.callable (some params) returns
      = .generic .abstractCallable [.params params, returns] := by
  have hparams : TypeExpr.signatureParams (some params) = .params params := by
    have hall : params.map TypeExpr.signaturePart = params := by
      conv_rhs => rw [← List.map_id params]
      exact List.map_congr_left fun t ht => signaturePart_built (h.params t ht)
    unfold TypeExpr.signatureParams
    split
    case h_1 heq => cases heq
    case h_2 heq =>
      cases heq
      cases h.params .ellipsis (List.mem_singleton.mpr rfl)
    case h_3 members heq =>
      cases heq
      cases h.params (.group members) (List.mem_singleton.mpr rfl)
    case h_4 ps _ _ heq =>
      cases heq
      rw [hall]
  have hreturns : returns.signaturePart = returns := by
    rcases h.returns with rfl | hbuilt
    · rfl
    · exact signaturePart_built hbuilt
  unfold TypeExpr.callable
  rw [hparams, hreturns]

/-- A result can be described, if there is one. -/
theorem accepts_returns (hopens : ∀ name, R name → Opens cs R name)
    (h : Calls R params returns) : Accepts (describeIn cs operation returns) := by
  rcases h.returns with rfl | hbuilt
  · exact accepts_enrol rfl accepts_pure
  · exact accepts_describeIn hopens hbuilt

/-- So can the type of such functions. -/
theorem accepts_callable (operation : String) (hopens : ∀ name, R name → Opens cs R name)
    (h : Calls R params returns) :
    Accepts (describeIn cs operation (.callable (some params) returns)) := by
  rw [h.callable_eq]
  refine accepts_enrol rfl ?_
  have hargs : describeArgs (describeRecord cs operation cs.length) operation
      [.params params, returns] = (do
        describeTypes (describeRecord cs operation cs.length) operation params
        describeIn cs operation returns
        pure ()) := by
    rcases h.returns with rfl | hbuilt
    · rfl
    · cases hbuilt <;> rfl
  rw [hargs]
  exact (accepts_describeTypes fun t ht => accepts_describeIn hopens (h.params t ht)).bind
    ((h.accepts_returns hopens).bind accepts_pure)

end Calls

-- ================================================================= pushing

namespace Bridge

open Session

variable {R : String → Prop} {ctx : Context} {k : MachineId} {s t : Session} {n : Nat}
  {spec : FunctionSpec} {params : List TypeExpr} {returns u : TypeExpr}

/-- The machine function that is made of a function of the program. -/
def madeOf (n : Nat) (spec : FunctionSpec) (params : List TypeExpr) (returns : TypeExpr) :
    FunctionObject :=
  ⟨some (HostValue.function n spec []).callableName,
    .host (.function n spec []) (.positional params returns)⟩

/-- Describing parameters that can be described. -/
theorem describeParams_ok (returns : TypeExpr) (hopens : ∀ name, R name → Opens ctx.classes R name)
    (hbuilt : ∀ t ∈ params, Built R t) (s : Session) :
    ∃ noted, (forIn (Signature.positional params returns).params PUnit.unit fun p _ => do
        let _ ← describe ctx p.type "read"
        pure (ForInStep.yield PUnit.unit) : Action PUnit) s
      = .ok ⟨⟩ { s with described := noted } := by
  induction params generalizing s with
  | nil => exact ⟨s.described, rfl⟩
  | cons t ts ih =>
      have ht := hbuilt t (List.mem_cons_self ..)
      obtain ⟨host, hhost⟩ := hostType_built ht
      obtain ⟨noted, hnoted⟩ :=
        describe_ok "read" (accepts_describeIn hopens ht) s
      obtain ⟨noted', hrest⟩ := ih (fun u hu => hbuilt u (List.mem_cons_of_mem _ hu))
        { s with described := noted }
      refine ⟨noted', ?_⟩
      rw [show (Signature.positional (t :: ts) returns).params
        = ⟨t, none, false⟩ :: (Signature.positional ts returns).params from rfl, List.forIn_cons]
      have hfirst : (do
          let _ ← describe ctx t "read"
          pure (ForInStep.yield PUnit.unit) : Action (ForInStep PUnit)) s
            = .ok (.yield ⟨⟩) { s with described := noted } := by
        rw [bind_ok (hnoted host hhost)]
        rfl
      rw [bind_ok hfirst]
      exact hrest

/-- Making a machine function of a function through a signature that can be
described. -/
theorem pushCallable_function (hopens : ∀ name, R name → Opens ctx.classes R name)
    (hspec : spec.Declares ctx.classes params returns) (hcalls : Calls R params returns)
    {host : HostType} (hargs : Signature.ofCallableArgs host.args = none
      ∨ Signature.ofCallableArgs host.args = some (.positional params returns)) (hr : Ready k s) :
    ∃ t, pushCallable ctx k (.function n spec []) host s = .ok () t
      ∧ Adds k [.function s.heap.functions.size] s t
      ∧ t.heap.function? s.heap.functions.size = some (madeOf n spec params returns) := by
  obtain ⟨noted, hparams⟩ := describeParams_ok returns hopens hcalls.params s
  obtain ⟨noted', hreturns⟩ := describe_ok "push"
    (hcalls.accepts_returns hopens) { s with described := noted }
  obtain ⟨hostR, hhostR⟩ : ∃ host, returns.hostType? = some host := by
    rcases hcalls.returns with rfl | hbuilt
    · exact ⟨_, rfl⟩
    · exact hostType_built hbuilt
  have hsame : Adds k [] s { s with described := noted' } := Leaves.same rfl rfl rfl rfl rfl
  obtain ⟨t, ht, hadds⟩ := pushFunction_ends (hr.after hsame).machine (madeOf n spec params returns)
  refine ⟨t, ?_, hsame.trans hadds, ?_⟩
  · have hrest : (do
        for p in (Signature.positional params returns).params do
          let _ ← describe ctx p.type "read"
        let _ ← describe ctx (Signature.positional params returns).returns "push"
        onMachine k (Vm.pushFunction (madeOf n spec params returns)) : Action Unit) s
          = .ok () t := by
      rw [bind_ok hparams]
      exact (bind_ok (hreturns hostR hhostR)).trans ht
    unfold pushCallable
    rcases hargs with hnone | hsome
    · have hown : (ofHost ((HostValue.function n spec []).signature ctx.classes) : Action Signature)
          s = .ok (.positional params returns) s := by
        show ofHost (spec.signature ctx.classes []) s = _
        rw [hspec.signature]
        rfl
      simp only [hnone]
      rw [bind_ok hown]
      exact hrest
    · simp only [hsome]
      exact hrest
  · rw [onMachine_ok (Vm.pushFunction_eq _ _)] at ht
    cases ht
    show (s.heap.functions.push _)[s.heap.functions.size]? = some _
    rw [Array.getElem?_push_size]

/-- Pushing such a function, by its own signature or as one with the same
parameters and result, makes a machine function of it. -/
theorem pushAs_function (hopens : ∀ name, R name → Opens ctx.classes R name)
    (hspec : spec.Declares ctx.classes params returns) (hcalls : Calls R params returns)
    (hu : u = .none ∨ u = .callable (some params) returns) (limit : Nat) (hr : Ready k s) :
    ∃ t, pushAs ctx k (limit + 1) (.function n spec []) u s = .ok () t
      ∧ Adds k [.function s.heap.functions.size] s t
      ∧ t.heap.function? s.heap.functions.size = some (madeOf n spec params returns) := by
  have hclass : (HostValue.function n spec []).hostClass = .function := by
    show (if spec.object = true then HostClass.callableObject else .function) = .function
    rw [hspec.shown]
    rfl
  -- either type is one of callables, and gives that signature
  obtain ⟨u', host, hu', hhost, hshape, haccepts, hargs⟩ : ∃ u' host,
      (if u = .none then .cls (HostValue.function n spec []).hostClass else u) = u'
        ∧ u'.hostType? = some host ∧ host.shape = .callable
        ∧ Accepts (describeIn ctx.classes "push" u')
        ∧ (Signature.ofCallableArgs host.args = none
          ∨ Signature.ofCallableArgs host.args = some (.positional params returns)) := by
    rcases hu with rfl | rfl
    · rw [hclass]
      exact ⟨_, ⟨.cls .function, .callable⟩, if_pos rfl, rfl, rfl, accepts_enrol rfl accepts_pure,
        Or.inl rfl⟩
    · have haccepts := hcalls.accepts_callable "push" hopens
      rw [hcalls.callable_eq] at haccepts ⊢
      exact ⟨_, ⟨.generic .abstractCallable [.params params, returns], .callable⟩, if_neg nofun,
        rfl, rfl, haccepts, Or.inr rfl⟩
  obtain ⟨noted, hpush⟩ := pushAs_of_shape limit hr.live hu' hhost haccepts
  have hsame : Adds k [] s { s with described := noted } := Leaves.same rfl rfl rfl rfl rfl
  obtain ⟨t, ht, hadds, hmade⟩ :=
    pushCallable_function (n := n) hopens hspec hcalls hargs (hr.after hsame)
  have hshaped : pushShape ctx (pushAs ctx k limit) k (.function n spec []) host
      { s with described := noted } = .ok () t := by
    unfold pushShape
    rw [hshape]
    exact ht
  exact ⟨t, hpush hshaped hadds, hsame.trans hadds, hmade⟩

-- ================================================================= reading

/-- A wrapper that holds on to the machine function that was made of a function
of the program. -/
structure Binds (k : MachineId) (id n : Nat) (spec : FunctionSpec) (params : List TypeExpr)
    (returns : TypeExpr) (s : Session) : Prop where
  machine : ∃ a, s.wrapper id = ⟨k, a⟩
  held : ∃ f, s.wrapped? id = some (.function f)
    ∧ s.heap.function? f = some (madeOf n spec params returns)

/-- Wrapping the machine function of a function of the program. -/
theorem wrap_binds {f : FunctionId} (hr : Ready k s) (hreg : s.Registered)
    (hat : At k s (-1) (.function f))
    (hf : s.heap.function? f = some (madeOf n spec params returns)) :
    ∃ t, wrap k (-1) s = .ok s.wrappers.size t
      ∧ Leaves (fun _ _ => True) k [] s t ∧ t.encoding = s.encoding
      ∧ Binds k s.wrappers.size n spec params returns t := by
  obtain ⟨t, r, hwrap, hwrapper, hkept, hleaves, hcollects⟩ :=
    wrap_collects hr.machine hr.live (hreg k hr.machine) hat.value nofun
  refine ⟨t, hwrap, ⟨hleaves.slots, hleaves.frames, hleaves.registry, hleaves.closed,
    hleaves.size, trivial⟩, hcollects.encoding, ⟨_, hwrapper⟩, f, ?_, ?_⟩
  · rw [wrapped?_entry hwrapper]
    show some (((t.registryTable k).find? (.int r)).getD .nil) = _
    rw [hkept]
    rfl
  · unfold Heap.function?
    rw [hcollects.functions]
    exact hf

variable {run : BlockId → Action Unit} {fuel : Nat} {handler : Handler}

/-- Reading it as a callable with the same parameters and result makes a bound
function. -/
theorem readAs_binds (run : BlockId → Action Unit) (fuel : Nat) (handler : Handler)
    (hopens : ∀ name, R name → Opens ctx.classes R name)
    (hcalls : Calls R params returns) (depth : Nat) {f : FunctionId} (hr : Ready k s)
    (hreg : s.Registered) (hat : At k s (-1) (.function f))
    (hf : s.heap.function? f = some (madeOf n spec params returns)) :
    ∃ t id, readAs ctx run fuel k handler (depth + 1) (-1) (.callable (some params) returns) s
        = .ok (.bound id (some params) returns) t
      ∧ Leaves (fun _ _ => True) k [] s t ∧ t.encoding = s.encoding
      ∧ Binds k id n spec params returns t := by
  have haccepts := hcalls.accepts_callable "read" hopens
  rw [hcalls.callable_eq] at haccepts ⊢
  obtain ⟨noted, hread⟩ := readAs_of_host run fuel handler depth (-1) hr.live rfl haccepts
  have hsame : Adds k [] s { s with described := noted } := Leaves.same rfl rfl rfl rfl rfl
  have hat' : At k { s with described := noted } (-1) (.function f) := ⟨hat.place⟩
  obtain ⟨t, hwrap, hleaves, hencoding, hbinds⟩ :=
    wrap_binds (hr.after hsame) (hreg.of_same rfl rfl) hat' hf
  refine ⟨t, s.wrappers.size, hread ?_ hleaves, ?_, hencoding, hbinds⟩
  · rw [readHost_of_category hat'.value rfl Shape.noConfusion]
    show readCallable k (-1) ⟨.generic .abstractCallable [.params params, returns], .callable⟩ _ = _
    unfold readCallable
    rw [bind_ok hwrap]
    rfl
  · exact ⟨hleaves.slots, hleaves.frames, hleaves.registry, hleaves.closed, hleaves.size, trivial⟩

end Bridge

end StackBridge
