import StackBridge.Bridge.Call
import StackBridge.Proofs.Call.Sources

/-!
The signature that a function of a program shows of itself has its positional
parameters, then the variadic one if there is one (`signature_params`). So as many
arguments come from its sources as the function takes, whatever the values in the
frame are, and no default is left to fill in (`Ordered.complete`).
-/

namespace StackBridge

/-- The parameters of a function in the order in which one can be declared: positional
ones, at most one variadic one, and keyword parameters, none of which is required. -/
structure FunctionSpec.Ordered (spec : FunctionSpec) : Prop where
  split : ∃ ps vs ks, spec.params = ps ++ vs ++ ks
    ∧ (∀ p ∈ ps, p.kind = .positional)
    ∧ (∀ p ∈ vs, p.kind = .variadic) ∧ vs.length ≤ 1
    ∧ ∀ p ∈ ks, p.kind = .keywordOnly ∧ p.hasDefault = true ∨ p.kind = .variadicKeyword

namespace FunctionSpec

variable {cs : Classes} {spec : FunctionSpec} {defaults : List HostValue} {signature : Signature}

theorem map_withDefaults (ps : List ParamSpec) (ds : List HostValue) :
    (withDefaults ps ds).map Prod.fst = ps := by
  induction ps generalizing ds with
  | nil => rfl
  | cons p ps ih =>
      unfold withDefaults
      split <;> rw [List.map_cons, ih]

theorem mapM_hintOf_length {ps : List ParamSpec} {hints : List (Option TypeExpr)}
    (h : (ps.mapM fun p => hintOf cs p.type) = .ok hints) : hints.length = ps.length := by
  induction ps generalizing hints with
  | nil =>
      cases h
      rfl
  | cons p ps ih =>
      rw [List.mapM_cons] at h
      cases hp : hintOf cs p.type with
      | error f =>
          rw [hp] at h
          cases h
      | ok t =>
          rw [hp] at h
          cases hps : ps.mapM fun p => hintOf cs p.type with
          | error f =>
              rw [hps] at h
              cases h
          | ok ts =>
              rw [hps] at h
              cases h
              exact congrArg Nat.succ (ih hps)

/-- A hint, if only that there is none, for each parameter. -/
theorem hints_length {hints : List (Option TypeExpr)} {returns : Option TypeExpr}
    (h : spec.hints cs = .ok (hints, returns)) : hints.length = spec.params.length := by
  have habsent : (spec.params.map fun _ => (none : Option TypeExpr)).length
      = spec.params.length := List.length_map _
  unfold FunctionSpec.hints at h
  split at h
  · cases h
    exact habsent
  · dsimp only at h
    split at h
    · rename_i resolved
      cases h
      cases hps : spec.params.mapM fun p => hintOf cs p.type with
      | error f =>
          rw [hps] at resolved
          cases resolved
      | ok ts =>
          rw [hps] at resolved
          cases hreturns : hintOf cs spec.returns with
          | error f =>
              rw [hreturns] at resolved
              cases resolved
          | ok t =>
              rw [hreturns] at resolved
              cases resolved
              exact mapM_hintOf_length hps
    · split at h
      · cases h
        exact habsent
      · cases h

/-- A parameter of the signature, for one that is declared. -/
def shownParam (declared : (ParamSpec × Option HostValue) × Option TypeExpr) : Option Param :=
  match declared.1.1.kind with
  | .positional => some ⟨declared.2.getD .any, declared.1.2, false⟩
  | .variadic => some ⟨declared.2.getD .any, declared.1.2, true⟩
  | .keywordOnly | .variadicKeyword => none

/-- The parameters of a signature, one for one that is declared as positional or
variadic. -/
theorem signature_eq (h : spec.signature cs defaults = .ok signature) :
    ∃ declared : List ((ParamSpec × Option HostValue) × Option TypeExpr),
      declared.map (·.1.1) = spec.params ∧ signature.params = declared.filterMap shownParam := by
  unfold FunctionSpec.signature at h
  cases hhints : spec.hints cs with
  | error f =>
      rw [hhints] at h
      cases h
  | ok shown =>
      rw [hhints] at h
      cases h
      refine ⟨(withDefaults spec.params defaults).zip shown.1, ?_, rfl⟩
      have hpaired : ((withDefaults spec.params defaults).zip shown.1).map Prod.fst
          = withDefaults spec.params defaults := by
        refine List.map_fst_zip (le_of_eq ?_)
        rw [hints_length hhints, ← congrArg List.length (map_withDefaults spec.params defaults),
          List.length_map]
      rw [show (fun q : (ParamSpec × Option HostValue) × Option TypeExpr => q.1.1)
        = Prod.fst ∘ Prod.fst from rfl, ← List.map_map, hpaired, map_withDefaults]

/-- Declared parameters of one kind, in the signature. -/
theorem filterMap_shownParam {declared : List ((ParamSpec × Option HostValue) × Option TypeExpr)}
    {ps : List ParamSpec} (hps : declared.map (·.1.1) = ps) (variadic : Bool)
    (h : ∀ p ∈ ps, p.kind = if variadic then .variadic else .positional) :
    (declared.filterMap shownParam).length = ps.length
      ∧ ∀ p ∈ declared.filterMap shownParam, p.variadic = variadic := by
  subst hps
  induction declared with
  | nil => exact ⟨rfl, fun p hp => absurd hp List.not_mem_nil⟩
  | cons q declared ih =>
      obtain ⟨hlength, hall⟩ := ih fun p hp => h p (List.mem_cons_of_mem _ hp)
      have hkind : q.1.1.kind = if variadic then .variadic else .positional :=
        h _ (List.mem_cons_self ..)
      have hshown : shownParam q = some ⟨q.2.getD .any, q.1.2, variadic⟩ := by
        unfold shownParam
        rw [hkind]
        cases variadic <;> rfl
      rw [List.filterMap_cons_some hshown]
      refine ⟨congrArg Nat.succ hlength, fun p hp => ?_⟩
      rcases List.mem_cons.mp hp with rfl | hp
      · rfl
      · exact hall p hp

/-- The positional parameters of a function come first in its signature, and then the
variadic one, if there is one. -/
theorem signature_params (hordered : spec.Ordered)
    (h : spec.signature cs defaults = .ok signature) :
    ∃ ps vs, signature.params = ps ++ vs ∧ ps.length = spec.positionalCount
      ∧ (∀ p ∈ ps, p.variadic = false) ∧ (∀ p ∈ vs, p.variadic = true) ∧ vs.length ≤ 1
      ∧ (vs ≠ [] → spec.params.any (·.kind = .variadic) = true) := by
  obtain ⟨ps, vs, ks, hsplit, hps, hvs, hone, hks⟩ := hordered.split
  obtain ⟨declared, hdeclared, hparams⟩ := signature_eq h
  rw [hsplit] at hdeclared
  obtain ⟨dps, dks, rfl, hdps, hdks⟩ := List.map_eq_append_iff.mp hdeclared
  obtain ⟨dps, dvs, rfl, hdps, hdvs⟩ := List.map_eq_append_iff.mp hdps
  obtain ⟨hlength, hsingle⟩ := filterMap_shownParam hdps false hps
  obtain ⟨hlength', hmany⟩ := filterMap_shownParam hdvs true hvs
  have hnone : dks.filterMap shownParam = [] := by
    refine List.filterMap_eq_nil_iff.mpr fun q hq => ?_
    unfold shownParam
    rcases hks q.1.1 (hdks ▸ List.mem_map_of_mem hq) with ⟨hk, _⟩ | hk <;> rw [hk]
  have hcount : spec.positionalCount = ps.length := by
    have hfilter : spec.params.filter (·.kind = .positional) = ps := by
      rw [hsplit, List.filter_append, List.filter_append,
        List.filter_eq_self.mpr fun p hp => decide_eq_true (hps p hp),
        List.filter_eq_nil_iff.mpr fun p hp => by rw [hvs p hp]; decide,
        List.filter_eq_nil_iff.mpr fun p hp => by
          rcases hks p hp with ⟨hk, _⟩ | hk <;> rw [hk] <;> decide,
        List.append_nil, List.append_nil]
    exact congrArg List.length hfilter
  refine ⟨dps.filterMap shownParam, dvs.filterMap shownParam, ?_, hlength.trans hcount.symm,
    hsingle, hmany, hlength'.trans_le hone, fun hne => ?_⟩
  · rw [hparams, List.filterMap_append, List.filterMap_append, hnone, List.append_nil]
  · cases vs with
    | nil => exact absurd (List.eq_nil_of_length_eq_zero hlength') hne
    | cons v vs =>
        refine List.any_eq_true.mpr ⟨v, ?_, decide_eq_true (hvs v (List.mem_cons_self ..))⟩
        rw [hsplit]
        exact List.mem_append_left _ (List.mem_append_right _ (List.mem_cons_self ..))

/-- Only the last parameter of the signature may be variadic. -/
theorem Ordered.last (hordered : spec.Ordered)
    (h : spec.signature cs defaults = .ok signature) :
    ∀ p ∈ signature.params.dropLast, p.variadic = false := by
  obtain ⟨ps, vs, hparams, _, hps, _, hone, _⟩ := signature_params hordered h
  intro p hp
  rw [hparams] at hp
  cases vs with
  | nil => exact hps p (List.mem_of_mem_dropLast (List.append_nil ps ▸ hp))
  | cons v vs =>
      obtain rfl : vs = [] :=
        List.eq_nil_of_length_eq_zero (Nat.le_zero.mp (Nat.le_of_succ_le_succ hone))
      rw [List.dropLast_concat] at hp
      exact hps p hp

theorem sourcesFrom_length {ps : List Param} (h : ∀ p ∈ ps, p.variadic = false) (xs : List Value)
    (before : Nat) (vs : List Param) :
    (sourcesFrom xs before (ps ++ vs)).length
      = ps.length + (sourcesFrom xs (before + ps.length) vs).length := by
  induction ps generalizing before with
  | nil => rw [List.nil_append, List.length_nil, Nat.zero_add, Nat.add_zero]
  | cons p ps ih =>
      rw [List.cons_append, sourcesFrom, p.sources_single (h p (List.mem_cons_self ..)),
        List.singleton_append, List.length_cons, ih fun q hq => h q (List.mem_cons_of_mem _ hq),
        List.length_cons, Nat.add_right_comm, Nat.add_assoc before, Nat.add_comm 1]

/-- Arguments from all the sources are complete, and as many as the function takes. -/
theorem Ordered.complete (hordered : spec.Ordered)
    (h : spec.signature cs defaults = .ok signature) {xs : List Value} {args : List HostValue}
    (hargs : args.length = (signature.sources xs).length) :
    spec.completeArguments defaults args = args ∧ spec.takes args.length = true := by
  obtain ⟨ps, vs, hparams, hcount, hps, _, _, hany⟩ := signature_params hordered h
  unfold Signature.sources at hargs
  rw [hparams, sourcesFrom_length hps, hcount] at hargs
  have hle : spec.positionalCount ≤ args.length := by omega
  refine ⟨?_, ?_⟩
  · have hfilter : ((withDefaults spec.params defaults).filter (·.1.kind = .positional)).length
        = spec.positionalCount := by
      unfold positionalCount
      conv_rhs => rw [← map_withDefaults spec.params defaults, List.filter_map, List.length_map]
      rfl
    unfold completeArguments
    dsimp only
    rw [List.drop_eq_nil_of_le (hfilter.trans_le hle)]
    exact List.append_nil args
  · unfold takes
    cases vs with
    | nil =>
        have hexact : args.length = spec.positionalCount := hargs
        simp [hexact]
    | cons v vs => simp [hle, hany (List.cons_ne_nil v vs)]

end FunctionSpec

end StackBridge
