import Mathlib.Logic.Relation
import StackBridge.Proofs.RoundTrip.Describe

/-!
The types inside a type, and what describing a type should say of them. A type
is supported when it and every type that it reaches check. Supported types are
accepted whatever is noted; that what is accepted is supported is more work,
since describing relies on what is noted already.

Describing follows the types inside a type to a depth, and everything about it
is proved along that recursion (`describing_induction`), first of all that it
raises no value of the program's (`describe_ends`).
-/

namespace StackBridge

namespace TypeExpr

/-- The types among the arguments of a type: an ellipsis is none, and a group or
parameters stand for their members. -/
def argTypes : List TypeExpr → List TypeExpr
  | [] => []
  | .ellipsis :: as => argTypes as
  | .group members :: as | .params members :: as => members ++ argTypes as
  | a :: as => a :: argTypes as

theorem sizeOf_argTypes {t : TypeExpr} {as : List TypeExpr} (h : t ∈ argTypes as) :
    sizeOf t < sizeOf as := by
  induction as using argTypes.induct with
  | case1 => cases h
  | case2 as ih =>
      have := ih h
      simp only [List.cons.sizeOf_spec]
      omega
  | case3 members as ih =>
      simp only [List.cons.sizeOf_spec, group.sizeOf_spec]
      rcases List.mem_append.mp h with hm | ha
      · have := List.sizeOf_lt_of_mem hm
        omega
      · have := ih ha
        omega
  | case4 members as ih =>
      simp only [List.cons.sizeOf_spec, params.sizeOf_spec]
      rcases List.mem_append.mp h with hm | ha
      · have := List.sizeOf_lt_of_mem hm
        omega
      · have := ih ha
        omega
  | case5 a as hellipsis hgroup hparams ih =>
      simp only [List.cons.sizeOf_spec]
      rw [argTypes] at h
      · rcases List.mem_cons.mp h with rfl | ha
        · omega
        · have := ih ha
          omega
      all_goals assumption

end TypeExpr

/-- A failure about a type, which is not supported or cannot be named. -/
def Failure.AboutType : Failure → Prop
  | .unsupported .. | .host _ => True
  | _ => False

theorem Failure.AboutType.plain {f : Failure} (h : f.AboutType) : f.Plain := by
  cases f with
  | unsupported | host => trivial
  | _ => exact h.elim

namespace Bridge

open TypeExpr

variable {cs : Classes} {operation : String} {t u v : TypeExpr}

-- ================================================================= nesting

/-- The types inside a type that its conversion converts in turn. -/
def nested (cs : Classes) : TypeExpr → Except HostFault (List TypeExpr)
  | .generic _ as => .ok (argTypes as)
  | .cls (.record name) => (cs.hints name).map fun hints => hints.map (·.2)
  | _ => .ok []

/-- One type is directly inside another. -/
def Nests (cs : Classes) (t u : TypeExpr) : Prop := ∃ us, nested cs t = .ok us ∧ u ∈ us

/-- One type is another or somewhere inside it. -/
def Reaches (cs : Classes) : TypeExpr → TypeExpr → Prop := Relation.ReflTransGen (Nests cs)

/-- A type has a shape and the types inside it can be named, or it has been
described before. -/
def Checks (cs : Classes) : TypeExpr → Prop
  | .described _ => True
  | t => t.hostType?.isSome ∧ ∃ us, nested cs t = .ok us

/-- A type checks, and every type somewhere inside it. -/
def Supported (cs : Classes) (t : TypeExpr) : Prop := ∀ u, Reaches cs t u → Checks cs u

theorem Supported.reached (h : Supported cs t) (hu : Reaches cs t u) : Supported cs u :=
  fun _ hv => h _ (hu.trans hv)

theorem Supported.of_nested (hchecks : Checks cs t)
    (hnested : ∀ u, Nests cs t u → Supported cs u) : Supported cs t := by
  intro v hv
  rcases hv.cases_head with rfl | ⟨u, htu, huv⟩
  · exact hchecks
  · exact hnested u htu v huv

-- =============================================================== recursion

/-- The types inside a type that are followed when classes may be opened to a
depth. -/
def followed (cs : Classes) (depth : Nat) (t : TypeExpr) : Except HostFault (List TypeExpr) :=
  match depth, t with
  | 0, .cls (.record _) => .ok []
  | _, t => nested cs t

/-- The depth that is left inside a type. -/
def depthInside (depth : Nat) : TypeExpr → Nat
  | .cls (.record _) => depth - 1
  | _ => depth

/-- Everything about describing is proved from what holds of the types followed
to what holds of the type. -/
theorem describing_induction (cs : Classes) {P : Nat → TypeExpr → Prop}
    (step : ∀ depth t, (∀ us, followed cs depth t = .ok us → ∀ u ∈ us, P (depthInside depth t) u) →
      P depth t) : ∀ depth t, P depth t := by
  -- classes lower the depth, and other types the size
  have hlevel : ∀ depth, (∀ us name, followed cs depth (.cls (.record name)) = .ok us →
      ∀ u ∈ us, P (depth - 1) u) → ∀ n t, sizeOf t < n → P depth t := by
    intro depth hclass n
    induction n with
    | zero => exact fun t ht => absurd ht (Nat.not_lt_zero _)
    | succ n ih =>
        intro t ht
        refine step depth t fun us hus u hu => ?_
        cases t with
        | generic c as =>
            have hargs : us = argTypes as := by
              cases depth <;> exact (Except.ok.inj hus).symm
            subst hargs
            have hsize := sizeOf_argTypes hu
            have : sizeOf (generic c as) = 1 + sizeOf c + sizeOf as := generic.sizeOf_spec c as
            exact ih u (by omega)
        | cls c =>
            cases c with
            | record name => exact hclass us name hus u hu
            | _ =>
                have hnone : us = [] := by
                  cases depth <;> exact (Except.ok.inj hus).symm
                subst hnone
                cases hu
        | _ =>
            have hnone : us = [] := by
              cases depth <;> exact (Except.ok.inj hus).symm
            subst hnone
            cases hu
  intro depth
  induction depth with
  | zero =>
      refine fun t => hlevel 0 (fun us name hus u hu => ?_) _ t (Nat.lt_succ_self _)
      have hnone : us = [] := (Except.ok.inj hus).symm
      subst hnone
      cases hu
  | succ depth ih =>
      exact fun t => hlevel (depth + 1) (fun us name _ u _ => ih u) _ t (Nat.lt_succ_self _)

-- ================================================================== steps

/-- Checks a type when classes may be opened to a depth. -/
def visit (cs : Classes) (operation : String) (depth : Nat) : TypeExpr → Describing Unit :=
  describeType (describeRecord cs operation depth) operation

/-- Checks several. -/
def visitAll (cs : Classes) (operation : String) (depth : Nat) : List TypeExpr → Describing Unit :=
  describeTypes (describeRecord cs operation depth) operation

/-- Checks the types inside a type. -/
def visitInside (cs : Classes) (operation : String) (depth : Nat) (t : TypeExpr) :
    Describing Unit :=
  match followed cs depth t with
  | .error f => throw (.host f)
  | .ok us => visitAll cs operation (depthInside depth t) us

theorem visitAll_cons (depth : Nat) (t : TypeExpr) (ts : List TypeExpr) :
    visitAll cs operation depth (t :: ts)
      = (visit cs operation depth t >>= fun _ => visitAll cs operation depth ts) := rfl

theorem describeArgs_eq (openRecord : String → Describing Unit) (as : List TypeExpr) :
    describeArgs openRecord operation as = describeTypes openRecord operation (argTypes as) := by
  have happend : ∀ us vs : List TypeExpr, describeTypes openRecord operation (us ++ vs)
      = (do describeTypes openRecord operation us; describeTypes openRecord operation vs) := by
    intro us vs
    induction us with
    | nil => rfl
    | cons u us ih =>
        simp only [List.cons_append, describeTypes, ih, bind_assoc]
  induction as using argTypes.induct with
  | case1 => rfl
  | case2 as ih => exact ih
  | case3 members as ih =>
      rw [describeArgs, argTypes, happend, ih]
  | case4 members as ih =>
      rw [describeArgs, argTypes, happend, ih]
  | case5 a as hellipsis hgroup hparams ih =>
      rw [describeArgs, argTypes, describeTypes, ih]
      all_goals assumption

/-- A type that has not been described before is noted, and what is inside it
checked. -/
theorem visit_eq (depth : Nat) (h : ∀ a, t ≠ .described a) :
    visit cs operation depth t = enrol operation t (visitInside cs operation depth t) := by
  cases t with
  | described a => exact absurd rfl (h a)
  | generic c as =>
      have hinside : visitInside cs operation depth (.generic c as)
          = visitAll cs operation depth (argTypes as) := by
        cases depth <;> rfl
      rw [hinside, visitAll, ← describeArgs_eq]
      rfl
  | cls c =>
      cases c with
      | record name =>
          have hinside : visitInside cs operation depth (.cls (.record name))
              = describeRecord cs operation depth name := by
            cases depth with
            | zero => rfl
            | succ depth =>
                simp only [visitInside, followed, nested, describeRecord, depthInside]
                cases cs.hints name <;> rfl
          rw [hinside]
          rfl
      | _ => cases depth <;> rfl
  | _ => cases depth <;> rfl

/-- A type that has been described before needs no check. -/
theorem visit_cases (cs : Classes) (operation : String) (depth : Nat) (t : TypeExpr) :
    (visit cs operation depth t = pure () ∧ Checks cs t ∧ nested cs t = .ok [])
      ∨ (visit cs operation depth t = enrol operation t (visitInside cs operation depth t)
          ∧ (Checks cs t ↔ t.hostType?.isSome ∧ ∃ us, nested cs t = .ok us)) := by
  by_cases hdescribed : ∃ a, t = .described a
  · obtain ⟨a, rfl⟩ := hdescribed
    exact Or.inl ⟨rfl, trivial, rfl⟩
  · refine Or.inr ⟨visit_eq depth fun a ha => hdescribed ⟨a, ha⟩, ?_⟩
    cases t with
    | described a => exact absurd ⟨a, rfl⟩ hdescribed
    | _ => exact Iff.rfl

/-- What is noted when what is inside a type has failed: not the type, unless
it is a name that could not be resolved. -/
def notedAfter (t : TypeExpr) (noted : List TypeExpr) : Failure → List TypeExpr
  | .unsupported .. => noted.erase t
  | _ => noted

section

variable {inside : Describing Unit} {noted noted' : List TypeExpr} {f : Failure}

theorem enrol_noted (hhash : t.isHashable = true) (hmem : t ∈ noted) :
    enrol operation t inside noted = .ok () noted := by
  unfold enrol
  simp only [hhash]
  rw [bind_ok (get_apply noted), if_pos]
  · rfl
  · simpa using hmem

theorem enrol_refused (hnew : t.isHashable = true → t ∉ noted)
    (hshape : t.hostType? = Option.none) :
    enrol operation t inside noted = .error (.unsupported t.refusalName operation) noted := by
  unfold enrol
  cases hhash : t.isHashable with
  | false => simp only [hshape]; rfl
  | true =>
      simp only [hshape]
      rw [bind_ok (get_apply noted), if_neg]
      · rfl
      · simpa using hnew hhash

theorem enrol_unhashable (hhash : t.isHashable = false) (hshape : t.hostType?.isSome) :
    enrol operation t inside noted = inside noted := by
  have hsome : t.hostType?.isNone = false := by
    rw [Option.isNone_eq_false_iff]
    exact hshape
  unfold enrol
  simp only [hhash, hsome]
  rfl

theorem enrol_hashable (hhash : t.isHashable = true) (hnew : t ∉ noted)
    (hshape : t.hostType?.isSome) :
    enrol operation t inside noted =
      match inside (t :: noted) with
      | .ok _ noted' => .ok () noted'
      | .error f noted' => .error f (notedAfter t noted' f) := by
  have hsome : t.hostType?.isNone = false := by
    rw [Option.isNone_eq_false_iff]
    exact hshape
  unfold enrol
  simp only [hhash, hsome]
  rw [bind_ok (get_apply noted), if_neg (by simpa using hnew)]
  show EStateM.tryCatch inside _ (t :: noted) = _
  unfold EStateM.tryCatch
  cases inside (t :: noted) with
  | ok _ noted' => rfl
  | error f noted' => cases f <;> rfl

/-- A type is found noted, or it has no shape, or what is inside it is checked,
with the type noted if it can be. -/
theorem enrol_cases (operation : String) (t : TypeExpr) (inside : Describing Unit)
    (noted : List TypeExpr) :
    (t ∈ noted ∧ enrol operation t inside noted = .ok () noted)
      ∨ (t.hostType? = Option.none
          ∧ enrol operation t inside noted = .error (.unsupported t.refusalName operation) noted)
      ∨ (t.hostType?.isSome ∧ t.isHashable = false
          ∧ enrol operation t inside noted = inside noted)
      ∨ (t.hostType?.isSome ∧ t ∉ noted ∧ enrol operation t inside noted =
          match inside (t :: noted) with
          | .ok _ noted' => .ok () noted'
          | .error f noted' => .error f (notedAfter t noted' f)) := by
  by_cases hfound : t.isHashable = true ∧ t ∈ noted
  · exact Or.inl ⟨hfound.2, enrol_noted hfound.1 hfound.2⟩
  have hnew : t.isHashable = true → t ∉ noted := fun hhash hmem => hfound ⟨hhash, hmem⟩
  refine Or.inr ?_
  cases hshape : t.hostType? with
  | none => exact Or.inl ⟨rfl, enrol_refused hnew hshape⟩
  | some host =>
      have hsome : t.hostType?.isSome := by rw [hshape]; rfl
      refine Or.inr ?_
      cases hhash : t.isHashable with
      | false => exact Or.inl ⟨rfl, rfl, enrol_unhashable hhash hsome⟩
      | true => exact Or.inr ⟨rfl, hnew hhash, enrol_hashable hhash (hnew hhash) hsome⟩

end

-- ================================================================= failures

section

variable {noted : List TypeExpr} {α : Type}

/-- Fails only about a type. -/
abbrev FailsAboutTypes (a : Describing α) : Prop :=
  ∀ noted, Ends (a noted) (fun _ _ => True) fun f _ => f.AboutType

theorem refuses_enrol {inside : Describing Unit} (h : FailsAboutTypes inside) :
    FailsAboutTypes (enrol operation t inside) := by
  intro noted
  rcases enrol_cases operation t inside noted with ⟨_, heq⟩ | ⟨_, heq⟩ | ⟨_, _, heq⟩ | ⟨_, _, heq⟩
  · rw [heq]
    trivial
  · rw [heq]
    trivial
  · rw [heq]
    exact h noted
  · have hinside := h (t :: noted)
    rw [heq]
    cases hr : inside (t :: noted) with
    | ok _ _ => trivial
    | error f _ =>
        rw [hr] at hinside
        exact hinside

theorem refuses_visitAll {depth : Nat} {ts : List TypeExpr}
    (h : ∀ u ∈ ts, FailsAboutTypes (visit cs operation depth u)) :
    FailsAboutTypes (visitAll cs operation depth ts) := by
  induction ts with
  | nil => exact fun _ => trivial
  | cons u us ih =>
      intro noted
      rw [visitAll_cons]
      exact (h u List.mem_cons_self noted).bind fun _ noted' _ =>
        ih (fun v hv => h v (List.mem_cons_of_mem u hv)) noted'

theorem refuses_visit (cs : Classes) (operation : String) (depth : Nat) (t : TypeExpr) :
    FailsAboutTypes (visit cs operation depth t) := by
  refine describing_induction cs (P := fun depth t => FailsAboutTypes (visit cs operation depth t))
    (fun depth t ih => ?_) depth t
  rcases visit_cases cs operation depth t with ⟨heq, _⟩ | ⟨heq, _⟩
  · rw [heq]
    exact fun _ => trivial
  · rw [heq]
    refine refuses_enrol ?_
    unfold visitInside
    cases hus : followed cs depth t with
    | error f => exact fun _ => trivial
    | ok us => exact refuses_visitAll (ih us hus)

theorem describeIn_error {f : Failure} {noted' : List TypeExpr}
    (h : describeIn cs operation t noted = .error f noted') : f.AboutType := by
  have hends := refuses_visit cs operation cs.length t noted
  rw [show visit cs operation cs.length t = describeIn cs operation t from rfl, h] at hends
  exact hends

/-- Describing a type for an operation only notes types, and fails plainly. -/
theorem describe_ends (ctx : Context) (t : TypeExpr) (operation : String) (s : Session) :
    Ends (describe ctx t operation s) (fun _ u => ∃ noted, u = { s with described := noted })
      fun e u => (∃ f, e = .failed f ∧ f.Plain) ∧ ∃ noted, u = { s with described := noted } := by
  unfold describe
  cases hr : describeIn ctx.classes operation t s.described with
  | error f noted => exact ⟨⟨f, rfl, (describeIn_error hr).plain⟩, noted, rfl⟩
  | ok _ noted =>
      cases t.hostType? with
      | none => exact ⟨⟨_, rfl, trivial⟩, noted, rfl⟩
      | some host => exact ⟨noted, rfl⟩

end

end Bridge

end StackBridge
