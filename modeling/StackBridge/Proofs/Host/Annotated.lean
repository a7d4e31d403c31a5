import StackBridge.Proofs.Describe.Supported

/-!
Types that say of every part of a value what its class is, and the values whose
parts are all of exactly these classes.

Such a type is `Annotated`: a scalar class, a list, a tuple or a mapping of
annotated types, or a record class whose fields have annotated types in turn. It
is supported (`Classes.Annotates.supported`), so that it can be described
whatever has been noted before.

A value is `Exactly` of such a type whatever it is besides: an integer of any
size, a NaN, a text that the encoding does not have, a wrapper that has been
released or that is of another machine, a mapping whose keys are no keys.
-/

namespace StackBridge

open Bridge

-- ================================================================= scalars

/-- The classes of single values: the plain ones, enumerations, strings up to
their first zero byte, and wrappers. -/
def HostClass.isScalar : HostClass → Bool
  | .boolean false | .integer .plain | .integer (.enum _) | .float .plain | .text .plain
  | .bytes .plain | .bytes .array | .bytes .terminated | .wrapper false => true
  | _ => false

theorem HostClass.isScalar_shape {c : HostClass} (h : c.isScalar = true) :
    ∃ shape, c.shape? = some shape := by
  unfold isScalar at h
  split at h
  case h_10 => cases h
  all_goals exact ⟨_, rfl⟩

/-- Only wrappers are of the classes of wrappers. -/
theorem HostValue.wrapper_of_hostClass {v : HostValue} {custom : Bool}
    (h : v.hostClass = .wrapper custom) : ∃ id, v = .wrapper id custom := by
  unfold hostClass at h
  cases v with
  | wrapper id c =>
      cases h
      exact ⟨id, rfl⟩
  | function id spec defaults | builtin b =>
      dsimp only at h
      split at h <;> cases h
  | method owner name | type t => split at h <;> simp_all
  | _ => cases h

-- =================================================================== types

/-- The types made of scalar classes, containers, and records of classes in
`R`. -/
inductive Annotated (R : String → Prop) : TypeExpr → Prop where
  | scalar {c : HostClass} (scalar : c.isScalar = true) : Annotated R (.cls c)
  | list {a : TypeExpr} (item : Annotated R a) : Annotated R (.generic (.sequence .list) [a])
  | tuple {a : TypeExpr} (item : Annotated R a) :
      Annotated R (.generic (.sequence .tuple) [a, .ellipsis])
  | fixedTuple {as : List TypeExpr} (items : ∀ a ∈ as, Annotated R a) :
      Annotated R (.generic (.sequence .tuple) as)
  | mapping (kind : MappingKind) {a b : TypeExpr} (key : Annotated R a) (value : Annotated R b) :
      Annotated R (.generic (.mapping kind) [a, b])
  | record {name : String} (allowed : R name) : Annotated R (.cls (.record name))

/-- A record class whose fields all have a type, with a hint that is annotated
in turn. -/
def Classes.Spells (cs : Classes) (R : String → Prop) (name : String) : Prop :=
  ∀ f ∈ cs.fields name, ∃ a t, f.type = some a ∧ cs.hint a = .ok t ∧ Annotated R t

/-- A fully annotated type, also around through record classes. -/
def Classes.Annotates (cs : Classes) (t : TypeExpr) : Prop :=
  ∃ R : String → Prop, (∀ name, R name → cs.Spells R name) ∧ Annotated R t

-- =================================================================== hints

variable {cs : Classes} {R : String → Prop} {t u : TypeExpr}

/-- All the hints of such a class are annotated. -/
theorem Classes.Spells.hints {name : String} (h : cs.Spells R name) :
    ∃ ts : List TypeExpr, ts.length = (cs.fields name).length ∧ (∀ t ∈ ts, Annotated R t)
      ∧ cs.hints name = .ok (((cs.fields name).map (·.name)).zip ts) :=
  Opens.hints_of_fields h

/-- And each of its fields has one. -/
theorem Classes.Spells.hinted {name : String} (h : cs.Spells R name)
    {hinted : List (FieldSpec × TypeExpr)} (hhinted : hintedFields cs name = .ok hinted) :
    ∀ q ∈ hinted, Annotated R q.2 := by
  obtain ⟨ts, hlength, hts, hhints⟩ := h.hints
  unfold hintedFields at hhinted
  rw [hhints] at hhinted
  cases hhinted
  intro q hq
  obtain ⟨f, hf, rfl⟩ := List.mem_map.mp hq
  have hlength' : ((cs.fields name).map (·.name)).length = ts.length := by
    rw [List.length_map, hlength]
  obtain ⟨t, ht⟩ := mem_zip_of_mem hlength' (List.mem_map_of_mem hf)
  have hfound : (((cs.fields name).map (·.name)).zip ts).find? (·.1 == f.name) |>.isSome :=
    List.find?_isSome.mpr ⟨_, ht, beq_self_eq_true f.name⟩
  obtain ⟨p, hp⟩ := Option.isSome_iff_exists.mp hfound
  dsimp only
  rw [hp]
  exact hts p.2 (List.of_mem_zip (List.mem_of_find?_eq_some hp)).2

namespace Annotated

-- =============================================================== supported

theorem argTypes_cons (h : Annotated R t) (as : List TypeExpr) :
    TypeExpr.argTypes (t :: as) = t :: TypeExpr.argTypes as := by
  cases h <;> rfl

theorem argTypes_eq {as : List TypeExpr} (h : ∀ a ∈ as, Annotated R a) :
    TypeExpr.argTypes as = as := by
  induction as with
  | nil => rfl
  | cons a as ih =>
      rw [(h a (List.mem_cons_self ..)).argTypes_cons, ih fun b hb => h b (List.mem_cons_of_mem _ hb)]

/-- What is inside an annotated type is annotated. -/
theorem nested (hR : ∀ name, R name → cs.Spells R name) (h : Annotated R t) :
    ∃ us, Bridge.nested cs t = .ok us ∧ ∀ u ∈ us, Annotated R u := by
  cases h with
  | @scalar c scalar =>
      refine ⟨[], ?_, fun u hu => absurd hu List.not_mem_nil⟩
      cases c with
      | record name => cases scalar
      | _ => rfl
  | @list a item =>
      have has : ∀ b ∈ [a], Annotated R b := by simpa using item
      exact ⟨[a], congrArg Except.ok (argTypes_eq has), has⟩
  | @tuple a item =>
      have heq : TypeExpr.argTypes [a, .ellipsis] = [a] := item.argTypes_cons _
      exact ⟨[a], congrArg Except.ok heq, by simpa using item⟩
  | fixedTuple items => exact ⟨_, congrArg Except.ok (argTypes_eq items), items⟩
  | @mapping kind a b key value =>
      have has : ∀ c ∈ [a, b], Annotated R c := by simpa using ⟨key, value⟩
      exact ⟨[a, b], congrArg Except.ok (argTypes_eq has), has⟩
  | @record name allowed =>
      obtain ⟨ts, hlength, hts, hhints⟩ := (hR name allowed).hints
      refine ⟨_, congrArg (Except.map _) hhints, fun u hu => ?_⟩
      obtain ⟨p, hp, rfl⟩ := List.mem_map.mp hu
      exact hts p.2 (List.of_mem_zip hp).2

theorem hostType (h : Annotated R t) : ∃ host, t.hostType? = some host := by
  cases h with
  | scalar scalar =>
      obtain ⟨shape, hshape⟩ := HostClass.isScalar_shape scalar
      exact ⟨⟨_, shape⟩, congrArg (Option.map _) hshape⟩
  | _ => exact ⟨_, rfl⟩

theorem checks (hR : ∀ name, R name → cs.Spells R name) (h : Annotated R t) : Checks cs t := by
  obtain ⟨us, hus, -⟩ := h.nested hR
  have hhost := Option.isSome_iff_exists.mpr h.hostType
  cases h <;> exact ⟨hhost, us, hus⟩

theorem reached (hR : ∀ name, R name → cs.Spells R name) (h : Annotated R t)
    (hu : Reaches cs t u) : Annotated R u := by
  induction hu with
  | refl => exact h
  | tail _ hnests ih =>
      obtain ⟨us, hus, hall⟩ := ih.nested hR
      obtain ⟨us', hus', hmem⟩ := hnests
      cases hus.symm.trans hus'
      exact hall _ hmem

theorem supported (hR : ∀ name, R name → cs.Spells R name) (h : Annotated R t) :
    Supported cs t :=
  fun _ hu => (h.reached hR hu).checks hR

theorem ne_none (h : Annotated R t) : t ≠ .none := by
  intro hnone
  subst hnone
  cases h

end Annotated

-- ================================================================== values

/-- The values all of whose parts have exactly the classes that a type says. The
parts of a record are its members that are named like the fields of its class. -/
inductive Exactly (cs : Classes) : HostValue → TypeExpr → Prop where
  | scalar {v : HostValue} (scalar : v.hostClass.isScalar = true) :
      Exactly cs v (.cls v.hostClass)
  | list {vs : List HostValue} {a : TypeExpr} (items : ∀ v ∈ vs, Exactly cs v a) :
      Exactly cs (.list vs) (.generic (.sequence .list) [a])
  | tuple {vs : List HostValue} {a : TypeExpr} (items : ∀ v ∈ vs, Exactly cs v a) :
      Exactly cs (.sequence .tuple vs) (.generic (.sequence .tuple) [a, .ellipsis])
  | fixedTuple {vs : List HostValue} {as : List TypeExpr} (length : vs.length = as.length)
      (items : ∀ p ∈ vs.zip as, Exactly cs p.1 p.2) :
      Exactly cs (.sequence .tuple vs) (.generic (.sequence .tuple) as)
  | mapping {kind : MappingKind} {es : List (HostValue × HostValue)} {a b : TypeExpr}
      (keys : ∀ e ∈ es, Exactly cs e.1 a) (values : ∀ e ∈ es, Exactly cs e.2 b) :
      Exactly cs (.mapping kind es) (.generic (.mapping kind) [a, b])
  | record {name : String} {tuple : Bool} {fields : List (String × HostValue)}
      {hinted : List (FieldSpec × TypeExpr)} (hints : hintedFields cs name = .ok hinted)
      (members : ∀ q ∈ hinted, ∀ x, cs.member (.record name tuple fields) q.1.name = .ok x →
        Exactly cs x q.2) :
      Exactly cs (.record name tuple fields) (.cls (.record name))

variable {vs : List HostValue} {as : List TypeExpr}

/-- The types of the items of a tuple that has one for each. -/
theorem Annotated.items (ht : Annotated R (.generic (.sequence .tuple) as))
    (hlength : vs.length = as.length) (hitems : ∀ p ∈ vs.zip as, Exactly cs p.1 p.2) :
    ∀ a ∈ as, Annotated R a := by
  cases ht with
  | fixedTuple items => exact items
  | @tuple a item =>
      -- no value is exactly of an ellipsis
      match vs, hlength with
      | [v, w], _ =>
          have hlast : Exactly cs w .ellipsis := hitems (w, .ellipsis) (by simp)
          cases hlast

end StackBridge
