import StackBridge.Bridge.Describe
import StackBridge.Proofs.Host.Typed
import StackBridge.Proofs.Session.Parts

/-!
Describing a built type answers, whatever has been described before. Types are
taken apart as they are built; a record class is opened at most as often as
there are classes, and what its fields are declared as is built again.
-/

namespace StackBridge

namespace Bridge

open Session

variable {R : String → Prop} {cs : Classes} {operation : String} {t : TypeExpr}
  {openRecord : String → Describing Unit}

/-- Describing that answers, whatever is noted. -/
def Accepts (a : Describing Unit) : Prop := ∀ noted, ∃ noted', a noted = .ok () noted'

theorem accepts_pure : Accepts (pure ()) := fun noted => ⟨noted, rfl⟩

theorem Accepts.bind {a b : Describing Unit} (ha : Accepts a) (hb : Accepts b) :
    Accepts (a >>= fun _ => b) := by
  intro noted
  obtain ⟨noted', h⟩ := ha noted
  rw [bind_ok h]
  exact hb noted'

/-- A type with a shape is noted when what is inside it is accepted. -/
theorem accepts_enrol {inside : Describing Unit} (hshape : t.hostType?.isNone = false)
    (hinside : Accepts inside) : Accepts (enrol operation t inside) := by
  intro noted
  obtain ⟨noted', hnoted⟩ := hinside (t :: noted)
  obtain ⟨noted'', hnoted'⟩ := hinside noted
  unfold enrol
  simp only [hshape]
  cases t.isHashable with
  | false => exact ⟨noted'', hnoted'⟩
  | true =>
      rw [bind_ok (get_apply noted)]
      by_cases hmem : noted.contains t = true
      · simp only [hmem]
        exact ⟨noted, rfl⟩
      · simp only [Bool.eq_false_iff.mpr hmem]
        refine ⟨noted', ?_⟩
        show EStateM.tryCatch inside _ (t :: noted) = _
        unfold EStateM.tryCatch
        simp only [hnoted]

-- ================================================================== types

theorem accepts_describeTypes {ts : List TypeExpr}
    (h : ∀ t ∈ ts, Accepts (describeType openRecord operation t)) :
    Accepts (describeTypes openRecord operation ts) := by
  induction ts with
  | nil => exact accepts_pure
  | cons t ts ih =>
      rw [describeTypes]
      exact (h t (List.mem_cons_self ..)).bind (ih fun u hu => h u (List.mem_cons_of_mem _ hu))

/-- A type that is described as itself among the arguments of another. -/
def Single (t : TypeExpr) : Prop :=
  ∀ (openRecord : String → Describing Unit) operation ts,
    describeArgs openRecord operation (t :: ts)
      = (do describeType openRecord operation t; describeArgs openRecord operation ts)

theorem single_built (h : Built R t) : Single t := by
  intro openRecord operation ts
  cases h <;> rfl

/-- Arguments are described one after the other. -/
theorem accepts_args {ts : List TypeExpr} (hsingle : ∀ t ∈ ts, Single t)
    (h : ∀ t ∈ ts, Accepts (describeType openRecord operation t)) :
    Accepts (describeArgs openRecord operation ts) := by
  induction ts with
  | nil => exact accepts_pure
  | cons t ts ih =>
      have hrest := ih (fun u hu => hsingle u (List.mem_cons_of_mem _ hu))
        fun u hu => h u (List.mem_cons_of_mem _ hu)
      rw [hsingle t (List.mem_cons_self ..)]
      exact (h t (List.mem_cons_self ..)).bind hrest

theorem accepts_describeArgs {ts : List TypeExpr} (hbuilt : ∀ t ∈ ts, Built R t)
    (h : ∀ t ∈ ts, Accepts (describeType openRecord operation t)) :
    Accepts (describeArgs openRecord operation ts) :=
  accepts_args (fun t ht => single_built (hbuilt t ht)) h

/-- A built type is accepted if the record classes in it are. -/
theorem accepts_describeType (hopen : ∀ name, R name → Accepts (openRecord name))
    (hbuilt : Built R t) : Accepts (describeType openRecord operation t) := by
  induction hbuilt with
  | boolean => exact accepts_enrol rfl accepts_pure
  | integer => exact accepts_enrol rfl accepts_pure
  | enum e => exact accepts_enrol rfl accepts_pure
  | float => exact accepts_enrol rfl accepts_pure
  | text => exact accepts_enrol rfl accepts_pure
  | bytes => exact accepts_enrol rfl accepts_pure
  | array => exact accepts_enrol rfl accepts_pure
  | @list a item ih =>
      refine accepts_enrol rfl (accepts_describeArgs (R := R) ?_ ?_)
      · intro t ht
        rw [List.mem_singleton.mp ht]
        exact item
      · intro t ht
        rw [List.mem_singleton.mp ht]
        exact ih
  | @tuple a item ih =>
      refine accepts_enrol rfl ?_
      have heq : describeArgs openRecord operation [a, .ellipsis]
          = (do describeType openRecord operation a; pure ()) := by
        cases item <;> rfl
      rw [heq]
      exact ih.bind accepts_pure
  | fixedTuple items ih => exact accepts_enrol rfl (accepts_describeArgs items ih)
  | @mapping kind a b key value ihk ihv =>
      refine accepts_enrol rfl (accepts_describeArgs (R := R) ?_ ?_)
      · intro t ht
        rcases List.mem_cons.mp ht with rfl | hb
        · exact key
        · rw [List.mem_singleton.mp hb]
          exact value
      · intro t ht
        rcases List.mem_cons.mp ht with rfl | hb
        · exact ihk
        · rw [List.mem_singleton.mp hb]
          exact ihv
  | @record name allowed => exact accepts_enrol rfl (hopen name allowed)

-- ================================================================= classes

/-- Opening a record class to any depth. -/
theorem accepts_describeRecord (hopens : ∀ name, R name → Opens cs R name) (depth : Nat) :
    ∀ name, R name → Accepts (describeRecord cs operation depth name) := by
  induction depth with
  | zero => exact fun _ _ => accepts_pure
  | succ depth ih =>
      intro name hname
      obtain ⟨ts, hlength, hbuilt, hhints, _⟩ := (hopens name hname).hints
      unfold describeRecord
      rw [hhints]
      refine accepts_describeTypes fun t ht => accepts_describeType ih ?_
      obtain ⟨p, hp, rfl⟩ := List.mem_map.mp ht
      exact hbuilt p.2 (List.of_mem_zip hp).2

/-- A supported type can be described in any session. -/
theorem accepts_describeIn (hopens : ∀ name, R name → Opens cs R name) (hbuilt : Built R t) :
    Accepts (describeIn cs operation t) :=
  accepts_describeType (accepts_describeRecord hopens _) hbuilt

/-- And so can the class of a value that fits one. -/
theorem accepts_hostClass {v : HostValue} (hopens : ∀ name, R name → Opens cs R name)
    (hbuilt : Built R t) (hv : Fits cs v t) :
    Accepts (describeIn cs operation (.cls v.hostClass)) := by
  cases hv with
  | boolean b => exact accepts_describeIn hopens hbuilt
  | integer range => exact accepts_describeIn hopens hbuilt
  | enum range member => exact accepts_describeIn hopens hbuilt
  | float number => exact accepts_describeIn hopens hbuilt
  | text s => exact accepts_describeIn hopens hbuilt
  | bytes b => exact accepts_describeIn hopens hbuilt
  | array b => exact accepts_describeIn hopens hbuilt
  | record hints names values => exact accepts_describeIn hopens hbuilt
  | list items => exact accepts_enrol rfl accepts_pure
  | tuple items => exact accepts_enrol rfl accepts_pure
  | fixedTuple length items => exact accepts_enrol rfl accepts_pure
  | mapping keys values differ => exact accepts_enrol rfl accepts_pure

theorem hostType_built (h : Built R t) : ∃ host, t.hostType? = some host := by
  cases h <;> exact ⟨_, rfl⟩

theorem describe_ok {ctx : Context} (operation : String)
    (h : Accepts (describeIn ctx.classes operation t)) (s : Session) :
    ∃ noted, ∀ host, t.hostType? = some host →
      describe ctx t operation s = .ok host { s with described := noted } := by
  obtain ⟨noted, hnoted⟩ := h s.described
  refine ⟨noted, fun host hhost => ?_⟩
  unfold describe
  rw [hnoted, hhost]

end Bridge

end StackBridge
