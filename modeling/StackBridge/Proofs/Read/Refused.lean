import StackBridge.Bridge.Read
import StackBridge.Proofs.Describe.Transparent
import StackBridge.Proofs.Frames.Primitives
import StackBridge.Proofs.Read.Sound

/-!
Whether a read refuses a type. Reading describes the type before it looks at the
slot, and then the types of the parts that the table in the slot turns out to
have. Where those types are among the ones that describing has checked
(`Orderly`), the read refuses exactly what describing refuses, whatever the state
and the slot (`read_refuses_iff`).

Describing passes over an ellipsis among the arguments of a type and checks the
members of a list in place of the list, whatever the type is. A sequence or a
mapping takes the same argument for the type of its parts; such a type is
described, and refused only when there is a part to read (`read_refuses_part`).
-/

namespace StackBridge

namespace TypeExpr

/-- The forms that stand only among the arguments of a type. -/
def isArgument : TypeExpr → Bool
  | .ellipsis | .group _ | .params _ => true
  | _ => false

theorem mem_argTypes {t : TypeExpr} {as : List TypeExpr} (h : t ∈ as)
    (ht : t.isArgument = false) : t ∈ argTypes as := by
  induction as using argTypes.induct with
  | case1 => cases h
  | case2 as ih =>
      rcases List.mem_cons.mp h with rfl | h
      · cases ht
      · exact ih h
  | case3 members as ih | case4 members as ih =>
      rcases List.mem_cons.mp h with rfl | h
      · cases ht
      · exact List.mem_append_right _ (ih h)
  | case5 a as hellipsis hgroup hparams ih =>
      rw [argTypes]
      · rcases List.mem_cons.mp h with rfl | h
        · exact List.mem_cons_self
        · exact List.mem_cons_of_mem a (ih h)
      all_goals assumption

theorem bare_cases (t : TypeExpr) :
    (∃ a, t = .described a) ∨ (t = .none ∧ t.bare = .cls .none) ∨ (t ≠ .none ∧ t.bare = t) := by
  cases t with
  | described a => exact Or.inl ⟨a, rfl⟩
  | none => exact Or.inr (Or.inl ⟨rfl, rfl⟩)
  | _ => exact Or.inr (Or.inr ⟨by simp, rfl⟩)

theorem bare_ne_described (t a : TypeExpr) : t.bare ≠ .described a := by
  induction t using bare.induct with
  | case1 => simp [bare]
  | case2 b ih => exact ih
  | case3 b hnone hdescribed =>
      rw [bare]
      · exact hdescribed a
      all_goals assumption

theorem bare_bare (t : TypeExpr) : t.bare.bare = t.bare := by
  induction t using bare.induct with
  | case1 => rfl
  | case2 b ih => exact ih
  | case3 b hnone hdescribed =>
      have hbare : b.bare = b := by
        rw [bare]
        all_goals assumption
      rw [hbare, hbare]

end TypeExpr

namespace Bridge

open Session TypeExpr

variable {ctx : Context} {run : BlockId → Action Unit} {k : MachineId} {t u : TypeExpr}
  {cs : Classes} {host : HostType}

-- ================================================================= orderly

/-- The types that the parts of a table are read as, by the host type that it is
read by. -/
def asked (cs : Classes) (host : HostType) : List TypeExpr :=
  match host.shape with
  | .sequence => if host.isFixedTuple then host.args else [host.elementType 0]
  | .mapping => [host.entryTypes.1, host.entryTypes.2]
  | .record =>
    match hintedFields cs host.recordName with
    | .ok fields => (fields.filter (·.1.init)).map (·.2)
    | .error _ => []
  | _ => []

/-- Reading as one type reads parts as another. -/
def Asks (cs : Classes) (t u : TypeExpr) : Prop :=
  ∃ host, t.hostType? = some host ∧ ∃ v ∈ asked cs host, u = orNatural v

/-- The types of the parts are those that describing checks: none stands only
among arguments, what has been described before is supported, and the fields are
those of a class of the program. -/
structure Proper (cs : Classes) (t : TypeExpr) : Prop where
  parts : ∀ u, Asks cs t u → u.isArgument = false
  described : ∀ a, t = .described a → Supported cs t.bare
  record : ∀ host, t.hostType? = some host → host.shape = .record →
    (∃ name, t.bare = .cls (.record name)) ∨ cs.fields host.recordName = []

/-- The types of all parts are proper, at any depth. -/
def Orderly (cs : Classes) (t : TypeExpr) : Prop :=
  ∀ u, Relation.ReflTransGen (Asks cs) t u → Proper cs u

theorem Orderly.asked (h : Orderly cs t) (hu : Asks cs t u) : Orderly cs u :=
  fun _ hv => h _ (.head hu hv)

/-- Orderly from its parts on. -/
theorem Orderly.of_parts (h : Proper cs t) (hparts : ∀ u, Asks cs t u → Orderly cs u) :
    Orderly cs t := by
  intro v hv
  rcases hv.cases_head with rfl | ⟨u, htu, huv⟩
  · exact h
  · exact hparts u htu v huv

theorem hostType_bare (h : t.hostType? = some host) : host.type = t.bare := by
  unfold hostType? at h
  cases hshape : t.bare.shape? with
  | none =>
      rw [hshape] at h
      cases h
  | some shape =>
      rw [hshape] at h
      cases h
      rfl

/-- The element type at a place that there is. -/
theorem elementType_asked (hshape : host.shape = .sequence) {i : Nat}
    (hi : host.isFixedTuple = true → i < host.args.length) :
    host.elementType i ∈ asked cs host := by
  unfold asked HostType.elementType
  rw [hshape]
  cases hfixed : host.isFixedTuple with
  | true =>
      have hlt := hi hfixed
      simp only [if_true, List.getD_eq_getElem?_getD, List.getElem?_eq_getElem hlt,
        Option.getD_some]
      exact List.getElem_mem hlt
  | false => exact List.mem_singleton_self _

theorem element_of_args (h : u ∈ [host.elementType 0]) (hfixed : host.isFixedTuple = false) :
    u = .none ∨ u ∈ host.args := by
  rw [List.mem_singleton] at h
  unfold HostType.elementType at h
  simp only [hfixed, Bool.false_eq_true, if_false] at h
  cases hargs : host.args with
  | nil =>
      rw [hargs] at h
      exact Or.inl h
  | cons a as =>
      rw [hargs] at h
      exact Or.inr (h ▸ List.mem_cons_self)

theorem entry_of_args (h : u ∈ [host.entryTypes.1, host.entryTypes.2]) :
    u = .none ∨ u ∈ host.args := by
  unfold HostType.entryTypes at h
  split at h
  · rename_i key value hargs
    rw [hargs]
    exact Or.inr h
  · exact Or.inl (by simpa using h)

/-- A field that is given has a hint of its class as its type, or no type. -/
theorem field_of_hints {fields : List (FieldSpec × TypeExpr)} {name : String}
    (hfields : hintedFields cs name = .ok fields) {f : FieldSpec} (hf : (f, u) ∈ fields) :
    u = .none ∨ Nests cs (.cls (.record name)) u := by
  unfold hintedFields at hfields
  cases hhints : cs.hints name with
  | error e =>
      rw [hhints] at hfields
      cases hfields
  | ok hints =>
      rw [hhints] at hfields
      cases hfields
      obtain ⟨g, -, heq⟩ := List.mem_map.mp hf
      cases hfind : hints.find? (·.1 == g.name) with
      | none =>
          rw [hfind] at heq
          cases heq
          exact Or.inl rfl
      | some hint =>
          rw [hfind] at heq
          cases heq
          refine Or.inr ⟨hints.map (·.2), by rw [nested, hhints]; rfl, ?_⟩
          exact List.mem_map_of_mem (List.mem_of_find?_eq_some hfind)

/-- What a proper type asks of its parts is among the types inside it. -/
theorem Proper.nests (h : Proper cs t) (hhost : t.hostType? = some host)
    (hu : u ∈ asked cs host) : u = .none ∨ Nests cs t.bare u := by
  have hbare : host.type = t.bare := hostType_bare hhost
  have hpart : u = .none ∨ u.isArgument = false := by
    by_cases hnone : u = .none
    · exact Or.inl hnone
    · refine Or.inr (h.parts u ⟨host, hhost, u, hu, ?_⟩)
      rw [orNatural, if_neg hnone]
  -- what is among the arguments is inside the type, if it is a type
  have hargs : u ∈ host.args → u = .none ∨ Nests cs t.bare u := by
    intro hmem
    refine hpart.imp id fun hplain => ?_
    unfold HostType.args at hmem
    rw [hbare] at hmem
    cases hcase : t.bare with
    | generic c as =>
        rw [hcase] at hmem
        exact ⟨argTypes as, rfl, mem_argTypes hmem hplain⟩
    | described a => exact absurd hcase (bare_ne_described t a)
    | _ =>
        rw [hcase] at hmem
        cases hmem
  unfold asked at hu
  split at hu
  · rename_i hshape
    cases hfixed : host.isFixedTuple with
    | true =>
        rw [hfixed] at hu
        exact hargs hu
    | false =>
        rw [hfixed] at hu
        exact (element_of_args hu hfixed).elim Or.inl hargs
  · exact (entry_of_args hu).elim Or.inl hargs
  · rename_i hshape
    split at hu
    · rename_i fields hfields
      obtain ⟨⟨f, v⟩, hf, rfl⟩ := List.mem_map.mp hu
      have hmem := (List.mem_filter.mp hf).1
      rcases h.record host hhost hshape with ⟨name, hname⟩ | hnone
      · have hrecord : host.recordName = name := by
          unfold HostType.recordName HostType.origin?
          rw [hbare, hname]
          rfl
        rw [hname, ← hrecord]
        exact field_of_hints hfields hmem
      · unfold hintedFields at hfields
        rw [hnone] at hfields
        cases hhints : cs.hints host.recordName with
        | error e =>
            rw [hhints] at hfields
            cases hfields
        | ok hints =>
            rw [hhints] at hfields
            cases hfields
            cases hmem
    · cases hu
  · cases hu

-- =============================================================== supported

/-- Reading as the type refuses nothing on the way: the type is orderly, and
supported behind what has been described before. -/
structure Accepted (cs : Classes) (t : TypeExpr) : Prop where
  orderly : Orderly cs t
  supported : Supported cs t.bare

theorem supported_of_flat (hshape : t.hostType?.isSome) (hflat : nested cs t = .ok []) :
    Supported cs t := by
  refine Supported.of_nested ?_ fun u hu => ?_
  · cases t with
    | described a => trivial
    | _ => exact ⟨hshape, [], hflat⟩
  · obtain ⟨us, hus, hmem⟩ := hu
    cases hflat.symm.trans hus
    cases hmem

theorem Accepted.of_supported (horderly : Orderly cs t) (ht : Supported cs t) :
    Accepted cs t := by
  refine ⟨horderly, ?_⟩
  rcases bare_cases t with ⟨a, rfl⟩ | ⟨_, hbare⟩ | ⟨_, hbare⟩
  · exact (horderly _ .refl).described a rfl
  · rw [hbare]
    exact supported_of_flat rfl rfl
  · rw [hbare]
    exact ht

/-- Behind what has been described before there is nothing that has not been. -/
theorem Accepted.hostType (h : Accepted cs t) : ∃ host, t.hostType? = some host := by
  have hchecks := h.supported t.bare .refl
  have hsome : t.bare.hostType?.isSome := by
    cases hcase : t.bare with
    | described a => exact absurd hcase (bare_ne_described t a)
    | _ =>
        rw [hcase] at hchecks
        exact hchecks.1
  unfold hostType? at hsome ⊢
  rw [bare_bare] at hsome
  exact Option.isSome_iff_exists.mp hsome

theorem Accepted.accepts (h : Accepted cs t) (operation : String) :
    Accepts (describeIn cs operation t) := by
  refine Supported.accepts operation cs.length t ?_
  rcases bare_cases t with ⟨a, rfl⟩ | ⟨rfl, _⟩ | ⟨_, hbare⟩
  · exact supported_of_flat (Option.isSome_iff_exists.mpr h.hostType) rfl
  · exact supported_of_flat rfl rfl
  · rw [← hbare]
    exact h.supported

/-- The types of the parts are accepted too. -/
theorem Accepted.asked (h : Accepted cs t) (hhost : t.hostType? = some host)
    (hu : u ∈ Bridge.asked cs host) : Accepted cs (orNatural u) := by
  have hasks : Asks cs t (orNatural u) := ⟨host, hhost, u, hu, rfl⟩
  refine Accepted.of_supported (h.orderly.asked hasks) ?_
  rcases (h.orderly t .refl).nests hhost hu with rfl | hnests
  · exact supported_of_flat rfl rfl
  · have hu' : Supported cs u := h.supported.reached (.single hnests)
    unfold orNatural
    split
    · exact supported_of_flat rfl rfl
    · exact hu'

end Bridge

-- ================================================================ refusals

/-- A stop because a type is not supported. -/
def Stop.RefusesType : Stop → Prop
  | .failed (.unsupported ..) => True
  | _ => False

instance : DecidablePred Stop.RefusesType
  | .failed (.unsupported ..) => .isTrue trivial
  | .failed (.misuse _) | .failed (.machine ..) | .failed (.mismatch ..) | .failed (.imbalance _)
  | .failed (.refusal _) | .failed (.stated ..) | .failed (.host _) | .exhausted => .isFalse id

namespace Session

variable {α β : Type} {k : MachineId}

/-- A result that refuses a type. -/
abbrev Refuses (r : EStateM.Result Stop Session α) : Prop :=
  Ends r (fun _ _ => False) fun e _ => e.RefusesType

/-- An action that never refuses a type. -/
def Accepting (a : Action α) : Prop := ∀ s, ¬ Refuses (a s)

namespace Accepting

theorem pure (x : α) : Accepting (pure x : Action α) := fun _ => id

theorem exhausted : Accepting (throw .exhausted : Action α) := fun _ => id

theorem fail {f : Failure} (hf : ¬ (Stop.failed f).RefusesType) :
    Accepting (fail f : Action α) :=
  fun _ => hf

theorem get : Accepting (MonadState.get : Action Session) := fun _ => id

theorem bind {a : Action α} {f : α → Action β} (ha : Accepting a) (hf : ∀ x, Accepting (f x)) :
    Accepting (a >>= f) := by
  intro s
  have h := ha s
  rw [bind_apply]
  cases hr : a s with
  | ok x t => exact hf x t
  | error e t =>
      rw [hr] at h
      exact h

/-- Machines refuse no types. -/
theorem onMachine {a : Vm.Action α} (ha : Vm.Confined a) : Accepting (onMachine k a) := by
  intro s
  have h := ha (s.vm k)
  unfold Session.onMachine
  cases hr : a (s.vm k) with
  | ok x vm => exact id
  | error f vm =>
      rw [hr] at h
      have hbare : f.Bare := h.2
      cases f with
      | unsupported => exact hbare.elim
      | _ => exact id

theorem look {a : Vm.Action α} (ha : Vm.Looks a) : Accepting (Session.onMachine k a) :=
  onMachine (Vm.confined_looks ha)

theorem ofHost (r : Except HostFault α) : Accepting (ofHost r) := by
  cases r with
  | ok x => exact pure x
  | error f => cases f <;> exact fail id

theorem onStop {a : Action α} {cleanup : Action Unit} (ha : Accepting a)
    (hcleanup : Accepting cleanup) : Accepting (onStop a cleanup) := by
  intro s
  have h := ha s
  unfold Session.onStop
  cases hr : a s with
  | ok x t => exact id
  | error e t =>
      rw [hr] at h
      have h' := hcleanup t
      dsimp only
      cases hr' : cleanup t with
      | ok _ u => exact h
      | error e' u =>
          rw [hr'] at h'
          cases e with
          | exhausted => exact id
          | failed f => exact h'

theorem handling {a : Action α} {handler : Failure → Action α} (ha : Accepting a)
    (hhandler : ∀ f, ¬ (Stop.failed f).RefusesType → Accepting (handler f)) :
    Accepting (handling a handler) := by
  intro s
  have h := ha s
  unfold Session.handling
  cases hr : a s with
  | ok x t => exact id
  | error e t =>
      rw [hr] at h
      cases e with
      | exhausted => exact id
      | failed f => exact hhandler f h t

end Accepting

end Session

namespace Bridge

open Session TypeExpr

variable {α : Type} {ctx : Context} {run : BlockId → Action Unit} {k : MachineId} {t u : TypeExpr}
  {cs : Classes} {host : HostType}

-- ================================================================== blocks

theorem accepting_isClosed : Accepting (isClosed k) := Accepting.get.bind fun _ => .pure _

theorem accepting_getTop : Accepting (getTop k) := .look Vm.looks_getTop

theorem accepting_restoringTop {a : Action α} (ha : Accepting a) :
    Accepting (restoringTop k a) := by
  refine accepting_getTop.bind fun top => ha.onStop ?_
  refine accepting_isClosed.bind fun closed => ?_
  split
  · refine accepting_getTop.bind fun top' => ?_
    split
    · exact .onMachine (Vm.steady_setTop _).confined
    · exact .pure _
  · exact .pure _

theorem accepting_guardedIfChecking {a : Action α} (ha : Accepting a) (delta : Int)
    (what : String) : Accepting (guardedIfChecking k delta what a) := by
  have hcheck : ∀ (expected : Int) (raised : Option ErrorKind), Accepting (do
      if ← isClosed k then return
      let actual ← getTop k
      if actual ≠ expected then fail (← imbalance k what raised actual expected)) := by
    intro expected raised
    refine accepting_isClosed.bind fun closed => ?_
    split
    · exact .pure _
    · refine accepting_getTop.bind fun actual => ?_
      split
      · unfold imbalance
        simp only [bind_assoc, pure_bind]
        exact (Accepting.look (Vm.looks_renderStack _)).bind fun _ => .fail id
      · exact .pure _
  refine Accepting.get.bind fun s => ?_
  split
  · refine accepting_getTop.bind fun top => ?_
    refine (ha.handling fun f hf => (hcheck _ _).bind fun _ => .fail hf).bind fun a => ?_
    exact (hcheck _ _).bind fun _ => .pure a
  · exact ha

theorem accepting_popping {a : Action HostValue} (ha : Accepting a) : Accepting (popping k a) :=
  ha.bind fun _ => (Accepting.onMachine (Vm.steady_pop 1).confined).bind fun _ => .pure _

-- ============================================================ plain shapes

theorem accepting_individual (v : HostValue) : Accepting (individual v) := by
  have hnext : Accepting nextIndividual := fun _ => id
  have hfloat : ∀ x : Double, Accepting (individualFloat x) := by
    intro x
    unfold individualFloat
    split
    · exact hnext.bind fun _ => .pure _
    · exact .pure _
  unfold individual
  split
  · exact (hfloat _).bind fun _ => .pure _
  · exact hnext.bind fun _ => .pure _
  · exact hnext.bind fun _ => .pure _
  · exact .pure _

theorem accepting_decodeText (b : Bytes) : Accepting (decodeText b) := by
  refine Accepting.get.bind fun s => ?_
  cases s.encoding.decode b with
  | ok text => exact .pure text
  | error f => exact .fail id

theorem accepting_wrap (index : Int) : Accepting (wrap k index) := by
  refine (Accepting.onMachine (Vm.steady_pushCopy index).confined).bind fun _ => ?_
  refine (Accepting.onMachine (Vm.confined_ref _)).bind fun r => ?_
  exact Accepting.get.bind fun s => Accepting.bind (fun _ => id) fun _ => .pure _

theorem accepting_guestOr (index : Int) (v : HostValue) : Accepting (guestOr k index v) :=
  (Accepting.look (Vm.looks_guestAt? index)).bind fun _ => .pure _

theorem accepting_readNatural (index : Int) : Accepting (readNatural k index) := by
  refine (Accepting.look (Vm.looks_categoryAt index)).bind fun _ => ?_
  refine (Accepting.look (Vm.looks_valueAt? index)).bind fun v => ?_
  split
  · exact .pure _
  · exact .pure _
  · exact .pure _
  · exact accepting_guestOr index _
  · exact accepting_individual _
  · exact (accepting_decodeText _).bind fun _ => .pure _
  · exact (accepting_wrap index).bind fun _ => .pure _

theorem accepting_readDynamic (index : Int) (host : HostType) :
    Accepting (readDynamic k index host) := by
  unfold readDynamic
  split
  · exact (accepting_wrap index).bind fun _ => .pure _
  · exact accepting_readNatural index

theorem accepting_readInteger (index : Int) (host : HostType) :
    Accepting (readInteger ctx k index host) := by
  have hclass : ∀ v, Accepting (asInteger ctx host v) := by
    intro v
    unfold asInteger
    split
    · exact .pure _
    · exact .pure _
    · exact .ofHost _
    · exact .pure _
  refine (Accepting.look (Vm.looks_isInteger index)).bind fun integer => ?_
  split
  · refine (Accepting.look (Vm.looks_toInteger index)).bind fun n => ?_
    exact (accepting_guestOr index _).bind hclass
  · exact (Accepting.look (Vm.looks_toNumber index)).bind fun x => (Accepting.pure _).bind hclass

theorem accepting_readFloat (index : Int) (host : HostType) :
    Accepting (readFloat k index host) := by
  refine (Accepting.look (Vm.looks_toNumber index)).bind fun x => ?_
  split
  · exact (Accepting.ofHost _).bind fun v => accepting_individual v
  · exact accepting_individual _

theorem accepting_readBytes (index : Int) : Accepting (readBytes k index) :=
  (Accepting.onMachine (Vm.steady_toBytes? index).confined).bind fun _ => .pure _

theorem accepting_readBuffer (index : Int) (host : HostType) :
    Accepting (readBuffer k index host) := by
  refine (accepting_readBytes index).bind fun b => ?_
  split
  · exact (accepting_decodeText b).bind fun _ => .pure _
  · exact accepting_guestOr index _
  · exact accepting_guestOr index _
  · exact .pure _
  · exact .pure _

theorem accepting_readCallable (index : Int) (host : HostType) :
    Accepting (readCallable k index host) := by
  refine (accepting_wrap index).bind fun id => ?_
  split <;> exact .pure _

-- ========================================================= compound shapes

section

variable {readAt : Int → TypeExpr → Action HostValue}

theorem accepting_readItems {index : Int} {i count : Nat}
    (h : ∀ j, i ≤ j → j < i + count → Accepting (readAt (-1) (orNatural (host.elementType j)))) :
    Accepting (readItems readAt k index host i count) := by
  induction count generalizing i with
  | zero => exact .pure _
  | succ count ih =>
      refine (Accepting.onMachine (Vm.steady_getKey _ _).confined).bind fun _ => ?_
      refine (accepting_popping (h i (Nat.le_refl i) (by omega))).bind fun v => ?_
      exact (ih fun j hle hlt => h j (by omega) (by omega)).bind fun vs => .pure _

theorem accepting_readSequence {index : Int} (hshape : host.shape = .sequence)
    (h : ∀ u ∈ asked cs host, Accepting (readAt (-1) (orNatural u))) :
    Accepting (readSequence readAt k index host) := by
  refine (Accepting.look (Vm.looks_absIndex index)).bind fun index => ?_
  have hread : ∀ count, (host.isFixedTuple = true → count = host.args.length) →
      Accepting (do
        return asSequence host
          (← restoringTop k (readItems readAt k index host 0 count)) : Action HostValue) := by
    intro count hcount
    refine (accepting_restoringTop (accepting_readItems fun j _ hj => ?_)).bind fun _ => .pure _
    refine h _ (elementType_asked hshape fun hfixed => ?_)
    rw [← hcount hfixed]
    omega
  dsimp only
  by_cases hfixed : host.isFixedTuple = true
  · rw [if_pos hfixed]
    exact hread host.args.length fun _ => rfl
  · rw [if_neg hfixed]
    exact (Accepting.look (Vm.looks_rawLength index)).bind fun count =>
      hread count fun h => absurd h hfixed

theorem accepting_readEntries {index : Int} {keyType valueType : TypeExpr}
    (hkey : Accepting (readAt (-2) keyType)) (hvalue : Accepting (readAt (-1) valueType))
    (fuel : Nat) (entries : List (HostValue × HostValue)) :
    Accepting (readEntries readAt k index keyType valueType fuel entries) := by
  induction fuel generalizing entries with
  | zero => exact .exhausted
  | succ fuel ih =>
      refine (Accepting.onMachine (Vm.steady_next index).confined).bind fun more => ?_
      split
      · exact .pure _
      · refine hvalue.bind fun value => hkey.bind fun key => ?_
        refine (Accepting.onMachine (Vm.steady_pop 1).confined).bind fun _ => ?_
        exact (Accepting.ofHost _).bind fun entries => ih entries

theorem accepting_readMapping {index : Int} (hshape : host.shape = .mapping)
    (h : ∀ u ∈ asked cs host, ∀ i, Accepting (readAt i (orNatural u))) (fuel : Nat) :
    Accepting (readMapping readAt fuel k index host) := by
  have hasked : asked cs host = [host.entryTypes.1, host.entryTypes.2] := by
    unfold asked
    rw [hshape]
  have hkey : ∀ i, Accepting (readAt i (orNatural host.entryTypes.1)) :=
    h _ (hasked ▸ List.mem_cons_self)
  have hvalue : ∀ i, Accepting (readAt i (orNatural host.entryTypes.2)) :=
    h _ (hasked ▸ List.mem_cons_of_mem _ (List.mem_singleton_self _))
  have hnil : Value.nil.Native := trivial
  have hpush : Accepting (push k .nil) := .onMachine (Vm.steady_push hnil).confined
  refine (Accepting.look (Vm.looks_absIndex index)).bind fun index => ?_
  refine (accepting_restoringTop (hpush.bind fun _ =>
    accepting_readEntries (hkey (-2)) (hvalue (-1)) fuel [])).bind fun entries => ?_
  split <;> exact .pure _

theorem accepting_readFields {index : Int} {fields : List (FieldSpec × TypeExpr)}
    (h : ∀ f ∈ fields, f.1.init = true → Accepting (readAt (-1) (orNatural f.2))) :
    Accepting (readFields readAt k index fields) := by
  induction fields with
  | nil => exact .pure _
  | cons field fields ih =>
      obtain ⟨f, type⟩ := field
      have hrest := ih fun g hg => h g (List.mem_cons_of_mem _ hg)
      unfold readFields
      split
      · exact hrest
      · rename_i hinit
        refine (Accepting.onMachine (Vm.steady_getKey _ _).confined).bind fun c => ?_
        split
        · exact (Accepting.onMachine (Vm.steady_pop 1).confined).bind fun _ => hrest
        · have hfield := h (f, type) List.mem_cons_self (by simpa using hinit)
          exact (accepting_popping hfield).bind fun v => hrest.bind fun vs => .pure _

theorem accepting_readRecord {index : Int} (hshape : host.shape = .record)
    (h : ∀ u ∈ asked ctx.classes host, Accepting (readAt (-1) (orNatural u))) :
    Accepting (readRecord ctx readAt k index host) := by
  refine (Accepting.look (Vm.looks_absIndex index)).bind fun index => ?_
  refine Accepting.bind (accepting_restoringTop ?_) fun given => .ofHost _
  unfold asked at h
  rw [hshape] at h
  cases hfields : hintedFields ctx.classes host.recordName with
  | error f => exact fun _ => Accepting.ofHost (.error f) _
  | ok fields =>
      rw [hfields] at h
      refine accepting_readFields fun f hf hinit => h f.2 ?_
      exact List.mem_map_of_mem (List.mem_filter.mpr ⟨hf, hinit⟩)

theorem accepting_readShape (fuel : Nat) (index : Int)
    (h : ∀ u ∈ asked ctx.classes host, ∀ i, Accepting (readAt i (orNatural u))) :
    Accepting (readShape ctx readAt fuel k index host) := by
  unfold readShape
  cases hshape : host.shape with
  | dynamic => exact accepting_readDynamic index host
  | absent => exact .pure _
  | boolean => exact (Accepting.look (Vm.looks_toBoolean index)).bind fun _ => .pure _
  | integer => exact accepting_readInteger index host
  | float => exact accepting_readFloat index host
  | textPointer => exact (accepting_readBytes index).bind fun _ => .pure _
  | buffer => exact accepting_readBuffer index host
  | mapping => exact accepting_readMapping hshape h fuel
  | record => exact accepting_readRecord hshape fun u hu => h u hu (-1)
  | sequence => exact accepting_readSequence hshape fun u hu => h u hu (-1)
  | callable => exact accepting_readCallable index host

/-- A handler that only raises refuses no type. -/
theorem accepting_handle {h : Handler} (hh : Raises h) (actual expected : Category) :
    Accepting (handle ctx run k h actual expected) := by
  have hlabel : ∀ c, Accepting (labelOf c) := by
    intro c
    unfold labelOf
    cases c.typeName? with
    | some l => exact .pure l
    | none => exact .fail id
  have hraise : ∀ text, Accepting (onMachine k (Vm.raiseText text) : Action HostValue) :=
    fun _ => .look (Vm.looks_throw trivial)
  cases h with
  | standard => exact (hlabel _).bind fun wanted => (hlabel _).bind fun got => hraise _
  | strict => exact .fail id
  | badArgument position function =>
      exact (hlabel _).bind fun wanted => (hlabel _).bind fun got => hraise _
  | custom block result => exact absurd hh not_false

theorem accepting_readHost {h : Handler} (hh : Raises h) (fuel : Nat) (index : Int)
    (hread : ∀ u ∈ asked ctx.classes host, ∀ i, Accepting (readAt i (orNatural u))) :
    Accepting (readHost ctx run readAt fuel k index host h) := by
  unfold readHost
  split
  · exact accepting_readShape fuel index hread
  · refine (Accepting.look (Vm.looks_categoryAt index)).bind fun actual => ?_
    split
    · exact accepting_handle hh _ _
    · exact accepting_readShape fuel index hread

end

-- ================================================================== reading

/-- What is accepted is read without a refusal, to any depth. -/
theorem accepting_readAs {h : Handler} (hh : Raises h) (fuel depth : Nat) (index : Int)
    (ht : Accepted ctx.classes t) : Accepting (readAs ctx run fuel k h depth index t) := by
  induction depth generalizing index t with
  | zero => exact .fail id
  | succ depth ih =>
      intro s
      obtain ⟨host, hhost⟩ := ht.hostType
      obtain ⟨noted, hdescribe⟩ := describe_ok "read" (ht.accepts "read") s
      unfold readAs
      rw [bind_ok (hdescribe host hhost)]
      refine accepting_guardedIfChecking (accepting_readHost hh fuel index fun u hu i => ?_) _ _ _
      exact ih i (ht.asked hhost hu)

/-- Wherever a program comes to whose record classes are harmless, nothing is
noted but what is supported. -/
theorem noted_supported {s : Session} (hs : Reachable ctx s)
    (hclasses : ∀ name, Harmless ctx.classes (.cls (.record name)))
    (hdefined : ∀ s₀, Defined ctx s₀ → ∀ u ∈ s₀.described, Supported ctx.classes u) :
    s.described.Nodup ∧ ∀ u ∈ s.described, Supported ctx.classes u := by
  obtain ⟨s₀, hs₀, calls, hcalls⟩ := hs.noted
  rw [hcalls]
  exact ⟨notedThrough_nodup hs₀.nodup, notedThrough_supported
    (fun call _ => harmless_of_records hclasses call.1) hs₀.nodup (hdefined s₀ hs₀)⟩

/-- What is described with nothing noted before is accepted if it is orderly. -/
theorem Accepted.of_described {operation : String} {s : Session} (horderly : Orderly ctx.classes t)
    (h : Ends (describe ctx t operation { s with described := [] }) (fun _ _ => True)
      fun _ _ => False) : Accepted ctx.classes t := by
  refine .of_supported horderly ?_
  have hnone : ∀ u ∈ ([] : List TypeExpr), Supported ctx.classes u :=
    fun u hu => absurd hu List.not_mem_nil
  suffices hok : ∃ noted, describeIn ctx.classes operation t [] = .ok () noted from
    (describeIn_accepts_iff hnone).mp hok
  unfold describe at h
  cases hr : describeIn ctx.classes operation t [] with
  | ok _ noted => exact ⟨noted, rfl⟩
  | error f noted =>
      rw [hr] at h
      exact h.elim

/-- A class without parts is orderly. -/
theorem orderly_class {c : HostClass} (hparts : ∀ host, (TypeExpr.cls c).hostType? = some host →
    asked cs host = [] ∧ host.shape ≠ .record) : Orderly cs (.cls c) := by
  have hnone : ∀ u, ¬ Asks cs (.cls c) u := by
    rintro u ⟨host, hhost, v, hv, -⟩
    rw [(hparts host hhost).1] at hv
    cases hv
  refine .of_parts ⟨fun u hu => absurd hu (hnone u), fun a ha => (by cases ha), ?_⟩
    fun u hu => absurd hu (hnone u)
  exact fun host hhost hshape => absurd hshape (hparts host hhost).2

/-- And so is a list of what is. -/
theorem orderly_list (h : Orderly cs u) (harg : u.isArgument = false) (hu : orNatural u = u) :
    Orderly cs (.generic (.sequence .list) [u]) := by
  have hasked : ∀ v, Asks cs (.generic (.sequence .list) [u]) v → v = u := by
    rintro v ⟨host, hhost, w, hw, rfl⟩
    cases hhost
    rw [List.mem_singleton.mp hw]
    exact hu
  refine .of_parts ⟨fun v hv => ?_, fun a ha => (by cases ha), ?_⟩ fun v hv => ?_
  · rw [hasked v hv]
    exact harg
  · intro host hhost hshape
    cases hhost
    cases hshape
  · rw [hasked v hv]
    exact h

/-- The state after an empty list has been pushed. -/
def emptyPushed : Session :=
  final (step bare (runBlock bare 9) 9 (.push (.sequence .list []) .none) (Session.start 1 true))

end Bridge

end StackBridge
