import StackBridge.Bridge.Equality
import StackBridge.Bridge.Handler
import StackBridge.Bridge.Push
import StackBridge.Proofs.Session.Law

/-!
The parts of the bridge that run no blocks keep what their parts keep: what
touches no machine at all, such as evaluating and describing, and what looks
at wrappers and compares. Pushing a host value writes to the tables that it
makes, so a relation that is not blind to writes has to know it as a whole;
one that is knows it from here, and wrappers too.
-/

namespace StackBridge

namespace Session

open Bridge Law

variable {L : Law} {ctx : Context} {k : MachineId} {α β : Type}

section

variable [Lawful L]

-- =============================================================== no machine

theorem holds_ofHost (r : Except HostFault α) : L.Holds fun _ => ofHost r := by
  cases r with
  | ok x => exact .pure x
  | error f => exact .fail (Failure.plain_ofHost f)

theorem holds_report (r : Report) : L.Holds fun _ => report r :=
  .tell (fun _ _ => rfl) fun _ => ⟨rfl, rfl, rfl, rfl, rfl, rfl⟩

theorem holds_setVariable (name : String) (v : HostValue) :
    L.Holds fun _ => setVariable name v :=
  .tell (fun _ _ => rfl) fun _ => ⟨rfl, rfl, rfl, rfl, rfl, rfl⟩

theorem holds_storeAs (name : Option String) (v : HostValue) : L.Holds fun _ => storeAs name v := by
  cases name with
  | none => exact .pure _
  | some n => exact holds_setVariable n v

theorem holds_view (v : HostValue) : L.Holds fun _ => view v :=
  .ask (fun _ _ => rfl) fun _ _ _ => holds_ofHost _

theorem holds_nextIndividual : L.Holds fun _ => nextIndividual :=
  .note (x := fun s => s.individuals + 1)
    (g := fun s => { s with individuals := s.individuals + 1 }) (fun _ => rfl) (fun _ _ => rfl)
    (fun _ _ => rfl) fun s _ hsame =>
      ⟨rfl, rfl, rfl, rfl, rfl, (Lawful.current hsame : L.Valid s.current)⟩

theorem holds_individualFloat (x : Double) : L.Holds fun _ => individualFloat x := by
  unfold individualFloat
  split
  · exact holds_nextIndividual.bind fun _ => .pure _
  · exact .pure _

theorem holds_individual (v : HostValue) : L.Holds fun _ => individual v := by
  unfold individual
  split
  · exact (holds_individualFloat _).bind fun _ => .pure _
  · exact holds_nextIndividual.bind fun _ => .pure _
  · exact holds_nextIndividual.bind fun _ => .pure _
  · exact .pure _

theorem holds_encodeText (text : String) : L.Holds fun _ => encodeText text := by
  refine .ask (fun _ _ => rfl) fun s s' hsame => ?_
  cases s.encoding.encode text with
  | ok b => exact .pure b
  | error f => exact .fail trivial

theorem holds_decodeText (b : Bytes) : L.Holds fun _ => decodeText b := by
  refine .ask (fun _ _ => rfl) fun s s' hsame => ?_
  cases s.encoding.decode b with
  | ok t => exact .pure t
  | error f => exact .fail trivial

theorem holds_mapM {f : α → Action β} (hf : ∀ x, L.Holds fun _ => f x) (xs : List α) :
    L.Holds fun _ => xs.mapM f := by
  induction xs with
  | nil =>
      rw [List.mapM_nil]
      exact .pure _
  | cons x xs ih =>
      rw [List.mapM_cons]
      exact (hf x).bind fun _ => ih.bind fun _ => .pure _

end

section

variable [Describes ctx L]

theorem holds_describe (t : TypeExpr) (operation : String) :
    L.Holds fun _ => describe ctx t operation :=
  Describes.describe t operation

mutual

theorem holds_prepare : ∀ t : TypeExpr, L.Holds fun _ => prepare ctx t
  | .described t => by
      unfold prepare
      exact (holds_prepare t).bind fun _ => (holds_describe _ _).bind fun _ => .pure _
  | .generic c as => by
      unfold prepare
      exact (holds_prepareAll as).bind fun _ => .pure _
  | .union _ as => by
      unfold prepare
      exact (holds_prepareAll as).bind fun _ => holds_ofHost _
  | .group as => by
      unfold prepare
      exact (holds_prepareAll as).bind fun _ => .pure _
  | .params as => by
      unfold prepare
      exact (holds_prepareAll as).bind fun _ => .pure _
  | .forward s => by
      unfold prepare
      split
      · exact .pure _
      · exact .fail trivial
  | .none | .any | .cls _ | .anyCallable | .ellipsis | .text _ | .constant _ _ => .pure _

theorem holds_prepareAll : ∀ as : List TypeExpr, L.Holds fun _ => prepareAll ctx as
  | [] => .pure _
  | a :: as => by
      unfold prepareAll
      exact (holds_prepare a).bind fun _ => (holds_prepareAll as).bind fun _ => .pure _

end

theorem holds_prepareOption (t : Option TypeExpr) : L.Holds fun _ => prepareOption ctx t := by
  cases t with
  | none => exact .pure _
  | some t => exact (holds_prepare t).bind fun _ => .pure _

-- =============================================================== evaluation

theorem holds_prepareSpec (spec : FunctionSpec) : L.Holds fun _ => prepareSpec ctx spec := by
  refine (holds_mapM (fun p => ?_) spec.params).bind fun _ => ?_
  · exact (holds_prepareOption p.type).bind fun _ => .pure _
  · exact (holds_prepareOption spec.returns).bind fun _ => .pure _

/-- Members of enumerations are looked up, other values are themselves. -/
theorem holds_evalValue (v : HostValue) : L.Holds fun _ => eval ctx (.value v) := by
  cases v with
  | integer kind n =>
      cases kind with
      | enum c => exact holds_ofHost _
      | _ => exact holds_individual _
  | _ => exact holds_individual _

mutual

theorem holds_eval : ∀ e : Expr, L.Holds fun _ => eval ctx e
  | .var name => by
      unfold eval
      refine .ask (fun _ _ => rfl) fun s s' hsame => ?_
      cases s.stored? name with
      | some v => exact .pure v
      | none => exact .fail trivial
  | .value v => holds_evalValue v
  | .sequence k items => by
      unfold eval
      exact (holds_evalList items).bind fun _ => .pure _
  | .mapping k entries => by
      unfold eval
      exact (holds_evalEntries entries).bind fun _ => (holds_ofHost _).bind fun _ => .pure _
  | .record name args => by
      unfold eval
      exact (holds_evalList args).bind fun _ => holds_ofHost _
  | .instanceOf c e => by
      unfold eval
      exact (holds_eval e).bind fun _ => .ask (fun _ _ => rfl) fun _ _ _ =>
        (holds_ofHost _).bind fun _ => holds_individual _
  | .function spec defaults => by
      unfold eval
      exact (holds_prepareSpec spec).bind fun _ => (holds_evalList defaults).bind fun _ =>
        holds_individual _

theorem holds_evalList : ∀ es : List Expr, L.Holds fun _ => evalList ctx es
  | [] => .pure _
  | e :: es => by
      unfold evalList
      exact (holds_eval e).bind fun _ => (holds_evalList es).bind fun _ => .pure _

theorem holds_evalEntries : ∀ es : List (Expr × Expr), L.Holds fun _ => evalEntries ctx es
  | [] => .pure _
  | (key, v) :: es => by
      unfold evalEntries
      exact (holds_eval key).bind fun _ => (holds_eval v).bind fun _ =>
        (holds_evalEntries es).bind fun _ => .pure _

end

theorem holds_evalDefault (d : DefaultExpr) : L.Holds fun _ => evalDefault ctx d := by
  cases d with
  | required => exact .pure _
  | value e => exact (holds_eval e).bind fun _ => .pure _
  | emptyList => exact .pure _

theorem holds_evalClass (c : ClassExpr) : L.Holds fun _ => evalClass ctx c := by
  cases c with
  | enum name members => exact .pure _
  | record name tuple fields =>
      refine (holds_mapM (fun f => ?_) fields).bind fun _ => .pure _
      exact (holds_prepareOption f.type).bind fun _ => (holds_evalDefault f.default).bind fun _ =>
        .pure _

end

theorem holds_evalClasses [Lawful L] [∀ ctx, Describes ctx L] (p : Program)
    (cs : List ClassExpr) (classes : Classes) : L.Holds fun _ => evalClasses p cs classes := by
  induction cs generalizing classes with
  | nil => exact .pure _
  | cons c cs ih => exact (holds_evalClass c).bind fun d => ih _

section

variable [Moves L]

-- ================================================================= wrappers

theorem holds_pushWrapped (id : Nat) : L.Holds fun _ => pushWrapped id := by
  refine .ask (fun _ _ => rfl) fun s s' hsame => ?_
  have hhome := Lawful.home hsame id
  dsimp only
  split
  · exact .fail trivial
  · exact holds_push hhome trivial
  · exact (holds_primitive hhome (.getKey _ _)).bind fun _ => .pure _

theorem holds_wrappedCategory (id : Nat) : L.Holds fun _ => wrappedCategory id := by
  refine .ask (fun _ _ => rfl) fun s s' hsame => (holds_pushWrapped id).bind fun _ => ?_
  exact (holds_look (Vm.looks_categoryAt _)).ensuring
    (holds_primitive (Lawful.home hsame id) (.pop _))

theorem holds_sameWrapped (id other : Nat) : L.Holds fun _ => sameWrapped id other := by
  refine .ask (fun _ _ => rfl) fun s s' hsame => .ask (fun _ _ => rfl) fun _ _ _ => ?_
  split
  · exact .pure _
  · refine (holds_pushWrapped id).bind fun _ => (holds_pushWrapped other).bind fun _ => ?_
    exact (holds_look (Vm.looks_rawEqual _ _)).ensuring
      (holds_primitive (Lawful.home hsame id) (.pop _))

-- ================================================================== members

theorem holds_wrapperMember (v : HostValue) (id : Nat) (name : String) :
    L.Holds fun _ => wrapperMember v id name := by
  unfold wrapperMember
  split
  · exact (holds_wrappedCategory id).bind fun _ => .pure _
  · exact (holds_wrappedCategory id).bind fun _ => .pure _
  · exact .ask (fun _ _ => rfl) fun _ _ _ => .pure _
  · exact .pure _
  · exact .pure _

theorem holds_specialMember? (v : HostValue) (name : String) :
    L.Holds fun _ => specialMember? v name := by
  unfold specialMember?
  split
  · exact holds_wrapperMember _ _ _
  · exact .pure _
  · exact .pure _

theorem holds_memberOf (v : HostValue) (name : String) : L.Holds fun _ => memberOf ctx v name := by
  refine (holds_specialMember? v name).bind fun special => ?_
  cases special with
  | some x => exact .pure x
  | none => exact (holds_ofHost _).bind fun x => holds_individual x

-- ================================================================= equality

section

variable {same greater : HostValue → HostValue → Action Bool}

theorem holds_sameInside (hs : ∀ v w, L.Holds fun _ => same v w) (v w : HostValue) :
    L.Holds fun _ => sameInside same v w := by
  unfold sameInside
  split
  · exact .pure _
  · exact hs v w

theorem holds_sameItems (hs : ∀ v w, L.Holds fun _ => same v w) (vs ws : List HostValue) :
    L.Holds fun _ => sameItems same vs ws := by
  induction vs generalizing ws with
  | nil =>
      cases ws with
      | nil => exact .pure _
      | cons w ws => exact .pure _
  | cons v vs ih =>
      cases ws with
      | nil => exact .pure _
      | cons w ws =>
          refine (holds_sameInside hs v w).bind fun b => ?_
          split
          · exact ih ws
          · exact .pure _

theorem holds_sameEntries (hs : ∀ v w, L.Holds fun _ => same v w)
    (others es : List (HostValue × HostValue)) :
    L.Holds fun _ => sameEntries same others es := by
  induction es with
  | nil => exact .pure _
  | cons e es ih =>
      unfold sameEntries
      cases Dict.find? others e.1 with
      | none => exact .pure _
      | some w =>
          refine (holds_sameInside hs w e.2).bind fun b => ?_
          split
          · exact ih
          · exact .pure _

theorem holds_sameMappings (hs : ∀ v w, L.Holds fun _ => same v w) (ordered : Bool)
    (es fs : List (HostValue × HostValue)) :
    L.Holds fun _ => sameMappings same ordered es fs := by
  unfold sameMappings
  split
  · exact .pure _
  · refine (holds_sameEntries hs fs es).bind fun b => ?_
    split <;> exact .pure _

theorem holds_firstDifference (hs : ∀ v w, L.Holds fun _ => same v w)
    (hg : ∀ v w, L.Holds fun _ => greater v w) (vs ws : List HostValue) :
    L.Holds fun _ => firstDifference same greater vs ws := by
  induction vs generalizing ws with
  | nil => exact .pure _
  | cons v vs ih =>
      cases ws with
      | nil => exact .pure _
      | cons w ws =>
          refine (holds_sameInside hs v w).bind fun b => ?_
          split
          · exact ih ws
          · exact hg v w

end

theorem holds_equalWithin (cs : Classes) (fuel : Nat) (v w : HostValue) :
    L.Holds fun _ => equalWithin cs fuel v w := by
  induction fuel generalizing v w with
  | zero =>
      unfold equalWithin
      split
      case h_1 => split <;> exact holds_sameWrapped _ _
      case h_2 => exact .pure _
      case h_3 hfuel _ => cases hfuel
  | succ fuel ih =>
      unfold equalWithin
      split
      case h_1 => split <;> exact holds_sameWrapped _ _
      case h_2 hfuel _ => cases hfuel
      case h_3 hfuel _ =>
        cases hfuel
        split
        · split
          · exact .pure _
          · exact holds_sameItems ih _ _
        · split
          · exact holds_sameMappings ih _ _ _
          · split
            · exact .pure _
            · exact (holds_ofHost _).bind fun _ => (holds_ofHost _).bind fun _ =>
                holds_sameItems ih _ _
          · exact .pure _

theorem holds_equal (cs : Classes) (v w : HostValue) : L.Holds fun _ => equal cs v w :=
  holds_equalWithin cs _ v w

theorem holds_equality (cs : Classes) (v w : HostValue) : L.Holds fun _ => equality cs v w := by
  unfold equality
  split
  · split
    · exact .pure _
    · exact .pure _
    · exact .pure _
    · split
      · exact holds_individual _
      · exact (holds_equal cs _ _).bind fun _ => .pure _
  · exact (holds_equal cs _ _).bind fun _ => .pure _

theorem holds_greaterWithin (cs : Classes) (fuel : Nat) (turned : Bool) (v w : HostValue) :
    L.Holds fun _ => greaterWithin cs fuel turned v w := by
  induction fuel generalizing turned v w with
  | zero =>
      unfold greaterWithin
      dsimp only
      split
      · exact .pure _
      · split
        · exact .pure _
        · exact .fail trivial
        · exact .fail trivial
        · exact .pure _
        · exact .pure _
        · exact .fail trivial
  | succ fuel ih =>
      unfold greaterWithin
      dsimp only
      split
      · exact .pure _
      · split
        · exact .pure _
        · exact .fail trivial
        · exact .fail trivial
        · exact .pure _
        · exact .pure _
        · split
          case h_1 hfuel _ =>
            cases hfuel
            exact holds_firstDifference (holds_equalWithin cs fuel) (ih _) _ _
          case h_2 => exact .fail trivial

theorem holds_greatestFrom (cs : Classes) (best : HostValue) (vs : List HostValue) :
    L.Holds fun _ => greatestFrom cs best vs := by
  induction vs generalizing best with
  | nil => exact .pure _
  | cons v vs ih =>
      refine (holds_greaterWithin cs _ _ _ _).bind fun b => ?_
      split
      · exact ih v
      · exact ih best

theorem holds_greatest (cs : Classes) (vs : List HostValue) : L.Holds fun _ => greatest cs vs := by
  cases vs with
  | nil => exact .fail trivial
  | cons v vs => exact holds_greatestFrom cs v vs

-- =================================================================== pushes

variable (hk : L.Valid k)

include hk

theorem holds_pushIntegerSlot (v : HostValue) : L.Holds fun _ => pushIntegerSlot k v := by
  refine (holds_ofHost _).bind fun n => ?_
  split
  · next hrange => exact holds_push hk hrange
  · cases Double.ofInt? n with
    | some x => exact holds_push hk trivial
    | none => exact .fail trivial

theorem holds_pushBuffer (v : HostValue) : L.Holds fun _ => pushBuffer k v := by
  unfold pushBuffer
  split
  · exact (holds_encodeText _).bind fun _ => holds_push hk trivial
  · exact (holds_ofHost _).bind fun _ => holds_push hk trivial

theorem holds_pushTextPointer (v : HostValue) : L.Holds fun _ => pushTextPointer k v := by
  unfold pushTextPointer
  split
  · exact holds_push hk trivial
  · exact (holds_ofHost _).bind fun _ => holds_push hk trivial

end

section

variable [Writes L] {pushItem : HostValue → TypeExpr → Action Unit} (hk : L.Valid k)

include hk

theorem holds_pushItems (hp : ∀ v t, L.Holds fun _ => pushItem v t) (host : HostType) (i : Nat)
    (vs : List HostValue) : L.Holds fun _ => pushItems pushItem k host i vs := by
  induction vs generalizing i with
  | nil => exact .pure _
  | cons v vs ih =>
      refine (hp _ _).bind fun _ => (Writes.setKey (-2) hk ?_).bind fun _ => ih _
      trivial

theorem holds_pushSequence (hp : ∀ v t, L.Holds fun _ => pushItem v t) (v : HostValue)
    (host : HostType) : L.Holds fun _ => pushSequence pushItem k v host := by
  refine (holds_ofHost _).bind fun length => ?_
  have hrest : L.Holds fun _ => (do
      onMachine k Vm.pushTable
      pushItems pushItem k host 0 (← ofHost v.items)) :=
    (Moves.pushTable hk).bind fun _ => (holds_ofHost _).bind fun _ =>
      holds_pushItems hk hp _ _ _
  split
  · refine Law.Holds.bind (.fail ?_) fun _ => hrest
    trivial
  · exact hrest

theorem holds_pushEntries (hp : ∀ v t, L.Holds fun _ => pushItem v t)
    (keyType valueType : TypeExpr) (es : List (HostValue × HostValue)) :
    L.Holds fun _ => pushEntries pushItem k keyType valueType es := by
  induction es with
  | nil => exact .pure _
  | cons e es ih =>
      exact (hp _ _).bind fun _ => (hp _ _).bind fun _ =>
        (Writes.rawSet _ hk).bind fun _ => ih

theorem holds_pushMapping (hp : ∀ v t, L.Holds fun _ => pushItem v t) (v : HostValue)
    (host : HostType) : L.Holds fun _ => pushMapping pushItem k v host :=
  (holds_ofHost _).bind fun _ => (Moves.pushTable hk).bind fun _ =>
    (holds_ofHost _).bind fun _ => holds_pushEntries hk hp _ _ _

theorem holds_pushFields (hp : ∀ v t, L.Holds fun _ => pushItem v t) (v : HostValue)
    (fs : List (String × TypeExpr)) : L.Holds fun _ => pushFields ctx pushItem k v fs := by
  induction fs with
  | nil => exact .pure _
  | cons f fs ih =>
      refine (holds_memberOf _ _).bind fun _ => (hp _ _).bind fun _ =>
        (Writes.setKey (-2) hk ?_).bind fun _ => ih
      trivial

theorem holds_pushRecord (hp : ∀ v t, L.Holds fun _ => pushItem v t) (v : HostValue)
    (host : HostType) : L.Holds fun _ => pushRecord ctx pushItem k v host :=
  (holds_ofHost _).bind fun _ => (Moves.pushTable hk).bind fun _ =>
    holds_pushFields hk hp _ _

end

section

variable [Moves L]

theorem holds_pushDynamic {pushItem : HostValue → TypeExpr → Action Unit}
    (hp : ∀ v t, L.Holds fun _ => pushItem v t) (v : HostValue) :
    L.Holds fun _ => pushDynamic pushItem k v := by
  unfold pushDynamic
  split
  · refine .ask (fun _ _ => rfl) fun s s' hsame => ?_
    split
    · exact .fail trivial
    · exact holds_pushWrapped _
  · exact hp _ _

variable [Describes ctx L]

theorem holds_describeParams (ps : List Param) :
    L.Holds fun _ => (forIn ps PUnit.unit fun p _ => do
      let _ ← describe ctx p.type "read"
      pure (ForInStep.yield PUnit.unit) : Action PUnit) := by
  induction ps with
  | nil => exact .pure _
  | cons p ps ih =>
      simp only [List.forIn_cons]
      refine Law.Holds.bind ((holds_describe _ _).bind fun _ => .pure _) fun step => ?_
      cases step with
      | done b => exact .pure b
      | yield b => exact ih

theorem holds_pushCallable (hk : L.Valid k) (v : HostValue) (host : HostType) :
    L.Holds fun _ => pushCallable ctx k v host := by
  have hrest : ∀ (v : HostValue) (signature : Signature), L.Holds fun _ => (do
      for p in signature.params do
        let _ ← describe ctx p.type "read"
      let _ ← describe ctx signature.returns "push"
      onMachine k (Vm.pushFunction ⟨some v.callableName, .host v signature⟩)) := by
    intro v signature
    refine (holds_describeParams signature.params).bind fun _ => ?_
    exact (holds_describe _ _).bind fun _ => holds_primitive hk (.pushFunction _)
  unfold pushCallable
  split
  · refine .ask (fun _ _ => rfl) fun s s' hsame => ?_
    split
    · exact .fail trivial
    · exact holds_pushWrapped _
  · dsimp only
    split
    · exact hrest _ _
    · exact (holds_ofHost _).bind fun signature => hrest _ _

end

section

variable [Writes L] [Describes ctx L] {pushItem : HostValue → TypeExpr → Action Unit}

/-- Pushing by the shape of a type writes to tables that it makes. -/
theorem holds_pushShape (hk : L.Valid k) (hp : ∀ v t, L.Holds fun _ => pushItem v t)
    (v : HostValue) (host : HostType) : L.Holds fun _ => pushShape ctx pushItem k v host := by
  unfold pushShape
  cases host.shape with
  | dynamic => exact holds_pushDynamic hp v
  | absent => exact holds_push hk trivial
  | boolean => exact holds_push hk trivial
  | integer => exact holds_pushIntegerSlot hk v
  | float =>
      exact (holds_ofHost _).bind fun _ => (holds_individualFloat _).bind fun _ =>
        holds_push hk trivial
  | textPointer => exact holds_pushTextPointer hk v
  | buffer => exact holds_pushBuffer hk v
  | mapping => exact holds_pushMapping hk hp v host
  | record => exact holds_pushRecord hk hp v host
  | sequence => exact holds_pushSequence hk hp v host
  | callable => exact holds_pushCallable hk v host

theorem holds_pushAs [Checks L] (hk : L.Valid k) (fuel : Nat) (v : HostValue) (t : TypeExpr) :
    L.Holds fun _ => pushAs ctx k fuel v t := by
  induction fuel generalizing v t with
  | zero => exact .fail trivial
  | succ fuel ih =>
      refine (holds_describe _ _).bind fun host => ?_
      exact holds_guardedIfChecking _ _ (holds_restoringTop hk (holds_pushShape hk ih v host))

end

end Session

end StackBridge
