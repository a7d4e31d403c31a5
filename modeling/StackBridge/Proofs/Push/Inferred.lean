import StackBridge.Proofs.Host.Annotated
import StackBridge.Proofs.RoundTrip.Whole
import StackBridge.Proofs.Session.Answered

/-!
A value can be pushed by its class alone, or as a type that says what the classes
of all its parts are. That makes no difference: the parts are then pushed by their
classes or as the types inside, and where the classes are exactly those that the
types say, both are pushed by the same shape.

Two such pushes are compared step by step. They are `InStep` if from sessions that
differ in the described types only they come to sessions that do, with the same
answer or with failures of the same kind; the wording of a failure may name the
type. The rest is an induction on how deeply the value may nest (`inStep_pushAs`),
with one lemma for each shape of parts: items, entries and fields.
-/

namespace StackBridge

namespace Session

/-- A session in which other types are noted as described. -/
def noting (s : Session) (noted : List TypeExpr) : Session := { s with described := noted }

end Session

namespace Bridge

open Session

variable {ctx : Context} {k : MachineId} {α β : Type}

-- ================================================================== in step

/-- The same but for the described types and for the wording of a failure. -/
inductive SameEnd {α : Type} : (r r' : EStateM.Result Stop Session α) → Prop where
  | ok (x : α) (s : Session) (noted : List TypeExpr) : SameEnd (.ok x s) (.ok x (s.noting noted))
  | failed {f g : Failure} (kind : f.kind = g.kind) (s : Session) (noted : List TypeExpr) :
      SameEnd (.error (.failed f) s) (.error (.failed g) (s.noting noted))

/-- Two actions that come to the same, whichever types are noted. -/
def InStep (a a' : Action α) : Prop := ∀ s noted, SameEnd (a s) (a' (s.noting noted))

namespace InStep

variable {a a' : Action α}

theorem pure (x : α) : InStep (Pure.pure x) (Pure.pure x) := fun s noted => .ok x s noted

theorem fail {f g : Failure} (h : f.kind = g.kind) :
    InStep (Session.fail f : Action α) (Session.fail g) :=
  fun s noted => .failed h s noted

theorem bind {f f' : α → Action β} (ha : InStep a a')
    (hf : ∀ x s t, a s = .ok x t → InStep (f x) (f' x)) : InStep (a >>= f) (a' >>= f') := by
  intro s noted
  have h := ha s noted
  simp only [bind_apply]
  generalize hr : a s = r, a' (s.noting noted) = r' at h
  cases h with
  | ok x t noted' => exact hf x s t hr t noted'
  | failed kind t noted' => exact .failed kind t noted'

/-- Looking at the session, though not at the described types. -/
theorem ask {f f' : Session → Action α} (hblind : ∀ s noted, f' (s.noting noted) = f' s)
    (h : ∀ s, InStep (f s) (f' s)) : InStep (get >>= f) (get >>= f') := by
  intro s noted
  rw [bind_ok (get_apply s), bind_ok (get_apply _), hblind]
  exact h s s noted

theorem onMachine (k : MachineId) (a : Vm.Action α) :
    InStep (Session.onMachine k a) (Session.onMachine k a) := by
  intro s noted
  have hvm : (s.noting noted).vm k = s.vm k := rfl
  unfold Session.onMachine
  rw [hvm]
  cases a (s.vm k) with
  | ok x vm => exact .ok x (s.withVm k vm) noted
  | error f vm => exact .failed rfl (s.withVm k vm) noted

theorem ofHost (r : Except HostFault α) : InStep (Session.ofHost r) (Session.ofHost r) := by
  cases r with
  | ok x => exact .pure x
  | error f => exact .fail rfl

theorem nextIndividual : InStep Session.nextIndividual Session.nextIndividual :=
  fun s noted => .ok _ { s with individuals := s.individuals + 1 } noted

theorem individualFloat (x : Double) :
    InStep (Session.individualFloat x) (Session.individualFloat x) := by
  unfold Session.individualFloat
  split
  · exact nextIndividual.bind fun n _ _ _ => .pure _
  · exact .pure x

theorem individual (v : HostValue) : InStep (Session.individual v) (Session.individual v) := by
  unfold Session.individual
  split
  · exact (individualFloat _).bind fun _ _ _ _ => .pure _
  · exact nextIndividual.bind fun _ _ _ _ => .pure _
  · exact nextIndividual.bind fun _ _ _ _ => .pure _
  · exact .pure _

theorem encodeText (text : String) : InStep (Session.encodeText text) (Session.encodeText text) := by
  refine .ask (fun _ _ => rfl) fun s => ?_
  cases s.encoding.encode text with
  | ok b => exact .pure b
  | error f => exact .fail rfl

-- =================================================================== blocks

theorem onStop {c c' : Action Unit} (ha : InStep a a') (hc : InStep c c') :
    InStep (Session.onStop a c) (Session.onStop a' c') := by
  intro s noted
  have h := ha s noted
  unfold Session.onStop
  generalize a s = r, a' (s.noting noted) = r' at h
  cases h with
  | ok x t noted' => exact .ok x t noted'
  | failed kind t noted' =>
      have h' := hc t noted'
      dsimp only
      generalize c t = q, c' (t.noting noted') = q' at h'
      cases h' with
      | ok _ u noted'' => exact .failed kind u noted''
      | failed kind' u noted'' => exact .failed kind' u noted''

theorem handling {f f' : Failure → Action α} (ha : InStep a a')
    (hf : ∀ e e' : Failure, e.kind = e'.kind → InStep (f e) (f' e')) :
    InStep (Session.handling a f) (Session.handling a' f') := by
  intro s noted
  have h := ha s noted
  unfold Session.handling
  generalize a s = r, a' (s.noting noted) = r' at h
  cases h with
  | ok x t noted' => exact .ok x t noted'
  | failed kind t noted' => exact hf _ _ kind t noted'

theorem isClosed (k : MachineId) : InStep (Session.isClosed k) (Session.isClosed k) :=
  .ask (fun _ _ => rfl) fun _ => .pure _

theorem getTop (k : MachineId) : InStep (Session.getTop k) (Session.getTop k) := .onMachine k _

theorem push (k : MachineId) (w : Value) : InStep (Session.push k w) (Session.push k w) :=
  .onMachine k _

theorem restoringTop (k : MachineId) (ha : InStep a a') :
    InStep (Bridge.restoringTop k a) (Bridge.restoringTop k a') := by
  refine (getTop k).bind fun top _ _ _ => ha.onStop ?_
  refine (isClosed k).bind fun closed _ _ _ => ?_
  split
  · refine (getTop k).bind fun top' _ _ _ => ?_
    split
    · exact .onMachine k _
    · exact .pure _
  · exact .pure _

/-- The demand of a guard; what it calls the block does not matter. -/
theorem demand (k : MachineId) (what what' : String) (expected : Int) (raised : Option ErrorKind) :
    InStep
      (do
        if ← Session.isClosed k then return
        let actual ← Session.getTop k
        if actual ≠ expected then Session.fail (← imbalance k what raised actual expected))
      (do
        if ← Session.isClosed k then return
        let actual ← Session.getTop k
        if actual ≠ expected then Session.fail (← imbalance k what' raised actual expected)) := by
  refine (isClosed k).bind fun closed _ _ _ => ?_
  split
  · exact .pure _
  · refine (getTop k).bind fun actual _ _ _ => ?_
    split
    · unfold imbalance
      simp only [bind_assoc, pure_bind]
      exact (InStep.onMachine k _).bind fun _ _ _ _ => .fail rfl
    · exact .pure _

theorem guardedIfChecking (k : MachineId) (delta : Int) (what what' : String) (ha : InStep a a') :
    InStep (Bridge.guardedIfChecking k delta what a) (Bridge.guardedIfChecking k delta what' a') := by
  refine .ask (fun _ _ => rfl) fun s => ?_
  cases s.checks with
  | false => exact ha
  | true =>
      refine (getTop k).bind fun top _ _ _ => ?_
      refine InStep.bind (ha.handling fun e e' hkind => ?_) fun x _ _ _ => ?_
      · rw [hkind]
        exact (demand k what what' top (some e'.kind)).bind fun _ _ _ _ => .fail hkind
      · exact (demand k what what' (top + delta) none).bind fun _ _ _ _ => .pure x

end InStep

-- ============================================================ plain shapes

theorem inStep_pushIntegerSlot (v : HostValue) :
    InStep (pushIntegerSlot k v) (pushIntegerSlot k v) := by
  refine (InStep.ofHost _).bind fun n _ _ _ => ?_
  split
  · exact .onMachine k _
  · cases Double.ofInt? n with
    | some x => exact .onMachine k _
    | none => exact .fail rfl

theorem inStep_pushFloat (v : HostValue) :
    InStep (do push k (.float (← individualFloat (← ofHost v.toFloat))))
      (do push k (.float (← individualFloat (← ofHost v.toFloat)))) := by
  refine (InStep.ofHost _).bind fun x _ _ _ => ?_
  exact (InStep.individualFloat x).bind fun y _ _ _ => .onMachine k _

theorem inStep_pushBuffer (v : HostValue) : InStep (pushBuffer k v) (pushBuffer k v) := by
  unfold pushBuffer
  split
  · exact (InStep.encodeText _).bind fun b _ _ _ => .onMachine k _
  · exact (InStep.ofHost _).bind fun b _ _ _ => .onMachine k _

theorem inStep_pushTextPointer (v : HostValue) :
    InStep (pushTextPointer k v) (pushTextPointer k v) := by
  unfold pushTextPointer
  split
  · exact .onMachine k _
  · exact (InStep.ofHost _).bind fun b _ _ _ => .onMachine k _

theorem inStep_pushWrapped (id : Nat) : InStep (pushWrapped id) (pushWrapped id) := by
  refine .ask (fun _ _ => rfl) fun s => ?_
  dsimp only
  cases (s.wrapper id).anchor with
  | released => exact .fail rfl
  | nil => exact .onMachine _ _
  | entry r => exact (InStep.onMachine _ _).bind fun _ _ _ _ => .pure _

section

variable {pushItem : HostValue → TypeExpr → Action Unit} {host host' : HostType} {v : HostValue}

theorem inStep_pushDynamic (id : Nat) (custom : Bool) :
    InStep (pushDynamic pushItem k (.wrapper id custom))
      (pushDynamic pushItem k (.wrapper id custom)) := by
  refine .ask (fun _ _ => rfl) fun s => ?_
  split
  · exact .fail rfl
  · exact inStep_pushWrapped id

/-- Values without parts are pushed alike by the same type. -/
theorem inStep_pushScalar (hv : v.hostClass.isScalar = true)
    (hshape : v.hostClass.shape? = some host.shape) :
    InStep (pushShape ctx pushItem k v host) (pushShape ctx pushItem k v host) := by
  obtain ⟨type, shape⟩ := host
  generalize hc : v.hostClass = c at hv hshape
  unfold HostClass.isScalar at hv
  split at hv
  case h_1 => cases hshape; exact InStep.push k (.bool v.truth)
  case h_2 => cases hshape; exact inStep_pushIntegerSlot v
  case h_3 => cases hshape; exact inStep_pushIntegerSlot v
  case h_4 => cases hshape; exact inStep_pushFloat v
  case h_5 => cases hshape; exact inStep_pushBuffer v
  case h_6 => cases hshape; exact inStep_pushBuffer v
  case h_7 => cases hshape; exact inStep_pushBuffer v
  case h_8 => cases hshape; exact inStep_pushTextPointer v
  case h_9 =>
    cases hshape
    obtain ⟨id, rfl⟩ := HostValue.wrapper_of_hostClass hc
    have hdynamic : InStep (pushDynamic pushItem k (.wrapper id false))
        (pushDynamic pushItem k (.wrapper id false)) := inStep_pushDynamic id false
    exact hdynamic
  case h_10 => cases hv

-- ========================================================= compound shapes

/-- Items one after the other, if each is in step as the one type and the other. -/
theorem inStep_pushItems {vs : List HostValue} {i : Nat}
    (hitems : ∀ p ∈ vs.zipIdx i,
      InStep (pushItem p.1 (host.elementType p.2)) (pushItem p.1 (host'.elementType p.2))) :
    InStep (pushItems pushItem k host i vs) (pushItems pushItem k host' i vs) := by
  induction vs generalizing i with
  | nil => exact .pure ()
  | cons v vs ih =>
      refine (hitems (v, i) (List.mem_cons_self ..)).bind fun _ _ _ _ => ?_
      refine (InStep.onMachine k _).bind fun _ _ _ _ => ?_
      exact ih fun p hp => hitems p (List.mem_cons_of_mem _ hp)

theorem inStep_pushSequence {kind : SequenceKind} {vs : List HostValue}
    (hlength : (host.isFixedTuple && vs.length != host.args.length) = false)
    (hlength' : (host'.isFixedTuple && vs.length != host'.args.length) = false)
    (hitems : ∀ p ∈ vs.zipIdx,
      InStep (pushItem p.1 (host.elementType p.2)) (pushItem p.1 (host'.elementType p.2))) :
    InStep (pushSequence pushItem k (.sequence kind vs) host)
      (pushSequence pushItem k (.sequence kind vs) host') := by
  refine InStep.bind (.pure vs.length) fun length s t h => ?_
  cases h
  rw [if_neg (Bool.eq_false_iff.mp hlength), if_neg (Bool.eq_false_iff.mp hlength')]
  refine (InStep.onMachine k _).bind fun _ _ _ _ => ?_
  refine InStep.bind (.pure vs) fun items s t h => ?_
  cases h
  exact inStep_pushItems hitems

/-- Entries one after the other. -/
theorem inStep_pushEntries {es : List (HostValue × HostValue)} {a a' b b' : TypeExpr}
    (hkeys : ∀ e ∈ es, InStep (pushItem e.1 a) (pushItem e.1 a'))
    (hvalues : ∀ e ∈ es, InStep (pushItem e.2 b) (pushItem e.2 b')) :
    InStep (pushEntries pushItem k a b es) (pushEntries pushItem k a' b' es) := by
  induction es with
  | nil => exact .pure ()
  | cons e es ih =>
      refine (hkeys e (List.mem_cons_self ..)).bind fun _ _ _ _ => ?_
      refine (hvalues e (List.mem_cons_self ..)).bind fun _ _ _ _ => ?_
      refine (InStep.onMachine k _).bind fun _ _ _ _ => ?_
      exact ih (fun d hd => hkeys d (List.mem_cons_of_mem _ hd))
        fun d hd => hvalues d (List.mem_cons_of_mem _ hd)

theorem inStep_pushMapping {kind : MappingKind} {es : List (HostValue × HostValue)}
    (hkeys : ∀ e ∈ es, InStep (pushItem e.1 host.entryTypes.1) (pushItem e.1 host'.entryTypes.1))
    (hvalues : ∀ e ∈ es,
      InStep (pushItem e.2 host.entryTypes.2) (pushItem e.2 host'.entryTypes.2)) :
    InStep (pushMapping pushItem k (.mapping kind es) host)
      (pushMapping pushItem k (.mapping kind es) host') := by
  refine (InStep.ofHost _).bind fun _ _ _ _ => ?_
  refine (InStep.onMachine k _).bind fun _ _ _ _ => ?_
  refine InStep.bind (.pure es) fun entries s t h => ?_
  cases h
  exact inStep_pushEntries hkeys hvalues

/-- A member of a record. -/
theorem inStep_memberOf (name : String) (tuple : Bool) (fields : List (String × HostValue))
    (field : String) :
    InStep (memberOf ctx (.record name tuple fields) field)
      (memberOf ctx (.record name tuple fields) field) := by
  refine InStep.bind (.pure none) fun special s t h => ?_
  cases h
  exact (InStep.ofHost _).bind fun x _ _ _ => .individual x

/-- It is what the class says, which has just come up. -/
theorem memberOf_record {name : String} {tuple : Bool} {fields : List (String × HostValue)}
    {field : String} {x : HostValue} {s t : Session}
    (h : memberOf ctx (.record name tuple fields) field s = .ok x t) :
    ∃ y u, ctx.classes.member (.record name tuple fields) field = .ok y
      ∧ individual y u = .ok x t := by
  have hmember : memberOf ctx (.record name tuple fields) field
      = (do individual (← ofHost (ctx.classes.member (.record name tuple fields) field))) := rfl
  rw [hmember] at h
  obtain ⟨y, u, hy, h⟩ := bind_answered h
  exact ⟨y, u, (ofHost_answered hy).1, h⟩

/-- Fields one after the other, if each member is in step as the type of its field. -/
theorem inStep_pushFields {name : String} {tuple : Bool} {fields : List (String × HostValue)}
    {fs : List (String × TypeExpr)}
    (hfields : ∀ f ∈ fs, ∀ x s t, memberOf ctx (.record name tuple fields) f.1 s = .ok x t →
      InStep (pushItem x f.2) (pushItem x f.2)) :
    InStep (pushFields ctx pushItem k (.record name tuple fields) fs)
      (pushFields ctx pushItem k (.record name tuple fields) fs) := by
  induction fs with
  | nil => exact .pure ()
  | cons f fs ih =>
      refine (inStep_memberOf name tuple fields f.1).bind fun x s t hx => ?_
      refine (hfields f (List.mem_cons_self ..) x s t hx).bind fun _ _ _ _ => ?_
      refine (InStep.onMachine k _).bind fun _ _ _ _ => ?_
      exact ih fun g hg => hfields g (List.mem_cons_of_mem _ hg)

end

-- ================================================================== parts

variable {R : String → Prop} {cs : Classes} {v : HostValue} {t u : TypeExpr}

theorem individual_hostClass {w : HostValue} {s s' : Session} (h : individual v s = .ok w s') :
    w.hostClass = v.hostClass := by
  unfold individual at h
  split at h
  · obtain ⟨x, _, _, h⟩ := bind_answered h
    cases h
    rfl
  · obtain ⟨n, _, _, h⟩ := bind_answered h
    cases h
    rfl
  · obtain ⟨n, _, _, h⟩ := bind_answered h
    cases h
    rfl
  · cases h
    rfl

/-- What has just come up is exactly of the same type. -/
theorem exactly_individual {w : HostValue} {s s' : Session} (hv : Exactly cs v t)
    (h : individual v s = .ok w s') : Exactly cs w t := by
  cases hv with
  | scalar scalar =>
      have hclass := individual_hostClass h
      rw [← hclass] at scalar ⊢
      exact .scalar scalar
  | list items => cases h; exact .list items
  | tuple items => cases h; exact .tuple items
  | fixedTuple length items => cases h; exact .fixedTuple length items
  | mapping keys values => cases h; exact .mapping keys values
  | record hints members => cases h; exact .record hints members

/-- The items of a sequence are exactly of the types of its elements, and there are as
many as there are to be. -/
theorem exactly_items {kind : SequenceKind} {vs : List HostValue} (ht : Annotated R t)
    (hv : Exactly cs (.sequence kind vs) t) :
    let host : HostType := ⟨t, .sequence⟩
    t.hostType? = some host ∧ (host.isFixedTuple && vs.length != host.args.length) = false
      ∧ ∀ p ∈ vs.zipIdx, Annotated R (host.elementType p.2)
        ∧ Exactly cs p.1 (host.elementType p.2) := by
  have hmem : ∀ p ∈ vs.zipIdx, p.1 ∈ vs := fun p hp => List.fst_mem_of_mem_zipIdx hp
  cases hv with
  | scalar scalar => cases scalar
  | list items =>
      cases ht with
      | list item => exact ⟨rfl, rfl, fun p hp => ⟨item, items p.1 (hmem p hp)⟩⟩
  | @tuple _ a items =>
      have item : Annotated R a := by
        cases ht with
        | tuple item => exact item
        | fixedTuple items => exact items a (List.mem_cons_self ..)
      exact ⟨rfl, rfl, fun p hp => ⟨item, items p.1 (hmem p hp)⟩⟩
  | @fixedTuple _ as length items =>
      have hall := ht.items length items
      have hplain : TypeExpr.ellipsis ∉ as := fun hmem => nomatch hall _ hmem
      refine ⟨rfl, by simp [HostType.args, TypeExpr.args, length], fun p hp => ?_⟩
      obtain ⟨a, ha, hzip⟩ := exists_getElem?_zip length (List.mem_zipIdx_iff_getElem?.mp hp)
      rw [elementType_plain hplain ha]
      exact ⟨hall a (List.of_mem_zip hzip).2, items _ hzip⟩

/-- A value exactly of a type can be described by its class as well. -/
theorem accepts_exactly (hR : ∀ name, R name → cs.Spells R name) (ht : Annotated R t)
    (hv : Exactly cs v t) (operation : String) :
    Accepts (describeIn cs operation (.cls v.hostClass)) := by
  have haccepts : Accepts (describeIn cs operation t) :=
    Supported.accepts operation cs.length t (ht.supported hR)
  cases hv with
  | scalar scalar => exact haccepts
  | record hints members => exact haccepts
  | list items => exact accepts_enrol rfl accepts_pure
  | tuple items => exact accepts_enrol rfl accepts_pure
  | fixedTuple length items => exact accepts_enrol rfl accepts_pure
  | mapping keys values => exact accepts_enrol rfl accepts_pure

-- ================================================================== pushes

section

variable {pushItem : HostValue → TypeExpr → Action Unit}
  (hitem : ∀ {v : HostValue} {t u : TypeExpr}, Annotated R t → Exactly ctx.classes v t →
    u = .none ∨ u = t → InStep (pushItem v u) (pushItem v t))

include hitem

/-- Sequences are pushed alike by their class and as their type. -/
theorem inStep_sequence {kind : SequenceKind} {vs : List HostValue} (ht : Annotated R t)
    (hv : Exactly ctx.classes (.sequence kind vs) t) (hu : u = .cls (.sequence kind) ∨ u = t) :
    ∃ host host', u.hostType? = some host ∧ t.hostType? = some host'
      ∧ InStep (pushShape ctx pushItem k (.sequence kind vs) host)
        (pushShape ctx pushItem k (.sequence kind vs) host') := by
  obtain ⟨hhost, hlength, hitems⟩ := exactly_items ht hv
  obtain ⟨hhost', hlength', helement⟩ : u.hostType? = some ⟨u, .sequence⟩
      ∧ ((⟨u, .sequence⟩ : HostType).isFixedTuple
        && vs.length != (⟨u, .sequence⟩ : HostType).args.length) = false
      ∧ ∀ i, (⟨u, .sequence⟩ : HostType).elementType i = .none
        ∨ (⟨u, .sequence⟩ : HostType).elementType i = (⟨t, .sequence⟩ : HostType).elementType i := by
    rcases hu with rfl | rfl
    · refine ⟨rfl, ?_, fun i => .inl (elementType_bare kind)⟩
      rw [isFixedTuple_bare, Bool.false_and]
    · exact ⟨hhost, hlength, fun i => .inr rfl⟩
  refine ⟨_, _, hhost', hhost, inStep_pushSequence hlength' hlength fun p hp => ?_⟩
  exact hitem (hitems p hp).1 (hitems p hp).2 (helement p.2)

/-- Mappings are pushed alike by their class and as their type. -/
theorem inStep_mapping {kind : MappingKind} {es : List (HostValue × HostValue)} {a b : TypeExpr}
    (ht : Annotated R (.generic (.mapping kind) [a, b]))
    (hkeys : ∀ e ∈ es, Exactly ctx.classes e.1 a) (hvalues : ∀ e ∈ es, Exactly ctx.classes e.2 b)
    (hu : u = .cls (.mapping kind) ∨ u = .generic (.mapping kind) [a, b]) :
    ∃ host host', u.hostType? = some host
      ∧ (TypeExpr.generic (.mapping kind) [a, b]).hostType? = some host'
      ∧ InStep (pushShape ctx pushItem k (.mapping kind es) host)
        (pushShape ctx pushItem k (.mapping kind es) host') := by
  obtain ⟨key, value⟩ : Annotated R a ∧ Annotated R b := by
    cases ht with
    | mapping _ key value => exact ⟨key, value⟩
  obtain ⟨hhost, hkey, hvalue⟩ : u.hostType? = some ⟨u, .mapping⟩
      ∧ ((⟨u, .mapping⟩ : HostType).entryTypes.1 = .none
        ∨ (⟨u, .mapping⟩ : HostType).entryTypes.1 = a)
      ∧ ((⟨u, .mapping⟩ : HostType).entryTypes.2 = .none
        ∨ (⟨u, .mapping⟩ : HostType).entryTypes.2 = b) := by
    rcases hu with rfl | rfl
    · exact ⟨rfl, .inl rfl, .inl rfl⟩
    · exact ⟨rfl, .inr rfl, .inr rfl⟩
  refine ⟨⟨u, .mapping⟩, ⟨.generic (.mapping kind) [a, b], .mapping⟩, hhost, rfl, ?_⟩
  show InStep (pushMapping pushItem k (.mapping kind es) ⟨u, .mapping⟩)
    (pushMapping pushItem k (.mapping kind es) ⟨.generic (.mapping kind) [a, b], .mapping⟩)
  refine inStep_pushMapping (fun e he => ?_) fun e he => ?_
  · exact hitem key (hkeys e he) hkey
  · exact hitem value (hvalues e he) hvalue

/-- Records are pushed alike whatever is noted. -/
theorem inStep_record {name : String} {tuple : Bool} {fields : List (String × HostValue)}
    {hinted : List (FieldSpec × TypeExpr)} {host : HostType}
    (hhints : hintedFields ctx.classes host.recordName = .ok hinted)
    (hall : ∀ q ∈ hinted, Annotated R q.2)
    (hmembers : ∀ q ∈ hinted, ∀ x,
      ctx.classes.member (.record name tuple fields) q.1.name = .ok x →
        Exactly ctx.classes x q.2) :
    InStep (pushRecord ctx pushItem k (.record name tuple fields) host)
      (pushRecord ctx pushItem k (.record name tuple fields) host) := by
  have hopen : ofHost (hintedFields ctx.classes host.recordName)
      = (pure hinted : Action (List (FieldSpec × TypeExpr))) := by
    rw [hhints]
    rfl
  unfold pushRecord
  rw [hopen]
  refine InStep.bind (.pure hinted) fun hinted' s t h => ?_
  cases h
  refine (InStep.onMachine k _).bind fun _ _ _ _ => ?_
  refine inStep_pushFields fun f hf x s' t' hx => ?_
  obtain ⟨q, hq, rfl⟩ := List.mem_map.mp hf
  obtain ⟨y, u, hy, hx⟩ := memberOf_record hx
  exact hitem (hall q hq) (exactly_individual (hmembers q hq y hy) hx) (.inr rfl)

/-- A value is pushed alike by its class and as a type that it is exactly of, if its
parts are. -/
theorem inStep_pushShape (hR : ∀ name, R name → ctx.classes.Spells R name) (ht : Annotated R t)
    (hv : Exactly ctx.classes v t) (hu : u = .cls v.hostClass ∨ u = t) :
    ∃ host host', u.hostType? = some host ∧ t.hostType? = some host'
      ∧ InStep (pushShape ctx pushItem k v host) (pushShape ctx pushItem k v host') := by
  cases hv with
  | scalar scalar =>
      obtain rfl : u = .cls v.hostClass := or_self_iff.mp hu
      obtain ⟨shape, hshape⟩ := HostClass.isScalar_shape scalar
      have hhost : (TypeExpr.cls v.hostClass).hostType? = some ⟨.cls v.hostClass, shape⟩ :=
        congrArg (Option.map _) hshape
      exact ⟨_, _, hhost, hhost, inStep_pushScalar scalar hshape⟩
  | list items => exact inStep_sequence hitem ht (.list items) hu
  | tuple items => exact inStep_sequence hitem ht (.tuple items) hu
  | fixedTuple length items => exact inStep_sequence hitem ht (.fixedTuple length items) hu
  | mapping keys values => exact inStep_mapping hitem ht keys values hu
  | @record name tuple fields hinted hints members =>
      obtain rfl : u = .cls (.record name) := or_self_iff.mp hu
      have hall : ∀ q ∈ hinted, Annotated R q.2 := by
        cases ht with
        | scalar scalar => cases scalar
        | record allowed => exact (hR name allowed).hinted hints
      exact ⟨⟨.cls (.record name), .record⟩, _, rfl, rfl, inStep_record hitem hints hall members⟩

end

/-- To any depth, pushing a value without a type or as one that it is exactly of comes to
the same as pushing it as that type, whichever types are noted. -/
theorem inStep_pushAs (hR : ∀ name, R name → ctx.classes.Spells R name) (fuel : Nat)
    (ht : Annotated R t) (hv : Exactly ctx.classes v t) (hu : u = .none ∨ u = t) :
    InStep (pushAs ctx k fuel v u) (pushAs ctx k fuel v t) := by
  induction fuel generalizing v t u with
  | zero => exact .fail rfl
  | succ fuel ih =>
      have haccepts : Accepts (describeIn ctx.classes "push" t) :=
        Supported.accepts "push" ctx.classes.length t (ht.supported hR)
      obtain ⟨u', hu', hcases, haccepts'⟩ : ∃ u',
          (if u = .none then .cls v.hostClass else u) = u' ∧ (u' = .cls v.hostClass ∨ u' = t)
            ∧ Accepts (describeIn ctx.classes "push" u') := by
        rcases hu with rfl | rfl
        · exact ⟨_, if_pos rfl, .inl rfl, accepts_exactly hR ht hv "push"⟩
        · exact ⟨u, if_neg ht.ne_none, .inr rfl, haccepts⟩
      obtain ⟨host', host, hhost', hhost, hshape⟩ := inStep_pushShape (k := k) ih hR ht hv hcases
      intro s noted
      obtain ⟨noted₁, hdescribe'⟩ := describe_ok "push" haccepts' s
      obtain ⟨noted₂, hdescribe⟩ := describe_ok "push" haccepts (s.noting noted)
      unfold pushAs
      dsimp only
      rw [hu', if_neg ht.ne_none, bind_ok (hdescribe' host' hhost'), bind_ok (hdescribe host hhost)]
      exact InStep.guardedIfChecking k 1 _ _ (.restoringTop k hshape) (s.noting noted₁) noted₂

/-- From the same state, pushing a value by its class and pushing it as a fully annotated
type that it is exactly of either both answer, with the same slots, tables and traversal
orders and in the same state but for the types noted as described, or both fail, with the
same kind of failure. -/
theorem pushValue_inferred (ctx : Context) (k : MachineId) (s : Session) {v : HostValue}
    {t : TypeExpr} (ht : ctx.classes.Annotates t) (hv : Exactly ctx.classes v t) :
    (∃ s' noted, pushValue ctx k v .none s = .ok () s'
        ∧ pushValue ctx k v t s = .ok () { s' with described := noted })
      ∨ ∃ f g s' noted, pushValue ctx k v .none s = .error (.failed f) s'
        ∧ pushValue ctx k v t s = .error (.failed g) { s' with described := noted }
        ∧ f.kind = g.kind := by
  obtain ⟨R, hR, hannotated⟩ := ht
  have h := inStep_pushAs (k := k) hR pushLimit hannotated hv (.inl rfl) s s.described
  unfold pushValue
  generalize pushAs ctx k pushLimit v .none s = r, hr' :
    pushAs ctx k pushLimit v t (s.noting s.described) = r' at h
  have hsame : s.noting s.described = s := rfl
  rw [hsame] at hr'
  rw [hr']
  cases h with
  | ok _ s' noted => exact .inl ⟨s', noted, rfl, rfl⟩
  | failed kind s' noted => exact .inr ⟨_, _, s', noted, rfl, rfl, kind⟩

theorem spells_trees : ∀ name, name = "Tree" → trees.classes.Spells (· = "Tree") name := by
  intro name hname
  subst hname
  intro f hf
  rw [fields_trees] at hf
  rw [List.mem_singleton.mp hf]
  exact ⟨_, _, rfl, hint_trees, .list (.record rfl)⟩

theorem exactly_trees {vs : List HostValue}
    (h : ∀ v ∈ vs, Exactly trees.classes v (.cls (.record "Tree"))) :
    Exactly trees.classes (.record "Tree" false [("kids", .list vs)]) (.cls (.record "Tree")) := by
  refine .record hinted_trees fun q hq x hx => ?_
  rw [List.mem_singleton.mp hq] at hx ⊢
  cases hx
  exact .list h

theorem exactly_tree (n : Nat) : Exactly trees.classes (tree n) (.cls (.record "Tree")) := by
  induction n with
  | zero => exact exactly_trees fun v hv => absurd hv List.not_mem_nil
  | succ n ih =>
      refine exactly_trees fun v hv => ?_
      rw [List.mem_singleton.mp hv]
      exact ih

/-- A mapping from strings up to their first zero byte to lists of trees. -/
theorem pushValue_inferred_trees :
    let t : TypeExpr := .generic (.mapping .plain)
      [.cls (.bytes .terminated), .generic (.sequence .list) [.cls (.record "Tree")]]
    let v : HostValue := .mapping .plain
      [(.bytes .terminated [97, 0, 98], .list [tree 1, tree 0])]
    trees.classes.Annotates t ∧ Exactly trees.classes v t
      ∧ ((∃ s' noted, pushValue trees 0 v .none (Session.start 1 true) = .ok () s'
          ∧ pushValue trees 0 v t (Session.start 1 true) = .ok () { s' with described := noted })
        ∨ ∃ f g s' noted, pushValue trees 0 v .none (Session.start 1 true) = .error (.failed f) s'
          ∧ pushValue trees 0 v t (Session.start 1 true)
            = .error (.failed g) { s' with described := noted }
          ∧ f.kind = g.kind) := by
  intro t v
  have ht : trees.classes.Annotates t :=
    ⟨_, spells_trees, .mapping .plain (.scalar rfl) (.list (.record rfl))⟩
  have hv : Exactly trees.classes v t := by
    refine .mapping (fun e he => ?_) fun e he => ?_
    · rw [List.mem_singleton.mp he]
      exact .scalar rfl
    · rw [List.mem_singleton.mp he]
      refine .list fun w hw => ?_
      rcases List.mem_cons.mp hw with rfl | hw
      · exact exactly_tree 1
      · rw [List.mem_singleton.mp hw]
        exact exactly_tree 0
  exact ⟨ht, hv, pushValue_inferred trees 0 (Session.start 1 true) ht hv⟩

end Bridge

end StackBridge
