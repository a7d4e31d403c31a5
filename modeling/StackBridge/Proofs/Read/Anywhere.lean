import StackBridge.Proofs.Read.Lockstep
import StackBridge.Proofs.Read.Seated
import StackBridge.Proofs.Read.Untouched

/-!
It does not matter to a read where the value is, nor how its handler puts a mismatch
into words. Two reads of one value go together on any two seats, whatever the index
on each (`even_readAs`), by induction on the depth: what is read is fetched to the
top on both, where the indices are the same, and the table itself is known by its
absolute index, which goes on showing it (`Pairing.Shows.abs`).

So a read of an index answers or raises what a read of any other index that shows
the same value does, on whatever other stack and in whatever other frame
(`readValue_anywhere`); an index and its absolute index are such indices. And a read
whose handler raises is a read that raises mismatches as they are, but for the words
(`readValue_worded`).
-/

namespace StackBridge

namespace Bridge

open Session Pairing

variable {ctx : Context} {run : BlockId → Action Unit} {h h' : Handler} {d : Pairing}
  {xs : List Value} {i j : Int} {x : Option Value} {w : Value} {host : HostType}

-- ================================================================ mismatches

/-- What a handler that raises does so with. -/
def raisedBy (h : Handler) (actual expected : Category) : Failure :=
  match h with
  | .standard =>
    .machine (.str (utf8 ("expected " ++ expected.label ++ ", got " ++ actual.label))) none
  | .badArgument position function =>
    .machine (.str (utf8 ("bad argument #" ++ toString position ++ argumentOwner function
      ++ " (" ++ expected.label ++ " expected, got " ++ actual.label ++ ")"))) none
  | .strict | .custom _ _ => .mismatch actual expected

theorem labelOf_eq {c : Category} (hc : c ≠ .dynamic) (s : Session) :
    labelOf c s = .ok c.label s := by
  unfold labelOf Category.typeName?
  rw [if_neg hc]
  rfl

theorem handle_eq {k : MachineId} (hh : Raises h) {actual expected : Category}
    (hactual : actual ≠ .dynamic) (hexpected : expected ≠ .dynamic) (s : Session) :
    handle ctx run k h actual expected s = .error (.failed (raisedBy h actual expected)) s := by
  have hraise : ∀ text, onMachine k (Vm.raiseText text : Vm.Action HostValue) s
      = .error (.failed (.machine (.str (utf8 text)) none)) s := by
    intro text
    have htext : (Vm.raiseText text : Vm.Action HostValue) (s.vm k)
        = .error (.machine (.str (utf8 text)) none) (s.vm k) := rfl
    rw [onMachine_error htext, withVm_vm]
  cases h with
  | standard | badArgument =>
      unfold handle
      dsimp only
      rw [bind_ok (labelOf_eq hexpected s), bind_ok (labelOf_eq hactual s), hraise]
      rfl
  | strict => rfl
  | custom block result => exact absurd hh not_false

/-- A value's category is not the one of dynamic types, nor is that of any other type. -/
theorem category_ne_dynamic {c : Category} (hw : w.category? = some c) : c ≠ .dynamic := by
  rintro rfl
  cases w with
  | guest id role => cases role <;> cases hw
  | _ => cases hw

theorem hostCategory_ne_dynamic (h : host.shape ≠ .dynamic) : host.category ≠ .dynamic := by
  unfold HostType.category
  cases hshape : host.shape with
  | dynamic => exact absurd hshape h
  | _ => exact Category.noConfusion

-- ============================================================ plain values

/-- What is at an index is what is shown there. -/
theorem together_valueAt? (hx : d.Shows xs i j x) :
    d.Together xs (fun y ys => y = x ∧ ys = xs) (onMachine d.machine (Vm.valueAt? i))
      (onMachine d.machine (Vm.valueAt? j)) := by
  refine hx.look (g := fun _ => .ok x) (fun _ _ h => h) (fun _ _ h => ?_) fun _ _ h => ?_
  · cases h
  · cases h
    exact ⟨rfl, rfl⟩

/-- The category of what may be shown. -/
def categoryShown (x : Option Value) (c : Category) : Prop :=
  match x with
  | none => c = .absent
  | some w => w.category? = some c

theorem together_categoryAt (hx : d.Shows xs i j x) :
    d.Together xs (fun c ys => categoryShown x c ∧ ys = xs)
      (onMachine d.machine (Vm.categoryAt i)) (onMachine d.machine (Vm.categoryAt j)) := by
  cases x with
  | none =>
      refine hx.look (g := fun _ => .ok .absent) (fun vm i hi => bind_ok hi) (fun _ _ h => ?_)
        fun _ _ h => ?_
      · cases h
      · cases h
        exact ⟨rfl, rfl⟩
  | some w =>
      cases hc : w.category? with
      | some c =>
          refine hx.look (g := fun _ => .ok c) (fun vm i hi => Vm.categoryAt_eq hi hc)
            (fun _ _ h => ?_) fun _ _ h => ?_
          · cases h
          · cases h
            exact ⟨hc, rfl⟩
      | none =>
          refine hx.look (g := fun _ => .error (.misuse (.cannotLive w.strayName)))
            (fun vm i hi => (bind_ok hi).trans (Vm.categoryOf_stray hc vm)) (fun _ _ h => ?_)
            fun _ _ h => ?_
          · cases h
            rfl
          · cases h

theorem even_guestOr (hw : d.Shows xs i j (some w)) (v : HostValue) :
    d.Even xs (guestOr d.machine i v) (guestOr d.machine j v) := by
  have hguest : d.Even xs (onMachine d.machine (Vm.guestAt? i))
      (onMachine d.machine (Vm.guestAt? j)) :=
    hw.see (g := fun heap => heap.hostValue? w) fun vm i hi => bind_ok hi
  exact hguest.bind fun _ => together_pure rfl

theorem even_wrapper (hx : d.Shows xs i j x) (custom : Bool) :
    d.Even xs (Bridge.wrap d.machine i >>= fun id => pure (HostValue.wrapper id custom))
      (Bridge.wrap d.machine j >>= fun id => pure (HostValue.wrapper id custom)) :=
  hx.wrap.bind fun _ => together_pure rfl

theorem even_readNatural (hx : d.Shows xs i j x) :
    d.Even xs (readNatural d.machine i) (readNatural d.machine j) := by
  refine (together_categoryAt hx).bind ?_
  rintro _ _ ⟨-, rfl⟩
  refine (together_valueAt? hx).bind ?_
  rintro y _ ⟨hy, rfl⟩
  subst hy
  cases y with
  | none => exact together_pure rfl
  | some w =>
      rw [Option.map_some]
      cases w.plain with
      | nil => exact together_pure rfl
      | bool b => exact together_pure rfl
      | int n => exact even_guestOr hx _
      | float x => exact even_individual _
      | str b => exact (even_decodeText b).bind fun _ => together_pure rfl
      | table id => exact even_wrapper hx false
      | function id => exact even_wrapper hx false
      | userdata id => exact even_wrapper hx false
      | guest id role => exact even_wrapper hx false

theorem even_readDynamic (hx : d.Shows xs i j x) (host : HostType) :
    d.Even xs (readDynamic d.machine i host) (readDynamic d.machine j host) := by
  unfold readDynamic
  split
  · exact even_wrapper hx _
  · exact even_readNatural hx

theorem even_readBoolean (hw : d.Shows xs i j (some w)) (host : HostType) :
    d.Even xs (readBoolean d.machine i host) (readBoolean d.machine j host) := by
  have hboolean : d.Even xs (onMachine d.machine (Vm.toBoolean i))
      (onMachine d.machine (Vm.toBoolean j)) := by
    refine hw.see (g := fun _ => decide (w ≠ .nil ∧ w ≠ .bool false)) fun vm i hi => ?_
    unfold Vm.toBoolean
    rw [bind_ok hi]
    cases w with
    | bool b => cases b <;> rfl
    | _ => rfl
  exact hboolean.bind fun _ => together_pure rfl

theorem even_asInteger (host : HostType) (v : HostValue) :
    d.Even xs (asInteger ctx host v) (asInteger ctx host v) := by
  unfold asInteger
  split
  · exact together_pure rfl
  · exact together_pure rfl
  · exact even_ofHost _
  · exact together_pure rfl

theorem even_toNumber (hw : d.Shows xs i j (some w)) :
    d.Even xs (onMachine d.machine (Vm.toNumber i)) (onMachine d.machine (Vm.toNumber j)) := by
  cases hn : Vm.numeralOf? (some w) with
  | none =>
      refine hw.see (g := fun _ => Double.zero) fun vm i hi => ?_
      unfold Vm.toNumber
      rw [bind_ok hi, hn]
      rfl
  | some n =>
      cases n with
      | float x =>
          refine hw.see (g := fun _ => x) fun vm i hi => ?_
          unfold Vm.toNumber
          rw [bind_ok hi, hn]
          rfl
      | int n =>
          cases hx : Double.ofInt? n with
          | some x =>
              refine hw.see (g := fun _ => x) fun vm i hi => ?_
              unfold Vm.toNumber
              rw [bind_ok hi, hn]
              simp only [hx]
              rfl
          | none =>
              refine hw.look (g := fun _ => .error (.host .integerTooLarge)) (fun vm i hi => ?_)
                (fun _ f hf => ?_) fun _ _ _ => rfl
              · unfold Vm.toNumber
                rw [bind_ok hi, hn]
                simp only [hx]
                rfl
              · cases hf
                rfl

theorem even_readInteger (hw : d.Shows xs i j (some w)) (host : HostType) :
    d.Even xs (readInteger ctx d.machine i host) (readInteger ctx d.machine j host) := by
  have hkind : d.Even xs (onMachine d.machine (Vm.isInteger i))
      (onMachine d.machine (Vm.isInteger j)) := by
    cases hp : w.plain with
    | int n =>
        refine hw.see (g := fun _ => true) fun vm i hi => ?_
        unfold Vm.isInteger
        rw [bind_ok hi, Option.map_some, hp]
        rfl
    | _ =>
        refine hw.see (g := fun _ => false) fun vm i hi => ?_
        unfold Vm.isInteger
        rw [bind_ok hi, Option.map_some, hp]
        rfl
  have hinteger : d.Even xs (onMachine d.machine (Vm.toInteger i))
      (onMachine d.machine (Vm.toInteger j)) := by
    refine hw.see (g := fun _ => ((Vm.numeralOf? (some w)).map Vm.integerOf).getD 0)
      fun vm i hi => ?_
    unfold Vm.toInteger
    rw [bind_ok hi]
    cases Vm.numeralOf? (some w) <;> rfl
  refine hkind.bind fun integer => ?_
  split
  · exact hinteger.bind fun n => (even_guestOr hw _).bind (even_asInteger host)
  · exact (even_toNumber hw).bind fun x => Even.bind (together_pure rfl) (even_asInteger host)

theorem even_readFloat (hw : d.Shows xs i j (some w)) (host : HostType) :
    d.Even xs (readFloat d.machine i host) (readFloat d.machine j host) := by
  refine (even_toNumber hw).bind fun x => ?_
  split
  · exact (even_ofHost _).bind fun v => even_individual v
  · exact even_individual _

/-- Bytes are read as they are. -/
theorem even_readBytes (hw : d.Shows xs i j (some w)) (hstring : w.category? = some .string) :
    d.Even xs (readBytes d.machine i) (readBytes d.machine j) := by
  have hbytes : d.Even xs (onMachine d.machine (Vm.toBytes? i))
      (onMachine d.machine (Vm.toBytes? j)) := by
    refine hw.see (g := fun _ => some (Direct.bytes w)) fun vm i hi => ?_
    unfold Vm.toBytes?
    simp only [bind_ok hi, Option.map_some, string_cases hstring]
    rfl
  exact hbytes.bind fun _ => together_pure rfl

theorem even_readBuffer (hw : d.Shows xs i j (some w)) (hstring : w.category? = some .string)
    (host : HostType) : d.Even xs (readBuffer d.machine i host) (readBuffer d.machine j host) := by
  refine (even_readBytes hw hstring).bind fun b => ?_
  split
  · exact (even_decodeText b).bind fun _ => together_pure rfl
  · exact even_guestOr hw _
  · exact even_guestOr hw _
  · exact together_pure rfl
  · exact together_pure rfl

theorem even_readTextPointer (hw : d.Shows xs i j (some w)) (hstring : w.category? = some .string) :
    d.Even xs (readTextPointer d.machine i) (readTextPointer d.machine j) :=
  (even_readBytes hw hstring).bind fun _ => together_pure rfl

theorem even_readCallable (hw : d.Shows xs i j (some w)) (host : HostType) :
    d.Even xs (readCallable d.machine i host) (readCallable d.machine j host) := by
  refine hw.wrap.bind fun id => ?_
  split <;> exact together_pure rfl

-- =================================================================== tables

/-- Reads that go together wherever they show the same. -/
def ReadsAlike (d : Pairing) (readAt readAt' : Int → TypeExpr → Action HostValue) : Prop :=
  ∀ {xs i j x} t, d.Shows xs i j x → d.Even xs (readAt i t) (readAt' j t)

section

variable {readAt readAt' : Int → TypeExpr → Action HostValue} {id : TableId}

/-- Reading the top and popping it. -/
theorem together_popping (hread : ReadsAlike d readAt readAt') (t : TypeExpr) (w : Value) :
    d.Together (xs ++ [w]) (fun _ ys => ys = xs) (popping d.machine (readAt (-1) t))
      (popping d.machine (readAt' (-1) t)) := by
  refine Even.bind (hread t (shows_top d xs w)) fun v => ?_
  refine (together_pop d xs w).bind ?_
  rintro _ _ rfl
  exact together_pure rfl

theorem even_readItems (hread : ReadsAlike d readAt readAt') (hw : d.Shows xs i j (some (.table id)))
    (host : HostType) (first count : Nat) :
    d.Even xs (readItems readAt d.machine i host first count)
      (readItems readAt' d.machine j host first count) := by
  induction count generalizing first with
  | zero => exact together_pure rfl
  | succ count ih =>
      have hkey : (Value.int ((first : Int) + 1)).category? = some .number := rfl
      refine (hw.getKey hkey).bind ?_
      rintro _ _ ⟨v, rfl⟩
      refine (together_popping hread _ v).bind ?_
      rintro x _ rfl
      exact (ih (first + 1)).bind fun vs => together_pure rfl

/-- Indices that the top has nothing to do with. -/
theorem shows_abs_here (hw : d.Shows xs i j (some w)) :
    d.Shows xs (d.left.abs xs i) (d.right.abs xs j) w := by
  have habs := hw.abs []
  rwa [List.append_nil] at habs

theorem even_readSequence (hread : ReadsAlike d readAt readAt') (hw : d.Shows xs i j (some (.table id)))
    (host : HostType) :
    d.Even xs (readSequence readAt d.machine i host) (readSequence readAt' d.machine j host) := by
  refine together_absIndex ?_
  have habs := shows_abs_here hw
  have hitems : ∀ count, d.Even xs
      (restoringTop d.machine (readItems readAt d.machine (d.left.abs xs i) host 0 count) >>=
        fun items => pure (asSequence host items))
      (restoringTop d.machine (readItems readAt' d.machine (d.right.abs xs j) host 0 count) >>=
        fun items => pure (asSequence host items)) := fun count =>
    Even.bind (even_readItems hread habs host 0 count).restoringTop fun _ => together_pure rfl
  have hlength : d.Even xs (onMachine d.machine (Vm.rawLength (d.left.abs xs i)))
      (onMachine d.machine (Vm.rawLength (d.right.abs xs j))) :=
    habs.see (g := fun heap => (heap.table id).length) fun _ _ hi => Vm.rawLength_table hi
  by_cases hfixed : host.isFixedTuple = true
  · simp only [hfixed, if_true]
    exact hitems _
  · simp only [hfixed, Bool.false_eq_true, if_false]
    exact hlength.bind hitems

/-- The entries behind the key on top, under the absolute indices of the table. -/
theorem together_readEntries (hread : ReadsAlike d readAt readAt')
    (hw : ∀ ys, d.Shows (xs ++ ys) i j (some (.table id))) (keyType valueType : TypeExpr) (fuel : Nat)
    (key : Value) (entries : List (HostValue × HostValue)) :
    d.Together (xs ++ [key]) (fun _ ys => ys = xs)
      (readEntries readAt d.machine i keyType valueType fuel entries)
      (readEntries readAt' d.machine j keyType valueType fuel entries) := by
  induction fuel generalizing key entries with
  | zero => exact fun u hu => .error hu rfl
  | succ fuel ih =>
      refine (Shows.next (hw [key])).bind ?_
      rintro (_ | _) ys hys
      · exact together_pure hys
      · obtain ⟨key', v, rfl⟩ := hys
        have htop : d.Shows (xs ++ [key', v]) (-1) (-1) v := by
          have htop := shows_top d (xs ++ [key']) v
          rwa [List.append_assoc] at htop
        refine Even.bind (hread valueType htop) fun value => ?_
        refine Even.bind (hread keyType (shows_second d xs key' v)) fun k => ?_
        have hpop := together_pop d (xs ++ [key']) v
        rw [List.append_assoc] at hpop
        refine hpop.bind ?_
        rintro _ _ rfl
        exact (even_ofHost _).bind fun entries => ih key' entries

theorem even_readMapping (hread : ReadsAlike d readAt readAt') (hw : d.Shows xs i j (some (.table id)))
    (fuel : Nat) (host : HostType) :
    d.Even xs (readMapping readAt fuel d.machine i host)
      (readMapping readAt' fuel d.machine j host) := by
  refine together_absIndex ?_
  have hentries : d.Even xs
      (do push d.machine .nil
          readEntries readAt d.machine (d.left.abs xs i) (orNatural host.entryTypes.1)
            (orNatural host.entryTypes.2) fuel [])
      (do push d.machine .nil
          readEntries readAt' d.machine (d.right.abs xs j) (orNatural host.entryTypes.1)
            (orNatural host.entryTypes.2) fuel []) := by
    refine (together_push d xs .nil).bind ?_
    rintro _ _ rfl
    exact together_readEntries hread (fun ys => hw.abs ys) _ _ fuel .nil []
  refine Even.bind hentries.restoringTop fun entries => ?_
  split <;> exact together_pure rfl

theorem even_readFields (hread : ReadsAlike d readAt readAt') (hw : d.Shows xs i j (some (.table id)))
    (fields : List (FieldSpec × TypeExpr)) :
    d.Even xs (readFields readAt d.machine i fields) (readFields readAt' d.machine j fields) := by
  induction fields with
  | nil => exact together_pure rfl
  | cons field fields ih =>
      obtain ⟨f, type⟩ := field
      unfold readFields
      by_cases hinit : f.init = true
      swap
      · simp only [hinit]
        exact ih
      simp only [hinit, Bool.not_true, Bool.false_eq_true, if_false]
      have hkey : (Value.str (utf8 f.name)).category? = some .string := rfl
      refine (hw.getKey hkey).bind ?_
      rintro c _ ⟨v, rfl⟩
      split
      · refine (together_pop d xs v).bind ?_
        rintro _ _ rfl
        exact ih
      · refine (together_popping hread _ v).bind ?_
        rintro x _ rfl
        exact ih.bind fun vs => together_pure rfl

theorem even_readRecord (hread : ReadsAlike d readAt readAt') (hw : d.Shows xs i j (some (.table id)))
    (host : HostType) :
    d.Even xs (readRecord ctx readAt d.machine i host)
      (readRecord ctx readAt' d.machine j host) := by
  refine together_absIndex ?_
  refine Even.bind (Together.restoringTop ?_) fun given => even_ofHost _
  exact (even_ofHost _).bind fun fields => even_readFields hread (shows_abs_here hw) fields

-- =================================================================== values

/-- What has the category of a type is read by the shape of the type alike. -/
theorem even_readShape (hread : ReadsAlike d readAt readAt') (hx : d.Shows xs i j x)
    (hcategory : host.shape ≠ .dynamic → categoryShown x host.category) (fuel : Nat) :
    d.Even xs (readShape ctx readAt fuel d.machine i host)
      (readShape ctx readAt' fuel d.machine j host) := by
  unfold readShape
  by_cases hdynamic : host.shape = .dynamic
  · simp only [hdynamic]
    exact even_readDynamic hx host
  -- no type has the category of an empty place
  obtain ⟨w, rfl, hw⟩ : ∃ w, x = some w ∧ w.category? = some host.category := by
    have hshown := hcategory hdynamic
    cases x with
    | none =>
        have habsent : host.shape.category = .absent := hshown
        cases hshape : host.shape <;> rw [hshape] at habsent <;> cases habsent
    | some w => exact ⟨w, rfl, hshown⟩
  unfold HostType.category at hw
  cases hshape : host.shape with
  | dynamic => exact absurd hshape hdynamic
  | absent => exact together_pure rfl
  | boolean => exact even_readBoolean hx host
  | integer => exact even_readInteger hx host
  | float => exact even_readFloat hx host
  | callable => exact even_readCallable hx host
  | textPointer =>
      rw [hshape] at hw
      exact even_readTextPointer hx hw
  | buffer =>
      rw [hshape] at hw
      exact even_readBuffer hx hw host
  | mapping =>
      rw [hshape] at hw
      obtain ⟨id, rfl⟩ := table_of_category hw
      exact even_readMapping hread hx fuel host
  | record =>
      rw [hshape] at hw
      obtain ⟨id, rfl⟩ := table_of_category hw
      exact even_readRecord hread hx host
  | sequence =>
      rw [hshape] at hw
      obtain ⟨id, rfl⟩ := table_of_category hw
      exact even_readSequence hread hx host

/-- The handler on the right raises what the wording says for what the one on the left
raises. -/
structure Worded (d : Pairing) (h h' : Handler) : Prop where
  left : Raises h
  right : Raises h'
  words : ∀ actual expected, d.reworded (.failed (raisedBy h actual expected))
    = .failed (raisedBy h' actual expected)

theorem Worded.even_handle (hwords : Worded d h h') {actual expected : Category}
    (hactual : actual ≠ .dynamic) (hexpected : expected ≠ .dynamic) :
    d.Even xs (handle ctx run d.machine h actual expected)
      (handle ctx run d.machine h' actual expected) := by
  intro u hu
  rw [handle_eq hwords.left hactual hexpected, handle_eq hwords.right hactual hexpected]
  exact .error hu (hwords.words actual expected).symm

theorem even_readHost (hwords : Worded d h h') (hread : ReadsAlike d readAt readAt')
    (hx : d.Shows xs i j x) (fuel : Nat) (host : HostType) :
    d.Even xs (readHost ctx run readAt fuel d.machine i host h)
      (readHost ctx run readAt' fuel d.machine j host h') := by
  unfold readHost
  by_cases hdynamic : host.shape = .dynamic
  · simp only [hdynamic, if_true]
    exact even_readShape hread hx (fun hne => absurd hdynamic hne) fuel
  · simp only [hdynamic, if_false]
    refine (together_categoryAt hx).bind ?_
    rintro actual _ ⟨hactual, rfl⟩
    by_cases hsame : actual = host.category
    · simp only [hsame, ne_eq, not_true_eq_false, if_false]
      exact even_readShape hread hx (fun _ => hsame ▸ hactual) fuel
    · simp only [hsame, ne_eq, not_false_eq_true, if_true]
      refine hwords.even_handle ?_ (hostCategory_ne_dynamic hdynamic)
      cases x with
      | none => exact hactual ▸ Category.noConfusion
      | some w => exact category_ne_dynamic hactual

end

/-- Reads of what is the same go together wherever it is, to any depth. -/
theorem even_readAs (hwords : Worded d h h') (fuel depth : Nat) :
    ReadsAlike d (readAs ctx run fuel d.machine h depth)
      (readAs ctx run fuel d.machine h' depth) := by
  induction depth with
  | zero => exact fun _ _ => together_fail rfl
  | succ depth ih =>
      intro xs i j x t hx
      refine (even_describe ctx t "read").bind fun host => ?_
      have hidle : ∀ {h}, Raises h → ∀ index, ReadsOnly d.machine
          (readHost ctx run (readAs ctx run fuel d.machine h depth) fuel d.machine index host h) :=
        fun hh index => readsOnly_readHost (readsOnly_readAs ctx run hh fuel depth) hh fuel index
          host
      exact (even_readHost hwords ih hx fuel host).guarded (hidle hwords.left i)
        (hidle hwords.right j) _

-- ============================================================ on other stacks

/-- A result, with a machine on a seat. -/
def reseated {α : Type} (k : MachineId) (q : Seat) :
    EStateM.Result Stop Session α → EStateM.Result Stop Session α
  | .ok x t => .ok x (t.seated k q [])
  | .error e t => .error e (t.seated k q [])

/-- A result, with a mismatch in the words of a handler. -/
def inWords {α : Type} (h : Handler) :
    EStateM.Result Stop Session α → EStateM.Result Stop Session α
  | .error (.failed (.mismatch actual expected)) t =>
    .error (.failed (raisedBy h actual expected)) t
  | r => r

variable {k : MachineId} {s : Session}

/-- The seat that a machine has and another one, and the words of a handler. -/
def pairing (s : Session) (k : MachineId) (p q : Seat) (h : Handler) : Pairing :=
  ⟨k, (s.machine k).registry, s.reports, p, q, raisedBy h⟩

theorem worded_strict {p q : Seat} (hh : Raises h) : Worded (pairing s k p q h) .strict h :=
  ⟨trivial, hh, fun _ _ => rfl⟩

/-- On a machine's own seat and on another one: a read that raises mismatches as they
are, and one at an index that shows the same, with a handler. Nothing is reported. -/
theorem readValue_seated {p q : Seat} (hh : Raises h) (hk : k < s.machines.size)
    (hl : (s.machine k).Live) (hp : s.seated k p [] = s)
    (hx : (pairing s k p q h).Shows [] i j x) (fuel : Nat) (t : TypeExpr) :
    readValue ctx run fuel k h j t (s.seated k q [])
        = reseated k q (inWords h (readValue ctx run fuel k .strict i t s))
      ∧ readValue ctx run fuel k .strict i t s
        = reseated k p (readValue ctx run fuel k .strict i t s)
      ∧ (final (readValue ctx run fuel k .strict i t s)).reports = s.reports := by
  have hslots : ∀ (u : Session) (ys : List Value), k < u.machines.size →
      ((u.seated k p ys).machine k).slots = p.below ++ ys := fun u ys hu => by
    rw [seated_machine hu]
    rfl
  have hends := readsOnly_readAs (k := k) ctx run (h := .strict) trivial fuel readLimit i t s hk hl
  have hagree : (pairing s k p q h).Agree (fun _ ys => ys = [])
      (readValue ctx run fuel k .strict i t (s.seated k p []))
      (readValue ctx run fuel k h j t (s.seated k q [])) :=
    even_readAs (worded_strict hh) fuel readLimit t hx s ⟨hk, ⟨hl.opened, rfl⟩, rfl⟩
  rw [hp] at hagree
  change Ends (readValue ctx run fuel k .strict i t s) _ _ at hends
  generalize readValue ctx run fuel k .strict i t s = r at hagree hends
  generalize readValue ctx run fuel k h j t (s.seated k q []) = r' at hagree
  cases hagree with
  | @ok v u ys hu hys =>
      obtain rfl : ys = [] := hys
      have hsize : k < u.machines.size := hu.machine
      exact ⟨congrArg _ (seated_seated hsize p q [] []).symm,
        congrArg _ (seated_seated hsize p p [] []).symm, hu.reports⟩
  | @error e e' u ys hu he =>
      -- a stop leaves nothing behind either
      have hsize : k < u.machines.size := hu.machine
      have hleft : p.below ++ ys = (s.machine k).slots ++ [] :=
        (hslots u ys hsize).symm.trans hends.2.slots
      have hhere : (s.machine k).slots = p.below ++ [] := by
        rw [← hslots s [] hk, hp]
      rw [hhere, List.append_nil, List.append_nil] at hleft
      obtain rfl : ys = [] := List.append_right_eq_self.mp hleft
      obtain rfl : e' = (pairing s k p q h).reworded e := he
      refine ⟨?_, congrArg _ (seated_seated hsize p p [] []).symm, hu.reports⟩
      cases e with
      | exhausted => exact congrArg _ (seated_seated hsize p q [] []).symm
      | failed f => cases f <;> exact congrArg _ (seated_seated hsize p q [] []).symm

/-- The seat of a live machine shows what is at an index. -/
theorem seat_shows (hk : k < s.machines.size) (hl : (s.machine k).Live) :
    ∃ p : Seat, s.seated k p [] = s ∧ s.vm k = p.on [] (s.vm k) := by
  obtain ⟨p, hp⟩ := exists_seat hl
  exact ⟨p, hp, by rw [← seated_vm hk, hp]⟩

/-- A read with a handler that raises is a read that raises mismatches as they are, but
for the words. Nothing is reported. -/
theorem readValue_worded (ctx : Context) (run : BlockId → Action Unit) (fuel : Nat)
    (hh : Raises h) (hk : k < s.machines.size) (hl : (s.machine k).Live)
    (hi : Vm.valueAt? i (s.vm k) = .ok x (s.vm k)) (t : TypeExpr) :
    readValue ctx run fuel k h i t s = inWords h (readValue ctx run fuel k .strict i t s)
      ∧ (final (readValue ctx run fuel k .strict i t s)).reports = s.reports := by
  obtain ⟨p, hp, hvm⟩ := seat_shows hk hl
  rw [hvm] at hi
  have hshown : ∀ vm, (pairing s k p p h).FitsVm vm →
      Vm.valueAt? i (p.on [] vm) = .ok x (p.on [] vm) :=
    fun vm hfits => Seat.valueAt?_elsewhere hfits.registry hi
  obtain ⟨hread, hseat, hreports⟩ :=
    @readValue_seated ctx run h i i x k s p p hh hk hl hp ⟨hshown, hshown, fun _ => rfl⟩ fuel t
  rw [hp] at hread
  refine ⟨hread.trans ?_, hreports⟩
  conv_rhs => rw [hseat]
  cases readValue ctx run fuel k .strict i t s with
  | ok v u => rfl
  | error e u =>
      cases e with
      | exhausted => rfl
      | failed f => cases f <;> rfl

/-- A read of an open machine does not depend on where the value is: on any other stack
and in any other frames, a read at an index that shows the same value comes to the same,
an answer or a stop, and to the same session but for that stack and those frames. On one
stack, an index may be made absolute. -/
theorem readValue_anywhere (ctx : Context) (run : BlockId → Action Unit) (fuel : Nat)
    (hh : Raises h) (hk : k < s.machines.size) (hl : (s.machine k).Live)
    (hi : Vm.valueAt? i (s.vm k) = .ok (some w) (s.vm k)) (t : TypeExpr) :
    (∀ (q : Seat) (j : Int),
        Vm.valueAt? j (q.on [] (s.vm k)) = .ok (some w) (q.on [] (s.vm k)) →
        readValue ctx run fuel k h j t (s.seated k q [])
          = reseated k q (readValue ctx run fuel k h i t s))
      ∧ ∀ j, Vm.absIndex i (s.vm k) = .ok j (s.vm k) →
        readValue ctx run fuel k h j t s = readValue ctx run fuel k h i t s := by
  obtain ⟨p, hp, hvm⟩ := seat_shows hk hl
  have hhere := (readValue_worded ctx run fuel hh hk hl hi t).1
  have hread : ∀ (q : Seat) (j : Int),
      Vm.valueAt? j (q.on [] (s.vm k)) = .ok (some w) (q.on [] (s.vm k)) →
      readValue ctx run fuel k h j t (s.seated k q [])
        = reseated k q (readValue ctx run fuel k h i t s) := by
    intro q j hj
    rw [hhere]
    rw [hvm] at hi
    exact (readValue_seated hh hk hl hp ⟨fun _ hfits => Seat.valueAt?_elsewhere hfits.registry hi,
      fun _ hfits => Seat.valueAt?_elsewhere hfits.registry hj, nofun⟩ fuel t).1
  refine ⟨hread, fun j habs => ?_⟩
  -- the same seat twice
  have hself : ∀ index, Vm.valueAt? index (s.vm k) = .ok (some w) (s.vm k) →
      readValue ctx run fuel k h index t s = reseated k p (readValue ctx run fuel k h i t s) := by
    intro index hindex
    rw [hvm] at hindex
    have hself := hread p index hindex
    rwa [hp] at hself
  have hj := Vm.absIndex_answered habs hi rfl rfl (List.append_nil _).symm
  exact (hself j hj).trans (hself i hi).symm

/-- A program that does nothing. -/
def silent : Context := ⟨[], ⟨[], 1, true, #[], #[], 0⟩⟩

/-- A session with a table of one integer on top of another value. -/
def listed : Session :=
  let setup : Vm.Action Unit := do
    Vm.push (.bool true)
    Vm.pushTable
    Vm.push (.int 5)
    Vm.setKey (-2) (.int 1)
  final (onMachine 0 setup (Session.start 1 false))

/-- The table in the third slot of a called function, below another value. -/
def buried : Seat := ⟨[.nil, .int 1, .int 2, .table 1, .str [97]], 1, [0], by decide⟩

/-- The list is the same list there, and at its absolute index. -/
theorem readValue_anywhere_list :
    Vm.valueAt? (-1) (listed.vm 0) = .ok (some (.table 1)) (listed.vm 0)
      ∧ readValue silent (fun _ => pure ()) 1 0 .standard 3
            (.generic (.sequence .list) [.cls (.integer .plain)]) (listed.seated 0 buried [])
          = reseated 0 buried (readValue silent (fun _ => pure ()) 1 0 .standard (-1)
            (.generic (.sequence .list) [.cls (.integer .plain)]) listed)
      ∧ readValue silent (fun _ => pure ()) 1 0 .standard 2
            (.generic (.sequence .list) [.cls (.integer .plain)]) listed
          = readValue silent (fun _ => pure ()) 1 0 .standard (-1)
            (.generic (.sequence .list) [.cls (.integer .plain)]) listed
      ∧ Ends (readValue silent (fun _ => pure ()) 1 0 .standard (-1)
            (.generic (.sequence .list) [.cls (.integer .plain)]) listed)
          (fun v _ => v = .list [.int 5]) fun _ _ => False := by
  have hshown : Vm.valueAt? (-1) (listed.vm 0) = .ok (some (.table 1)) (listed.vm 0) := rfl
  have hlive : (listed.machine 0).Live := ⟨rfl, 0, [], rfl, by decide⟩
  obtain ⟨hother, habs⟩ := readValue_anywhere silent (fun _ => pure ()) 1 (h := .standard)
    trivial (show 0 < listed.machines.size by decide) hlive hshown
    (.generic (.sequence .list) [.cls (.integer .plain)])
  exact ⟨hshown, hother buried 3 rfl, habs 2 rfl, rfl⟩

end Bridge

end StackBridge
