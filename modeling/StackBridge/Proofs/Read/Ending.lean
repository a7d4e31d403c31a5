import StackBridge.Proofs.Describe.Nested
import StackBridge.Proofs.Read.Conforms
import StackBridge.Proofs.Read.Handled

/-!
Reads that end. All that a read may go on with for ever is the entries of a mapping:
everything else is bounded by the depth of reading, the border of a table or the
fields of a class. With a handler that raises, a read therefore ends where the direct
reading does (`readValue_ends`), in every state that a program comes to and at every
index, whether or not there is a value and whatever cycles there are.

The direct reading gives up only on a table that has changed while its entries are
read, and no table changes but the registry. So it does not give up on a value that
does not lead to the registry (`value_apart`).
-/

namespace StackBridge

namespace Bridge

open Session Direct Filter

variable {ctx : Context} {run : BlockId → Action Unit} {h : Handler} {k : MachineId}
  {s t : Session} {index : Int} {w : Value} {type : TypeExpr} {α β : Type}

-- ================================================================== endings

/-- A result that is an answer or a failure: the fuel is not used up. -/
def Ended (r : EStateM.Result Stop Session α) : Prop := Ends r (fun _ _ => True) fun e _ => e.Met

theorem Ended.ne_exhausted {r : EStateM.Result Stop Session α} (hr : Ended r) (u : Session) :
    r ≠ .error .exhausted u := by
  rintro rfl
  obtain ⟨f, hf⟩ := hr
  cases hf

theorem ended_of_ne {r : EStateM.Result Stop Session α} (hr : ∀ u, r ≠ .error .exhausted u) :
    Ended r := by
  cases r with
  | ok x u => trivial
  | error e u =>
      cases e with
      | failed f => exact ⟨f, rfl⟩
      | exhausted => exact absurd rfl (hr u)

theorem Ended.bind {a : Action α} {f : α → Action β} (ha : Ended (a s))
    (hf : ∀ x u, a s = .ok x u → Ended (f x u)) : Ended ((a >>= f) s) := by
  cases hr : a s with
  | ok x u =>
      rw [bind_ok hr]
      exact hf x u hr
  | error e u =>
      rw [hr] at ha
      rw [bind_error hr]
      exact ha

/-- An action that ends wherever it begins. -/
def Finite (a : Action α) : Prop := ∀ s, Ended (a s)

theorem finite_pure (x : α) : Finite (pure x : Action α) := fun _ => trivial

theorem finite_get : Finite (get : Action Session) := fun _ => trivial

theorem finite_fail (f : Failure) : Finite (fail f : Action α) := fun _ => ⟨_, rfl⟩

theorem Finite.bind {a : Action α} {f : α → Action β} (ha : Finite a) (hf : ∀ x, Finite (f x)) :
    Finite (a >>= f) := fun s => (ha s).bind fun x u _ => hf x u

theorem finite_onMachine (a : Vm.Action α) : Finite (onMachine k a) := by
  intro s
  unfold onMachine
  cases a (s.vm k) with
  | ok x vm => trivial
  | error f vm => exact ⟨f, rfl⟩

theorem finite_ofHost (r : Except HostFault α) : Finite (ofHost r) := by
  cases r with
  | ok x => exact finite_pure x
  | error f => exact finite_fail _

theorem finite_describe (type : TypeExpr) : Finite (describe ctx type "read") := fun s =>
  (describe_ends ctx type "read" s).mono (fun _ _ _ => trivial) fun _ _ ⟨⟨f, hf, _⟩, _⟩ => ⟨f, hf⟩

theorem finite_decodeText (b : Bytes) : Finite (decodeText b) := by
  refine finite_get.bind fun s => ?_
  cases s.encoding.decode b with
  | ok x => exact finite_pure x
  | error f => exact finite_fail _

theorem finite_individual (v : HostValue) : Finite (individual v) := by
  have hnext : Finite nextIndividual := fun _ => trivial
  have hfloat : ∀ x : Double, Finite (individualFloat x) := by
    intro x
    unfold individualFloat
    split
    · exact hnext.bind fun _ => finite_pure _
    · exact finite_pure _
  unfold individual
  split
  · exact (hfloat _).bind fun _ => finite_pure _
  · exact hnext.bind fun _ => finite_pure _
  · exact hnext.bind fun _ => finite_pure _
  · exact finite_pure _

theorem finite_asInteger (host : HostType) (v : HostValue) : Finite (asInteger ctx host v) := by
  unfold asInteger
  split
  · exact finite_pure _
  · exact finite_pure _
  · exact finite_ofHost _
  · exact finite_pure _

theorem finite_handle (hh : Raises h) (actual expected : Category) :
    Finite (handle ctx run k h actual expected) := by
  have hlabel : ∀ c, Finite (labelOf c) := by
    intro c
    unfold labelOf
    split
    · exact finite_pure _
    · exact finite_fail _
  cases h with
  | standard => exact (hlabel _).bind fun _ => (hlabel _).bind fun _ => finite_onMachine _
  | strict => exact finite_fail _
  | badArgument position function =>
      exact (hlabel _).bind fun _ => (hlabel _).bind fun _ => finite_onMachine _
  | custom block result => exact hh.elim

-- ======================================================= the direct reading

theorem finite_wrap (w : Value) : Finite (Direct.wrap k w) := by
  have hkeep : Finite (keep k w) := by
    intro s
    unfold keep
    split <;> trivial
  exact hkeep.bind fun _ => finite_get.bind fun _ => fun _ => trivial

theorem finite_natural (w : Value) : Finite (natural k w) := by
  refine (finite_onMachine _).bind fun _ => ?_
  split
  · exact finite_pure _
  · exact finite_pure _
  · exact finite_get.bind fun _ => finite_pure _
  · exact finite_individual _
  · exact (finite_decodeText _).bind fun _ => finite_pure _
  · exact (finite_wrap w).bind fun _ => finite_pure _

theorem finite_dynamic (w : Value) (host : HostType) : Finite (dynamic k w host) := by
  unfold dynamic
  split
  · exact (finite_wrap w).bind fun _ => finite_pure _
  · exact finite_natural w

theorem finite_double (w : Value) : Finite (double w) := by
  unfold double
  split
  · exact finite_pure _
  · split
    · exact finite_pure _
    · exact finite_fail _
  · exact finite_pure _

theorem finite_scalar (w : Value) (host : HostType) : Finite (Direct.scalar ctx k w host) := by
  unfold Direct.scalar
  split
  · exact finite_pure _
  · unfold integer
    split
    · exact (finite_get.bind fun _ => finite_pure _).bind fun v => finite_asInteger host v
    · exact finite_asInteger host _
    · exact finite_pure _
  · refine (finite_double w).bind fun x => ?_
    split
    · exact (finite_ofHost _).bind fun v => finite_individual v
    · exact finite_individual _
  · exact finite_pure _
  · unfold buffer
    split
    · exact (finite_decodeText _).bind fun _ => finite_pure _
    · exact finite_get.bind fun _ => finite_pure _
    · exact finite_get.bind fun _ => finite_pure _
    · exact finite_pure _
    · exact finite_pure _
  · refine (finite_wrap w).bind fun id => ?_
    split <;> exact finite_pure _
  · exact finite_pure _

/-- A value that does not lead to the registry of a machine. -/
def Apart (k : MachineId) (s : Session) (w : Value) : Prop :=
  ¬ s.heap.LeadsTo w (s.machine k).registry

/-- Only the registry changes, so what leads there has led there before. -/
theorem Apart.stays (hw : Apart k s w) (hst : Stays k s t) : Apart k t w := by
  unfold Apart
  rw [hst.registry]
  refine fun hlead => hw ?_
  generalize hreg : (s.machine k).registry = reg at hlead
  have hsame : ∀ id ≠ reg, t.heap.table id = s.heap.table id := by
    rw [← hreg]
    exact hst.table
  clear hw hst hreg
  induction hlead with
  | self id => exact .self id
  | @key id id' e entry _ ih =>
      by_cases hid : id = id'
      · rw [hid]
        exact .self id'
      · rw [hsame id hid] at entry
        exact .key entry (ih hsame)
  | @value id id' e entry _ ih =>
      by_cases hid : id = id'
      · rw [hid]
        exact .self id'
      · rw [hsame id hid] at entry
        exact .value entry (ih hsame)

theorem Apart.ne_registry {id : TableId} (h : Apart k s (.table id)) :
    id ≠ (s.machine k).registry := by
  rintro rfl
  exact h (.self _)

theorem Apart.entry {id : TableId} (h : Apart k s (.table id)) {e : Key × Value}
    (he : e ∈ (s.heap.table id).traversal) : Apart k s e.1.value ∧ Apart k s e.2 := by
  obtain ⟨key, -, hkey⟩ := List.mem_filterMap.mp he
  obtain ⟨v, hfind, rfl⟩ := Option.map_eq_some_iff.mp hkey
  exact ⟨fun hw => h (leadsTo_key (Table.has_of_find? hfind) hw),
    fun hw => h (leadsTo_find? hfind hw)⟩

/-- What is under a key is apart if the table is. -/
theorem Apart.element {id : TableId} {key : Value} (h : Apart k s (.table id))
    (hw : Direct.element k id key s = .ok w t) : t = s ∧ Apart k s w := by
  obtain ⟨u, s₁, hu, hw⟩ := bind_answered hw
  cases hu
  obtain ⟨c, s₂, hc, hw⟩ := bind_answered hw
  obtain rfl := (looked_onMachine (Vm.looks_categoryOf _) hc).1
  cases hw
  exact ⟨rfl, fun hw => h (leadsTo_get hw)⟩

theorem finite_element (id : TableId) (key : Value) : Finite (Direct.element k id key) :=
  finite_get.bind fun _ => (finite_onMachine _).bind fun _ => finite_pure _

section

variable {readAt : Value → TypeExpr → Action HostValue}
  (hstays : ∀ w type, Keeps (Stays k) (readAt w type))
  (hread : ∀ s w type, Apart k s w → Ended (readAt w type s))

include hstays hread

theorem ended_items {id : TableId} (hid : Apart k s (.table id)) (host : HostType)
    (i count : Nat) : Ended (items readAt k id host i count s) := by
  induction count generalizing i s with
  | zero => trivial
  | succ count ih =>
      refine Ended.bind (finite_element _ _ _) fun w t ht => ?_
      obtain ⟨rfl, hw⟩ := hid.element ht
      refine Ended.bind (hread _ _ _ hw) fun v u hv => ?_
      refine Ended.bind (ih (hid.stays ((hstays _ _).of_ok hv)) (i + 1)) fun vs x _ => trivial

theorem ended_fields {id : TableId} (hid : Apart k s (.table id))
    (fs : List (FieldSpec × TypeExpr)) : Ended (fields readAt k id fs s) := by
  induction fs generalizing s with
  | nil => trivial
  | cons f fs ih =>
      unfold fields
      split
      · exact ih hid
      · refine Ended.bind (finite_element _ _ _) fun w t ht => ?_
        obtain ⟨rfl, hw⟩ := hid.element ht
        split
        · exact ih hid
        · refine Ended.bind (hread _ _ _ hw) fun v u hv => ?_
          exact Ended.bind (ih (hid.stays ((hstays _ _).of_ok hv))) fun vs x _ => trivial

/-- The table is still what it was after each entry. -/
theorem ended_entries {id : TableId} (hid : Apart k s (.table id)) (keyType valueType : TypeExpr)
    (es : List (Key × Value)) (hes : ∀ e ∈ es, Apart k s e.1.value ∧ Apart k s e.2)
    (got : List (HostValue × HostValue)) :
    Ended (entries readAt id (s.heap.table id) keyType valueType es got s) := by
  generalize hwhole : s.heap.table id = whole
  induction es generalizing s got with
  | nil => trivial
  | cons e es ih =>
      obtain ⟨hkey, hvalue⟩ := hes e (List.mem_cons_self ..)
      refine Ended.bind (hread _ _ _ hvalue) fun value t ht => ?_
      have hst : Stays k s t := (hstays _ _).of_ok ht
      refine Ended.bind (hread _ _ _ (hkey.stays hst)) fun key u hu => ?_
      have hsu : Stays k s u := IsTrans.trans _ _ _ hst ((hstays _ _).of_ok hu)
      refine Ended.bind (finite_ofHost _ _) fun got' x hx => ?_
      obtain ⟨-, rfl⟩ := ofHost_answered hx
      have hsame : x.heap.table id = whole := (hsu.table id hid.ne_registry).trans hwhole
      rw [bind_ok (still_same hsame)]
      refine ih (hid.stays hsu) (fun e he => ?_) got' hsame
      obtain ⟨hkey, hvalue⟩ := hes e (List.mem_cons_of_mem _ he)
      exact ⟨hkey.stays hsu, hvalue.stays hsu⟩

theorem ended_table {id : TableId} (hid : Apart k s (.table id)) (host : HostType) :
    Ended (table readAt ctx k id host s) := by
  unfold table
  cases host.shape with
  | mapping =>
      refine Ended.bind (finite_get s) fun u x hu => ?_
      cases hu
      refine Ended.bind (ended_entries hstays hread hid _ _ _ (fun e he => hid.entry he) _)
        fun got u _ => ?_
      cases host.origin? with
      | none => trivial
      | some c => cases c <;> trivial
  | record =>
      refine Ended.bind (Ended.bind (finite_ofHost _ s) fun hinted u hu => ?_)
        fun given u _ => finite_ofHost _ u
      obtain ⟨-, rfl⟩ := ofHost_answered hu
      exact ended_fields hstays hread hid hinted
  | _ =>
      refine Ended.bind (finite_get s) fun u x hu => ?_
      cases hu
      exact Ended.bind (ended_items hstays hread hid host 0 _) fun vs u _ => trivial

end

/-- The direct reading ends where a value does not lead to the registry. -/
theorem ended_value {answer : Category → Category → Action HostValue}
    (hstays : ∀ actual expected, Keeps (Stays k) (answer actual expected))
    (hanswer : ∀ actual expected, Finite (answer actual expected)) (depth : Nat)
    (hw : Apart k s w) : Ended (Direct.value ctx k answer depth w type s) := by
  induction depth generalizing s w type with
  | zero => exact ⟨_, rfl⟩
  | succ depth ih =>
      refine Ended.bind (finite_describe type s) fun host t ht => ?_
      replace hw := hw.stays ((stays_describe type).of_ok ht)
      unfold Direct.host
      split
      · exact finite_dynamic w host t
      · refine Ended.bind (finite_onMachine _ t) fun actual u hu => ?_
        obtain rfl := (looked_onMachine (Vm.looks_categoryOf _) hu).1
        split
        · exact hanswer _ _ u
        · unfold shaped
          split
          · exact ended_table (stays_value hstays depth) (fun _ _ _ => ih) hw host
          · exact finite_scalar _ host u

-- ================================================================== blocks

theorem finite_getTop : Finite (getTop k) := finite_onMachine _

theorem finite_isClosed : Finite (isClosed k) := finite_get.bind fun _ => finite_pure _

theorem Ended.restoringTop {a : Action α} (ha : Ended (a s)) : Ended (restoringTop k a s) := by
  refine Ended.bind (finite_getTop s) fun top t ht => ?_
  obtain rfl := (looked_onMachine Vm.looks_getTop ht).1
  have hclean : Finite (do
      if !(← isClosed k) then
        if top < (← getTop k) then onMachine k (Vm.setTop top)) := by
    refine finite_isClosed.bind fun closed => ?_
    split
    · refine finite_getTop.bind fun now => ?_
      split
      · exact finite_onMachine _
      · exact finite_pure _
    · exact finite_pure _
  unfold onStop
  cases hr : a t with
  | ok x u => trivial
  | error e u =>
      rw [hr] at ha
      obtain ⟨f, rfl⟩ := ha
      have hu := hclean u
      dsimp only
      split
      · exact ⟨f, rfl⟩
      · rename_i e' u' hr'
        rw [hr'] at hu
        exact hu

theorem Ended.guarded {a : Action α} (ha : Ended (a s)) (delta : Int) (what : String) :
    Ended (guardedIfChecking k delta what a s) := by
  refine Ended.bind (finite_get s) fun t u ht => ?_
  cases ht
  split
  swap
  · exact ha
  have hcheck : ∀ expected raised, Finite (do
      if ← isClosed k then return
      let actual ← getTop k
      if actual ≠ expected then fail (← imbalance k what raised actual expected)) := by
    intro expected raised
    refine finite_isClosed.bind fun closed => ?_
    split
    · exact finite_pure _
    · refine finite_getTop.bind fun actual => ?_
      split
      · exact ((finite_onMachine _).bind fun _ => finite_pure _).bind fun f => finite_fail f
      · exact finite_pure _
  refine Ended.bind (finite_getTop s) fun top u ht => ?_
  obtain rfl := (looked_onMachine Vm.looks_getTop ht).1
  refine Ended.bind ?_ fun x t _ => ?_
  · unfold handling
    cases hr : a u with
    | ok x t => trivial
    | error e t =>
        rw [hr] at ha
        obtain ⟨f, rfl⟩ := ha
        exact (hcheck top (some f.kind)).bind (fun _ => finite_fail f) t
  · exact ((hcheck (top + delta) none).bind fun _ => finite_pure x) t

-- ================================================================= no value

theorem finite_readDynamic (host : HostType) : Finite (readDynamic k index host) := by
  have hwrap : Finite (Bridge.wrap k index) :=
    (finite_onMachine _).bind fun _ => (finite_onMachine _).bind fun _ =>
      finite_get.bind fun _ => fun _ => trivial
  have hnatural : Finite (readNatural k index) := by
    refine (finite_onMachine _).bind fun _ => (finite_onMachine _).bind fun w => ?_
    split
    · exact finite_pure _
    · exact finite_pure _
    · exact finite_pure _
    · exact (finite_onMachine _).bind fun _ => finite_pure _
    · exact finite_individual _
    · exact (finite_decodeText _).bind fun _ => finite_pure _
    · exact hwrap.bind fun _ => finite_pure _
  unfold readDynamic
  split
  · exact hwrap.bind fun _ => finite_pure _
  · exact hnatural

/-- Where there is no value, there is nothing to go on with. -/
theorem ended_absent (hh : Raises h) (fuel depth : Nat)
    (hnone : ∀ w, Vm.valueAt? index (s.vm k) ≠ .ok (some w) (s.vm k)) :
    Ended (readAs ctx run fuel k h depth index type s) := by
  cases depth with
  | zero => exact ⟨_, rfl⟩
  | succ depth =>
      refine Ended.bind (finite_describe type s) fun host t ht => ?_
      obtain ⟨-, noted, rfl⟩ := describe_answered ht
      refine Ended.guarded ?_ 0 _
      unfold readHost readShape
      split
      · rename_i hdynamic
        rw [hdynamic]
        exact finite_readDynamic host _
      · refine Ended.bind (finite_onMachine _ _) fun c u hc => ?_
        obtain ⟨rfl, hat⟩ := looked_onMachine (Vm.looks_categoryAt index) hc
        obtain ⟨x, hx, ⟨-, rfl⟩ | ⟨w, rfl, -⟩⟩ := Vm.categoryAt_answered hat
        · rw [if_pos (category_ne_absent host).symm]
          exact finite_handle hh _ _ _
        · exact absurd hx (hnone w)

-- ================================================================ no frame

/-- The running frame, if there is one, begins this far above the stack. Only a closed
machine comes to that. -/
def Sunk (k : MachineId) (n : Nat) (s : Session) : Prop :=
  ∀ b fs, (s.machine k).frames = b :: fs → (s.machine k).slots.length + n ≤ b

/-- No slot is to be seen then, -/
theorem Sunk.absent (hs : Sunk k 0 s) (hindex : ¬ 0 < index) (hregistry : index ≠ registryIndex)
    {x : Option Value} : Vm.valueAt? index (s.vm k) ≠ .ok x (s.vm k) := by
  intro hx
  obtain ⟨b, fs, hf⟩ := Vm.framed_of_valueAt? hx hregistry
  obtain ⟨l, w, r, hslots, hb, -⟩ := Vm.valueAt?_below hx hf hindex hregistry
  have hlong := hs b fs hf
  have hlen : (s.machine k).slots.length = l.length + (r.length + 1) := by
    rw [show (s.machine k).slots = l ++ w :: r from hslots, List.length_append, List.length_cons]
  omega

/-- and none to be popped. -/
theorem Sunk.not_pop (hs : Sunk k 0 s) {u : Session} : onMachine k (Vm.pop 1) s ≠ .ok () u := by
  intro hpop
  obtain ⟨vm, hpop⟩ := onMachine_answered hpop
  cases hf : (s.machine k).frames with
  | nil =>
      have htop : Vm.getTop (s.vm k) = .error (.host .noFrame) (s.vm k) :=
        bind_error (Vm.base_none hf)
      unfold Vm.pop at hpop
      rw [bind_error htop] at hpop
      cases hpop
  | cons b fs =>
      have hlong := hs b fs hf
      have hshort : ((s.vm k).machine.slots.length : Int) - b < 1 := by
        show ((s.machine k).slots.length : Int) - b < 1
        omega
      rw [Vm.pop_short hf hshort] at hpop
      cases hpop

theorem Sunk.not_take (hs : Sunk k 0 s) {w : Value} {vm : Vm} :
    Vm.take (s.vm k) ≠ .ok w vm := by
  intro htake
  obtain ⟨l, b, fs, hf, hslots, hb, -⟩ := Vm.take_answered htake
  have hlong := hs b fs hf
  have hlen : (s.machine k).slots.length = l.length + 1 := by
    rw [show (s.machine k).slots = l ++ [w] from hslots, List.length_append, List.length_singleton]
  omega

/-- What is pushed then is not to be seen either. -/
theorem Sunk.pushed (hs : Sunk k 1 s) (hk : k < s.machines.size) (w : Value) :
    Sunk k 0 (s.withSlots k ((s.machine k).slots ++ [w])) := by
  intro b fs hf
  rw [withSlots_machine hk] at hf ⊢
  have hlong := hs b fs hf
  show ((s.machine k).slots ++ [w]).length + 0 ≤ b
  rw [List.length_append, List.length_singleton]
  omega

/-- What a table holds under a key is pushed. -/
theorem getKey_pushed {i : Int} {key : Value} {c c₀ : Category} (hkey : key.category? = some c₀)
    (hget : onMachine k (Vm.getKey i key) s = .ok c t) :
    ∃ w, t = s.withSlots k ((s.machine k).slots ++ [w]) := by
  obtain ⟨vm, hvm⟩ := onMachine_answered hget
  obtain ⟨id, -, rfl, -⟩ := Vm.getKey_answered hkey hvm
  rw [onMachine_ok hvm] at hget
  cases hget
  exact ⟨_, rfl⟩

theorem absIndex_registry (s : Session) :
    onMachine k (Vm.absIndex registryIndex) s = .ok registryIndex s := onMachine_look rfl

section

variable (hs : Sunk k 1 s) (hk : k < s.machines.size)

include hs hk

/-- A part is not to be read, -/
theorem Sunk.ended_popping (hh : Raises h) (fuel depth : Nat) (w : Value) :
    Ended (popping k (readAs ctx run fuel k h depth (-1) type)
      (s.withSlots k ((s.machine k).slots ++ [w]))) :=
  Ended.bind (ended_absent hh fuel depth fun _ => (hs.pushed hk w).absent (by decide) (by decide))
    fun _ u _ => (finite_onMachine _).bind (fun _ => finite_pure _) u

/-- and there is no answer. -/
theorem Sunk.not_popping (hh : Raises h) (hkept : s.heap.WellKept) (fuel depth : Nat) (w : Value)
    {v : HostValue} {u : Session} :
    popping k (readAs ctx run fuel k h depth (-1) type)
      (s.withSlots k ((s.machine k).slots ++ [w])) ≠ .ok v u := by
  intro hpopping
  obtain ⟨x, t, hread, -⟩ := bind_answered hpopping
  have hsound : ReadsSoundly ctx k (readAs ctx run fuel k h depth (-1) type) (-1) type :=
    readAs_sound hh fuel depth (-1) type
  obtain ⟨-, x, hx, -⟩ := hsound (s.withSlots k ((s.machine k).slots ++ [w])) x t
    (by rw [withSlots_size]; exact hk) hkept hread
  exact (hs.pushed hk w).absent (by decide) (by decide) hx

theorem Sunk.ended_items (hh : Raises h) (hkept : s.heap.WellKept) (fuel depth : Nat)
    (host : HostType) (i count : Nat) :
    Ended (readItems (readAs ctx run fuel k h depth) k registryIndex host i count s) := by
  cases count with
  | zero => trivial
  | succ count =>
      refine Ended.bind (finite_onMachine _ s) fun c t hget => ?_
      obtain ⟨w, rfl⟩ := getKey_pushed rfl hget
      refine Ended.bind (hs.ended_popping hk hh fuel depth w) fun v u hv => ?_
      exact absurd hv (hs.not_popping hk hh hkept fuel depth w)

theorem Sunk.ended_fields (hh : Raises h) (hkept : s.heap.WellKept) (fuel depth : Nat)
    (fs : List (FieldSpec × TypeExpr)) :
    Ended (readFields (readAs ctx run fuel k h depth) k registryIndex fs s) := by
  induction fs with
  | nil => trivial
  | cons f fs ih =>
      unfold readFields
      split
      · exact ih
      · refine Ended.bind (finite_onMachine _ s) fun c t hget => ?_
        obtain ⟨w, rfl⟩ := getKey_pushed rfl hget
        split
        · refine Ended.bind (finite_onMachine _ _) fun _ u hpop => ?_
          exact absurd hpop (hs.pushed hk w).not_pop
        · refine Ended.bind (hs.ended_popping hk hh fuel depth w) fun v u hv => ?_
          exact absurd hv (hs.not_popping hk hh hkept fuel depth w)

/-- The traversal does not begin. -/
theorem Sunk.ended_mapping (fuel depth : Nat) (host : HostType) :
    Ended (readMapping (readAs ctx run (fuel + 1) k h depth) (fuel + 1) k registryIndex host s) := by
  unfold readMapping
  dsimp only
  rw [bind_ok (absIndex_registry s)]
  refine Ended.bind (Ended.restoringTop ?_) fun got u _ => ?_
  · rw [bind_ok (push_eq s k .nil)]
    refine Ended.bind (finite_onMachine _ _) fun more u hnext => ?_
    obtain ⟨vm, hnext⟩ := onMachine_answered hnext
    obtain ⟨id, vm₁, hid, hrest⟩ := bind_answered hnext
    obtain rfl := Vm.looked (Vm.looks_tableAt _) hid
    obtain ⟨w, vm₂, htake, -⟩ := bind_answered hrest
    exact absurd htake (hs.pushed hk .nil).not_take
  · cases host.origin? with
    | none => trivial
    | some c => cases c <;> trivial

theorem Sunk.ended_record (hh : Raises h) (hkept : s.heap.WellKept) (fuel depth : Nat)
    (host : HostType) :
    Ended (readRecord ctx (readAs ctx run fuel k h depth) k registryIndex host s) := by
  unfold readRecord
  rw [bind_ok (absIndex_registry s)]
  refine Ended.bind (Ended.restoringTop ?_) fun given u _ => finite_ofHost _ u
  refine Ended.bind (finite_ofHost _ s) fun hinted u hu => ?_
  obtain ⟨-, rfl⟩ := ofHost_answered hu
  exact hs.ended_fields hk hh hkept fuel depth hinted

theorem Sunk.ended_sequence (hh : Raises h) (hkept : s.heap.WellKept) (fuel depth : Nat)
    (host : HostType) :
    Ended (readSequence (readAs ctx run fuel k h depth) k registryIndex host s) := by
  have hitems : ∀ count, Ended ((do
      return asSequence host (← restoringTop k
        (readItems (readAs ctx run fuel k h depth) k registryIndex host 0 count))) s) :=
    fun count => Ended.bind (Ended.restoringTop (hs.ended_items hk hh hkept fuel depth host 0 count))
      fun _ _ _ => trivial
  unfold readSequence
  rw [bind_ok (absIndex_registry s)]
  by_cases hfixed : host.isFixedTuple = true
  · simp only [hfixed, if_true]
    exact hitems _
  · simp only [hfixed, Bool.false_eq_true, if_false]
    refine Ended.bind (finite_onMachine _ s) fun count t hcount => ?_
    obtain ⟨rfl, -⟩ := looked_onMachine (Vm.looks_rawLength _) hcount
    exact hitems count

/-- Nothing is read out of the registry, whatever it is read as. -/
theorem Sunk.ended_registry (hh : Raises h) (hkept : s.heap.WellKept) (fuel depth : Nat) :
    Ended (readAs ctx run (fuel + 1) k h depth registryIndex type s) := by
  cases depth with
  | zero => exact ⟨_, rfl⟩
  | succ depth =>
      refine Ended.bind (finite_describe type s) fun host t ht => ?_
      obtain ⟨-, noted, rfl⟩ := describe_answered ht
      refine Ended.guarded ?_ 0 _
      have hs' : Sunk k 1 { s with described := noted } := hs
      have hcategory : onMachine k (Vm.categoryAt registryIndex) { s with described := noted }
          = .ok .table { s with described := noted } := onMachine_look rfl
      unfold readHost readShape
      split
      · rename_i hdynamic
        rw [hdynamic]
        exact finite_readDynamic host _
      · rw [bind_ok hcategory]
        by_cases htable : Category.table = host.category
        swap
        · rw [if_pos htable]
          exact finite_handle hh _ _ _
        rw [if_neg (not_not_intro htable)]
        unfold HostType.category at htable
        cases hshape : host.shape with
        | mapping => exact hs'.ended_mapping hk fuel depth host
        | record => exact hs'.ended_record hk hh hkept _ depth host
        | sequence => exact hs'.ended_sequence hk hh hkept _ depth host
        | _ =>
            rw [hshape] at htable
            cases htable

end

-- ==================================================================== reads

/-- An existing machine has its running frame on the stack, or above it. -/
theorem stands_or_sunk (hk : k < s.machines.size) :
    Stands k (s.machine k).slots s ∨ Sunk k 1 s := by
  cases hf : (s.machine k).frames with
  | nil =>
      right
      intro b fs hf'
      rw [hf] at hf'
      cases hf'
  | cons b fs =>
      by_cases hb : b ≤ (s.machine k).slots.length
      · exact Or.inl ⟨hk, b, fs, hf, hb⟩
      · right
        intro b' fs' hf'
        rw [hf] at hf'
        cases hf'
        omega

/-- A read of a value ends where the direct reading of it does. -/
theorem ended_level {l : List Value} {r r' : EStateM.Result Stop Session α}
    (hlevel : Level k l r r') (hr : Ended r) : Ended r' := by
  cases r with
  | ok x t =>
      rw [show r' = .ok x (t.withSlots k l) from hlevel]
      trivial
  | error e t =>
      obtain ⟨f, rfl⟩ := hr
      obtain ⟨xs, -, hr'⟩ := hlevel
      rw [hr']
      exact ⟨f, rfl⟩

/-- With a handler that raises, a read ends: at every index, in every state that a
program comes to, it takes only so much fuel, as long as the direct reading of the
value, if there is one, does not give up. And that does not give up on what does not
lead to the registry. -/
theorem readValue_ends (hs : Reachable ctx s) (hk : k < s.machines.size) (hh : Raises h)
    (index : Int) (type : TypeExpr) :
    ((∀ w, Vm.valueAt? index (s.vm k) = .ok (some w) (s.vm k) →
        ∀ u, Direct.value ctx k (handle ctx run k h) readLimit w type s ≠ .error .exhausted u) →
      ∃ enough, ∀ fuel ≥ enough, ∀ u,
        readValue ctx run fuel k h index type s ≠ .error .exhausted u)
      ∧ ∀ w, ¬ s.heap.LeadsTo w (s.machine k).registry →
        ∀ u, Direct.value ctx k (handle ctx run k h) readLimit w type s ≠ .error .exhausted u := by
  have hanswers : Answers ctx run k h := answers_raising hh
  refine ⟨fun hgoes => ?_, fun w hw =>
    (ended_value (fun a e => (hanswers a e).stays) (finite_handle hh) readLimit hw).ne_exhausted⟩
  suffices hended : ∀ᶠ fuel in atTop, Ended (readValue ctx run fuel k h index type s) by
    obtain ⟨enough, henough⟩ := eventually_atTop.mp hended
    exact ⟨enough, fun fuel hfuel => (henough fuel hfuel).ne_exhausted⟩
  by_cases hshown : ∃ w, Vm.valueAt? index (s.vm k) = .ok (some w) (s.vm k)
  swap
  · filter_upwards with fuel
    exact ended_absent hh fuel readLimit fun w hw => hshown ⟨w, hw⟩
  obtain ⟨w, hw⟩ := hshown
  rcases stands_or_sunk hk with hstands | hsunk
  · filter_upwards [(readsDirectly hanswers readLimit).level type hstands hs.wellKept hw]
      with fuel hlevel
    rw [withSlots_self] at hlevel
    exact ended_level hlevel (ended_of_ne (hgoes w hw))
  · by_cases hindex : index = registryIndex
    · subst hindex
      filter_upwards [eventually_gt_atTop 0] with fuel hfuel
      obtain ⟨n, rfl⟩ := Nat.exists_eq_succ_of_ne_zero (Nat.ne_of_gt hfuel)
      exact hsunk.ended_registry hk hh hs.wellKept n readLimit
    · -- a slot that is to be seen is in a frame that begins on the stack
      obtain ⟨-, b, fs, hf, hb⟩ := stands_of_slot hk hindex hw
      have hlong := hsunk b fs hf
      omega

/-- The state after a table that holds itself has been pushed. -/
def cyclic : Session := afterOps plain [.newTable, .pushValue (-1), .rawSetI (-2) 1]

/-- A table that holds itself, read as a dictionary. -/
theorem readValue_ends_cyclic :
    Reachable plain cyclic ∧ 0 < cyclic.machines.size
      ∧ (cyclic.heap.table 1).get (.int 1) = .table 1
      ∧ ∃ enough, ∀ fuel ≥ enough, ∀ u, readValue plain (runBlock plain 9) fuel 0
        .standard (-1) (.cls (.mapping .plain)) cyclic ≠ .error .exhausted u := by
  have hs : Reachable plain cyclic := afterOps_reachable rfl _
  have hsize : 0 < cyclic.machines.size := by decide +kernel
  refine ⟨hs, hsize, by decide +kernel, (readValue_ends (h := .standard) hs hsize trivial _ _).1 fun w hw => ?_⟩
  obtain ⟨x, vm, hx, rfl⟩ : ∃ x vm, Vm.valueAt? (-1) (cyclic.vm 0) = .ok x vm
      ∧ x = some (.table 1) := Ends.eq_ok (by decide +kernel)
  cases hx.symm.trans hw
  have hdirect : Ends (Direct.value plain 0
      (handle plain (runBlock plain 9) 0 .standard) readLimit (.table 1)
      (.cls (.mapping .plain)) cyclic) (fun _ _ => True) fun _ _ => False := by decide +kernel
  intro u hu
  rw [hu] at hdirect
  exact hdirect

end Bridge

end StackBridge
