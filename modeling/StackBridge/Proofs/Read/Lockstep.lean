import StackBridge.Proofs.Read.Level
import StackBridge.Proofs.RoundTrip.Slot

/-!
Reads do what the direct reading does. A read of an index at which there is a value
is level with reading that value directly (`level_readAs`): by induction on the
depth, and inside a table by induction on what is read there, an element or a field
or an entry at a time. Each part is pushed, read and popped, which for the direct
reading is looking it up.

Fuel is only a matter of mappings. One that is not written to has the entries ahead
that its traversal has, so one unit more than there are is enough for it, and as
many for the whole read as the largest of its mappings and their parts need.
-/

namespace StackBridge

namespace Bridge

open Session Direct Filter

variable {ctx : Context} {run : BlockId → Action Unit} {h : Handler} {k : MachineId}
  {s : Session} {l : List Value} {index : Int} {w : Value} {host : HostType}

-- ============================================================ plain values

/-- What a look at a machine with certain slots answers comes first. -/
theorem look_bind {α β : Type} {a : Vm.Action α} {x : α} {f : α → Action β}
    (hk : k < s.machines.size)
    (h : a ((s.vm k).withSlots l) = .ok x ((s.vm k).withSlots l)) :
    (onMachine k a >>= f) (s.withSlots k l) = f x (s.withSlots k l) :=
  bind_ok (onMachine_withSlots hk h)

/-- What comes first on both sides. -/
theorem resting_bind {α β : Type} {a a' : Action α} {f f' : α → Action β} {s' : Session}
    (ha : a' s' = resting k l (a s))
    (hf : ∀ x t, a s = .ok x t → f' x (t.withSlots k l) = resting k l (f x t)) :
    (a' >>= f') s' = resting k l ((a >>= f) s) := by
  cases hr : a s with
  | ok x t =>
      rw [hr] at ha
      rw [bind_ok ha, bind_ok hr, hf x t hr]
  | error e t =>
      rw [hr] at ha
      rw [bind_error ha, bind_error hr]
      rfl

/-- A reference takes the value from the stack. -/
theorem resting_keep (hs : Stands k l s) (w : Value) :
    onMachine k (Vm.ref registryIndex) (s.withSlots k (l ++ [w])) = resting k l (keep k w s) := by
  obtain ⟨hk, b, fs, hf, hb⟩ := hs
  unfold keep
  by_cases hnil : w = .nil
  · subst hnil
    have href := Vm.ref_nil (frames_withSlots hf (l ++ [.nil])) rfl hb
    rw [onMachine_withSlots hk href, if_pos rfl]
    rfl
  · have href := Vm.ref_apply ((s.vm k).withSlots (l ++ [w])) hf rfl hb hnil
    have hafter : ((s.vm k).withSlots (l ++ [w])).afterRef l w
        = ((s.vm k).afterRef (s.machine k).slots w).withSlots l := by
      unfold Vm.afterRef
      cases hfree : (s.vm k).machine.free (s.vm k).machine.registry with
      | nil =>
          have hfree' : ((s.vm k).withSlots (l ++ [w])).machine.free
              ((s.vm k).withSlots (l ++ [w])).machine.registry = [] := hfree
          rw [hfree']
          rfl
      | cons r rest =>
          have hfree' : ((s.vm k).withSlots (l ++ [w])).machine.free
              ((s.vm k).withSlots (l ++ [w])).machine.registry = r :: rest := hfree
          rw [hfree']
          rfl
    have hslots : s.withVm k (((s.vm k).withSlots (l ++ [w])).afterRef l w)
        = (s.withVm k ((s.vm k).afterRef (s.machine k).slots w)).withSlots k l := by
      unfold Session.withSlots
      rw [vm_withVm hk, withVm_withVm, hafter]
    rw [onMachine_withSlots hk href, if_neg hnil, hslots]
    rfl

theorem resting_wrap (hs : Stands k l s) (hw : Shows k l index w s) :
    Bridge.wrap k index (s.withSlots k l) = resting k l (Direct.wrap k w s) := by
  have hcopy : onMachine k (Vm.pushCopy index) (s.withSlots k l)
      = .ok () (s.withSlots k (l ++ [w])) := by
    refine onMachine_withSlots hs.machine ?_
    unfold Vm.pushCopy
    rw [bind_ok hw]
    rfl
  unfold Bridge.wrap
  rw [bind_ok hcopy]
  exact resting_bind (resting_keep hs w) fun _ _ _ => rfl

theorem resting_guestOr (hk : k < s.machines.size) (hw : Shows k l index w s) (v : HostValue) :
    guestOr k index v (s.withSlots k l) = resting k l (itself w v s) := by
  have hguest : Vm.guestAt? index ((s.vm k).withSlots l)
      = .ok (s.heap.hostValue? w) ((s.vm k).withSlots l) := by
    unfold Vm.guestAt?
    rw [bind_ok hw]
    rfl
  unfold guestOr
  rw [look_bind hk hguest]
  rfl

/-- The category of a slot is the category of its value. -/
theorem resting_category (hk : k < s.machines.size) (hw : Shows k l index w s) :
    onMachine k (Vm.categoryAt index) (s.withSlots k l) = resting k l (category k w s) := by
  have hat : Vm.categoryAt index ((s.vm k).withSlots l)
      = Vm.categoryOf w ((s.vm k).withSlots l) := by
    unfold Vm.categoryAt
    rw [bind_ok hw]
  have hvm : (s.withSlots k l).vm k = (s.vm k).withSlots l := vm_withVm hk _
  have hsame : onMachine k (Vm.categoryAt index) (s.withSlots k l)
      = onMachine k (Vm.categoryOf w) (s.withSlots k l) := by
    unfold onMachine
    rw [hvm, hat]
  rw [hsame]
  exact (aside_category w).blind s l hk

theorem resting_wrapper (hs : Stands k l s) (hw : Shows k l index w s) (custom : Bool) :
    (Bridge.wrap k index >>= fun id => pure (HostValue.wrapper id custom)) (s.withSlots k l)
      = resting k l ((Direct.wrap k w >>= fun id => pure (HostValue.wrapper id custom)) s) :=
  resting_bind (resting_wrap hs hw) fun _ _ _ => rfl

theorem resting_natural (hs : Stands k l s) (hw : Shows k l index w s) :
    readNatural k index (s.withSlots k l) = resting k l (natural k w s) := by
  refine resting_bind (resting_category hs.machine hw) fun c t hc => ?_
  obtain rfl : t = s := (looked_onMachine (Vm.looks_categoryOf w) hc).1
  rw [look_bind hs.machine hw, Option.map_some]
  cases w.plain with
  | nil => rfl
  | bool b => rfl
  | int n => exact resting_guestOr hs.machine hw _
  | float x => exact (aside_individual _).blind _ _ hs.machine
  | str b => exact ((aside_decodeText b).bind fun _ => aside_pure _).blind _ _ hs.machine
  | table id => exact resting_wrapper hs hw false
  | function id => exact resting_wrapper hs hw false
  | userdata id => exact resting_wrapper hs hw false
  | guest id role => exact resting_wrapper hs hw false

theorem resting_dynamic (hs : Stands k l s) (hw : Shows k l index w s) (host : HostType) :
    readDynamic k index host (s.withSlots k l) = resting k l (dynamic k w host s) := by
  unfold readDynamic dynamic
  cases host.origin? with
  | none => exact resting_natural hs hw
  | some c =>
      cases c with
      | wrapper custom => exact resting_wrapper hs hw custom
      | _ => exact resting_natural hs hw

theorem resting_boolean (hs : Stands k l s) {b : Bool} (hw : Shows k l index (.bool b) s)
    (host : HostType) :
    readBoolean k index host (s.withSlots k l)
      = resting k l (.ok (Direct.boolean (.bool b) host) s) := by
  unfold readBoolean Direct.boolean
  rw [look_bind hs.machine (Vm.toBoolean_eq hw)]
  cases b <;> rfl

/-- A number is an integer or a float, perhaps as a guest. -/
theorem number_cases (hw : w.category? = some .number) :
    (∃ n, w.plain = .int n) ∨ ∃ x, w.plain = .float x := by
  cases w with
  | int n => exact Or.inl ⟨n, rfl⟩
  | float x => exact Or.inr ⟨x, rfl⟩
  | guest id role =>
      cases role with
      | int n => exact Or.inl ⟨n, rfl⟩
      | float x => exact Or.inr ⟨x, rfl⟩
      | _ => cases hw
  | _ => cases hw

theorem resting_integer (hs : Stands k l s) (hw : Shows k l index w s)
    (hnumber : w.category? = some .number) (host : HostType) :
    readInteger ctx k index host (s.withSlots k l)
      = resting k l (Direct.integer ctx w host s) := by
  have hk := hs.machine
  unfold readInteger Direct.integer
  rcases number_cases hnumber with ⟨n, hn⟩ | ⟨x, hx⟩
  · have hinteger : Vm.isInteger index ((s.vm k).withSlots l)
        = .ok true ((s.vm k).withSlots l) := by
      unfold Vm.isInteger
      rw [bind_ok hw, Option.map_some, hn]
      rfl
    have hvalue : Vm.toInteger index ((s.vm k).withSlots l) = .ok n ((s.vm k).withSlots l) := by
      unfold Vm.toInteger
      rw [bind_ok hw]
      unfold Vm.numeralOf?
      rw [Option.map_some, hn]
      rfl
    rw [look_bind hk hinteger, if_pos rfl, look_bind hk hvalue, hn]
    exact resting_bind (resting_guestOr hk hw _) fun v t hv =>
      (aside_asInteger ctx host v).blind t l (by cases hv; exact hk)
  · have hfloat : Vm.isInteger index ((s.vm k).withSlots l)
        = .ok false ((s.vm k).withSlots l) := by
      unfold Vm.isInteger
      rw [bind_ok hw, Option.map_some, hx]
      rfl
    have hvalue : Vm.toNumber index ((s.vm k).withSlots l) = .ok x ((s.vm k).withSlots l) := by
      unfold Vm.toNumber
      rw [bind_ok hw]
      unfold Vm.numeralOf?
      rw [Option.map_some, hx]
      rfl
    rw [look_bind hk hfloat, if_neg Bool.false_ne_true, look_bind hk hvalue, hx]
    exact (aside_asInteger ctx host _).blind s l hk

/-- A number slot as a double. -/
theorem resting_double (hk : k < s.machines.size) (hw : Shows k l index w s)
    (hnumber : w.category? = some .number) :
    onMachine k (Vm.toNumber index) (s.withSlots k l) = resting k l (double w s) := by
  unfold double
  rcases number_cases hnumber with ⟨n, hn⟩ | ⟨x, hx⟩
  · rw [hn]
    have hnumeral : Vm.numeralOf? (some w) = some (.int n) := by
      unfold Vm.numeralOf?
      rw [Option.map_some, hn]
    cases hx : Double.ofInt? n with
    | some x =>
        have hvalue : Vm.toNumber index ((s.vm k).withSlots l)
            = .ok x ((s.vm k).withSlots l) := by
          unfold Vm.toNumber
          rw [bind_ok hw]
          simp only [hnumeral, hx]
          rfl
        simp only [hx]
        exact onMachine_withSlots hk hvalue
    | none =>
        have hvalue : Vm.toNumber index ((s.vm k).withSlots l)
            = .error (.host .integerTooLarge) ((s.vm k).withSlots l) := by
          unfold Vm.toNumber
          rw [bind_ok hw]
          simp only [hnumeral, hx]
          rfl
        simp only [hx]
        exact onMachine_withSlots_error hk hvalue
  · rw [hx]
    refine onMachine_withSlots hk ?_
    unfold Vm.toNumber
    rw [bind_ok hw]
    unfold Vm.numeralOf?
    rw [Option.map_some, hx]
    rfl

theorem resting_float (hs : Stands k l s) (hw : Shows k l index w s)
    (hnumber : w.category? = some .number) (host : HostType) :
    readFloat k index host (s.withSlots k l) = resting k l (Direct.float w host s) := by
  refine resting_bind (resting_double hs.machine hw hnumber) fun x t hx => ?_
  have hkt := (hs.stays ((stays_double w).of_ok hx)).machine
  cases host.origin? with
  | none => exact (aside_individual _).blind t l hkt
  | some c =>
      exact ((aside_ofHost (c.ofFloat x)).bind fun v => aside_individual v).blind t l hkt

/-- A string is bytes, perhaps as a guest. -/
theorem string_cases (hw : w.category? = some .string) : w.plain = .str (bytes w) := by
  cases w with
  | str b => rfl
  | guest id role =>
      cases role with
      | str b => rfl
      | _ => cases hw
  | _ => cases hw

theorem resting_bytes (hk : k < s.machines.size) (hw : Shows k l index w s)
    (hstring : w.category? = some .string) :
    readBytes k index (s.withSlots k l) = .ok (bytes w) (s.withSlots k l) := by
  have hbytes : Vm.toBytes? index ((s.vm k).withSlots l)
      = .ok (some (bytes w)) ((s.vm k).withSlots l) := by
    unfold Vm.toBytes?
    simp only [bind_ok hw, Option.map_some, string_cases hstring]
    rfl
  unfold readBytes
  rw [look_bind hk hbytes]
  rfl

theorem resting_buffer (hs : Stands k l s) (hw : Shows k l index w s)
    (hstring : w.category? = some .string) (host : HostType) :
    readBuffer k index host (s.withSlots k l) = resting k l (Direct.buffer w host s) := by
  have hk := hs.machine
  unfold readBuffer Direct.buffer
  rw [bind_ok (resting_bytes hk hw hstring)]
  cases host.origin? with
  | none => exact resting_guestOr hk hw _
  | some c =>
      cases c with
      | text kind => exact ((aside_decodeText _).bind fun _ => aside_pure _).blind s l hk
      | bytes kind =>
          cases kind with
          | plain => exact resting_guestOr hk hw _
          | _ => rfl
      | _ => rfl

theorem resting_textPointer (hs : Stands k l s) (hw : Shows k l index w s)
    (hstring : w.category? = some .string) :
    readTextPointer k index (s.withSlots k l)
      = .ok (.bytes .terminated (bytes w).beforeZero) (s.withSlots k l) := by
  unfold readTextPointer
  rw [bind_ok (resting_bytes hs.machine hw hstring)]
  rfl

theorem resting_callable (hs : Stands k l s) (hw : Shows k l index w s) (host : HostType) :
    readCallable k index host (s.withSlots k l) = resting k l (Direct.callable k w host s) := by
  refine resting_bind (resting_wrap hs hw) fun id t _ => ?_
  rcases host.args with _ | ⟨a, _ | ⟨b, _ | ⟨c, cs⟩⟩⟩
  · rfl
  · cases a <;> rfl
  · cases a <;> rfl
  · cases a <;> rfl

/-- A value that is no table, of the category of its type. -/
theorem resting_scalar {readAt : Int → TypeExpr → Action HostValue} (fuel : Nat)
    (hs : Stands k l s) (hw : Shows k l index w s) (hcategory : w.category? = some host.category)
    (htable : host.category ≠ .table) (hdynamic : host.shape ≠ .dynamic) :
    readShape ctx readAt fuel k index host (s.withSlots k l)
      = resting k l (Direct.scalar ctx k w host s) := by
  unfold HostType.category at hcategory htable
  unfold readShape Direct.scalar
  cases hshape : host.shape with
  | dynamic => exact absurd hshape hdynamic
  | absent => rfl
  | boolean =>
      rw [hshape] at hcategory
      cases w with
      | bool b => exact resting_boolean hs hw host
      | guest id role => cases role <;> cases hcategory
      | _ => cases hcategory
  | integer =>
      rw [hshape] at hcategory
      exact resting_integer hs hw hcategory host
  | float =>
      rw [hshape] at hcategory
      exact resting_float hs hw hcategory host
  | textPointer =>
      rw [hshape] at hcategory
      exact resting_textPointer hs hw hcategory
  | buffer =>
      rw [hshape] at hcategory
      exact resting_buffer hs hw hcategory host
  | callable => exact resting_callable hs hw host
  | mapping | record | sequence =>
      rw [hshape] at htable
      exact absurd rfl htable

-- =================================================================== parts

/-- Reads of any index are level with the direct reading of the value there, as long
as there is fuel enough. -/
structure ReadsDirectly (k : MachineId) (read : Nat → Int → TypeExpr → Action HostValue)
    (direct : Value → TypeExpr → Action HostValue) : Prop where
  stays : ∀ w t, Keeps (Stays k) (direct w t)
  level : ∀ {s l index w} t, Stands k l s → s.heap.WellKept → Shows k l index w s →
    ∀ᶠ fuel in atTop, Level k l (direct w t s) (read fuel index t (s.withSlots k l))

/-- What a table has under a key is pushed, and has a category or not. -/
theorem element_cases (hk : k < s.machines.size) {id : TableId} {key : Value} {c₀ : Category}
    (hi : Shows k l index (.table id) s) (hkey : key.category? = some c₀) :
    (∃ c, ((s.heap.table id).get key).category? = some c
        ∧ element k id key s = .ok ((s.heap.table id).get key) s
        ∧ onMachine k (Vm.getKey index key) (s.withSlots k l)
          = .ok c (s.withSlots k (l ++ [(s.heap.table id).get key])))
      ∨ ∃ f, element k id key s = .error (.failed f) s
        ∧ onMachine k (Vm.getKey index key) (s.withSlots k l)
          = .error (.failed f) (s.withSlots k (l ++ [(s.heap.table id).get key])) := by
  have hget : Vm.getKey index key ((s.vm k).withSlots l)
      = Vm.fetch id key ((s.vm k).withSlots l) := Vm.getKey_apply hi
  unfold element
  rw [bind_ok (get_apply s)]
  cases hw : ((s.heap.table id).get key).category? with
  | some c =>
      have hcategory : category k ((s.heap.table id).get key) s = .ok c s :=
        onMachine_look (Vm.categoryOf_eq hw _)
      have hfetch : Vm.fetch id key ((s.vm k).withSlots l) = _ := Vm.fetch_eq hkey hw
      exact Or.inl ⟨c, rfl, bind_ok hcategory, onMachine_withSlots hk (hget.trans hfetch)⟩
  | none =>
      have hcategory : category k ((s.heap.table id).get key) s
          = .error (.failed (.misuse (.cannotLive ((s.heap.table id).get key).strayName))) s := by
        unfold category
        rw [onMachine_error (Vm.categoryOf_stray hw _), withVm_vm]
      have hfetch : Vm.fetch id key ((s.vm k).withSlots l) = _ := Vm.fetch_stray hkey hw
      exact Or.inr ⟨_, bind_error hcategory, onMachine_withSlots_error hk (hget.trans hfetch)⟩

/-- Reading what is on top and popping it. -/
theorem above_popping {a a' : Action HostValue} (hs : Stands k l s)
    (hstays : Stays k s (final (a s)))
    (ha : Level k (l ++ [w]) (a s) (a' (s.withSlots k (l ++ [w])))) :
    Above k l l (a s) (popping k a' (s.withSlots k (l ++ [w]))) := by
  unfold popping
  cases hr : a s with
  | ok v t =>
      rw [hr] at ha hstays
      have ha' : a' (s.withSlots k (l ++ [w])) = .ok v (t.withSlots k (l ++ [w])) := ha
      have hpop : onMachine k (Vm.pop 1) (t.withSlots k (l ++ [w])) = .ok () (t.withSlots k l) :=
        pop_withSlots (hs.stays hstays) w
      rw [bind_ok ha', bind_ok hpop]
      exact rfl
  | error e t =>
      rw [hr] at ha
      cases e with
      | exhausted => trivial
      | failed f =>
          obtain ⟨xs, _, ha'⟩ := ha
          rw [bind_error ha', List.append_assoc]
          exact ⟨[w] ++ xs, rfl⟩

section

variable {read : Nat → Int → TypeExpr → Action HostValue}
  {direct : Value → TypeExpr → Action HostValue} {id : TableId}

theorem ReadsDirectly.popping (hread : ReadsDirectly k read direct) (t : TypeExpr)
    (hs : Stands k l s) (hkept : s.heap.WellKept) (w : Value) :
    ∀ᶠ fuel in atTop, Above k l l (direct w t s)
      (popping k (read fuel (-1) t) (s.withSlots k (l ++ [w]))) := by
  filter_upwards [hread.level t (hs.append [w]) hkept (shows_top hs w)] with fuel hfuel
  exact above_popping hs (hread.stays w t s) hfuel

theorem above_items (hread : ReadsDirectly k read direct) (host : HostType) (i count : Nat)
    (hs : Stands k l s) (hkept : s.heap.WellKept)
    (hi : ∀ t, Stays k s t → Shows k l index (.table id) t) :
    ∀ᶠ fuel in atTop, Above k l l (items direct k id host i count s)
      (readItems (read fuel) k index host i count (s.withSlots k l)) := by
  induction count generalizing i s with
  | zero =>
      filter_upwards with fuel
      exact rfl
  | succ count ih =>
      have hkey : (Value.int ((i : Int) + 1)).category? = some .number := rfl
      rcases element_cases hs.machine (hi s (Std.Refl.refl s)) hkey with
        ⟨c, -, helement, hget⟩ | ⟨f, helement, hget⟩
      · unfold items readItems
        simp only [bind_ok helement, bind_ok hget]
        refine above_bind l (hread.popping _ hs hkept _) fun v t hv => ?_
        have ht := (hread.stays _ _).of_ok hv
        refine above_bind l (ih (i + 1) (hs.stays ht) (ht.wellKept hkept) fun u hu =>
          hi u (IsTrans.trans _ _ _ ht hu)) fun vs u _ => ?_
        filter_upwards with fuel
        exact rfl
      · unfold items readItems
        simp only [bind_error helement, bind_error hget]
        filter_upwards with fuel
        exact ⟨_, rfl⟩

theorem nil_iff {c : Category} (hw : w.category? = some c) : c = .nil ↔ w = .nil := by
  refine ⟨fun hc => eq_nil_of_category (hc ▸ hw), fun hnil => ?_⟩
  rw [hnil] at hw
  exact (Option.some.inj hw).symm

theorem above_fields (hread : ReadsDirectly k read direct) (fs : List (FieldSpec × TypeExpr))
    (hs : Stands k l s) (hkept : s.heap.WellKept)
    (hi : ∀ t, Stays k s t → Shows k l index (.table id) t) :
    ∀ᶠ fuel in atTop, Above k l l (fields direct k id fs s)
      (readFields (read fuel) k index fs (s.withSlots k l)) := by
  induction fs generalizing s with
  | nil =>
      filter_upwards with fuel
      exact rfl
  | cons field fs ih =>
      obtain ⟨f, type⟩ := field
      unfold fields readFields
      by_cases hinit : f.init = true
      swap
      · simp only [hinit]
        exact ih hs hkept hi
      simp only [hinit, Bool.not_true, Bool.false_eq_true, if_false]
      have hkey : (Value.str (utf8 f.name)).category? = some .string := rfl
      rcases element_cases hs.machine (hi s (Std.Refl.refl s)) hkey with
        ⟨c, hc, helement, hget⟩ | ⟨f, helement, hget⟩
      · simp only [bind_ok helement, bind_ok hget, nil_iff hc]
        by_cases hleft : (decide ((s.heap.table id).get (.str (utf8 f.name)) = .nil)
            && f.hasDefault) = true
        · simp only [hleft, if_true, bind_ok (pop_withSlots hs _)]
          exact ih hs hkept hi
        · simp only [hleft]
          refine above_bind l (hread.popping _ hs hkept _) fun v t hv => ?_
          have ht := (hread.stays _ _).of_ok hv
          refine above_bind l (ih (hs.stays ht) (ht.wellKept hkept) fun u hu =>
            hi u (IsTrans.trans _ _ _ ht hu)) fun vs u _ => ?_
          filter_upwards with fuel
          exact rfl
      · simp only [bind_error helement, bind_error hget]
        filter_upwards with fuel
        exact ⟨_, rfl⟩

theorem above_given (hread : ReadsDirectly k read direct) (hs : Stands k l s)
    (hkept : s.heap.WellKept) (hi : ∀ t, Stays k s t → Shows k l index (.table id) t) :
    ∀ᶠ fuel in atTop, Above k l l (given direct ctx k id host s)
      ((ofHost (hintedFields ctx.classes host.recordName) >>= readFields (read fuel) k index)
        (s.withSlots k l)) := by
  unfold given
  cases hintedFields ctx.classes host.recordName with
  | ok hinted => exact above_fields hread hinted hs hkept hi
  | error f =>
      filter_upwards with fuel
      refine ⟨[], ?_⟩
      rw [List.append_nil]
      rfl

/-- An entry: its value is read on top and its key below it, and the key stays. -/
theorem above_entry {α : Type} (hread : ReadsDirectly k read direct) (keyType valueType : TypeExpr)
    (e : Key × Value) (got : List (HostValue × HostValue))
    (f : List (HostValue × HostValue) → Action α)
    (f' : Nat → List (HostValue × HostValue) → Action α) (hs : Stands k l s)
    (hkept : s.heap.WellKept)
    (hf : ∀ got' u, Stays k s u → ∀ᶠ fuel in atTop,
      Above k l l (f got' u) (f' fuel got' (u.withSlots k (l ++ [e.1.value])))) :
    ∀ᶠ fuel in atTop, Above k l l
      ((do
        let value ← direct e.2 valueType
        let key ← direct e.1.value keyType
        f (← ofHost (Dict.insert got key value))) s)
      ((do
        let value ← read fuel (-1) valueType
        let key ← read fuel (-2) keyType
        onMachine k (Vm.pop 1)
        f' fuel (← ofHost (Dict.insert got key value)))
        (s.withSlots k (l ++ [e.1.value, e.2]))) := by
  refine above_bind (l ++ [e.1.value, e.2]) ?_ fun value t ht => ?_
  · have htop : Shows k (l ++ [e.1.value, e.2]) (-1) e.2 s := by
      have htop := shows_top (hs.append [e.1.value]) e.2
      rwa [List.append_assoc] at htop
    filter_upwards [hread.level valueType (hs.append _) hkept htop] with fuel hfuel
    exact hfuel.above
  have hst := (hread.stays e.2 valueType).of_ok ht
  have hts := hs.stays hst
  refine above_bind (l ++ [e.1.value, e.2]) ?_ fun key u hu => ?_
  · filter_upwards [hread.level keyType (hts.append _) (hst.wellKept hkept)
      (shows_second hts e.1.value e.2)] with fuel hfuel
    exact hfuel.above
  have hsu : Stays k s u := IsTrans.trans _ _ _ hst ((hread.stays e.1.value keyType).of_ok hu)
  have hpop : onMachine k (Vm.pop 1) (u.withSlots k (l ++ [e.1.value, e.2]))
      = .ok () (u.withSlots k (l ++ [e.1.value])) := by
    have hpop := pop_withSlots ((hs.stays hsu).append [e.1.value]) e.2
    rwa [List.append_assoc] at hpop
  simp only [bind_ok hpop]
  cases Dict.insert got key value with
  | error f =>
      filter_upwards with fuel
      exact ⟨[e.1.value], rfl⟩
  | ok got' => exact hf got' u hsu

/-- A traversal goes on from the last key that it has come to, with the entries of the
whole table along the positions behind that key ahead. -/
theorem above_entries (hread : ReadsDirectly k read direct) {whole : Table}
    (keyType valueType : TypeExpr) {last : Option Key} {p q : List Key}
    {es : List (Key × Value)} (got : List (HostValue × HostValue)) {n : Nat → Nat}
    (hn : ∀ᶠ fuel in atTop, es.length < n fuel)
    (hsplit : whole.order = p ++ (last.toList ++ q)) (hp : last = none → p = [])
    (hes : whole.along q = es) (hs : Stands k l s) (hkept : s.heap.WellKept)
    (hwhole : s.heap.table id = whole)
    (hi : ∀ t ys, Stays k s t → Shows k (l ++ ys) index (.table id) t) :
    ∀ᶠ fuel in atTop, Above k l l (entries direct id whole keyType valueType es got s)
      (readEntries (read fuel) k index keyType valueType (n fuel) got
        (s.withSlots k (l ++ [Table.cursor last]))) := by
  induction es generalizing s last p q got n with
  | nil =>
      obtain ⟨b, fs, hf, hb⟩ := hs.framed
      have hnext : (s.heap.table id).next (Table.cursor last) = .ok none := by
        rw [Table.next_split (hkept id) (by rw [hwhole]; exact hsplit) hp, hwhole,
          Table.firstEntry_eq, hes]
        rfl
      have hdone : onMachine k (Vm.next index) (s.withSlots k (l ++ [Table.cursor last]))
          = .ok false (s.withSlots k l) :=
        onMachine_withSlots hs.machine (Vm.next_done (frames_withSlots hf (l ++ [_])) rfl
          hb (Vm.tableAt_eq (hi s [_] (Std.Refl.refl s))) hnext)
      filter_upwards [hn] with fuel hfuel
      obtain ⟨m, hm⟩ := Nat.exists_eq_succ_of_ne_zero (Nat.ne_of_gt hfuel)
      rw [hm]
      unfold readEntries
      rw [bind_ok hdone]
      exact rfl
  | cons e es ih =>
      obtain ⟨b, fs, hf, hb⟩ := hs.framed
      obtain ⟨p', q', rfl, hrest⟩ := Table.along_cons hes
      have hnext : (s.heap.table id).next (Table.cursor last) = .ok (some e) := by
        rw [Table.next_split (hkept id) (by rw [hwhole]; exact hsplit) hp, hwhole,
          Table.firstEntry_eq, hes]
        rfl
      have hmore : onMachine k (Vm.next index) (s.withSlots k (l ++ [Table.cursor last]))
          = .ok true (s.withSlots k (l ++ [e.1.value, e.2])) :=
        onMachine_withSlots hs.machine (Vm.next_more (frames_withSlots hf (l ++ [_])) rfl
          hb (Vm.tableAt_eq (hi s [_] (Std.Refl.refl s))) hnext)
      have hsplit' : whole.order = (p ++ (last.toList ++ p')) ++ ((some e.1).toList ++ q') := by
        rw [hsplit]
        simp
      have hn' : ∀ᶠ fuel in atTop, es.length < n fuel - 1 := by
        filter_upwards [hn] with fuel hfuel
        rw [List.length_cons] at hfuel
        omega
      have hgoes := above_entry hread keyType valueType e got
        (fun got => do
          still id whole
          entries direct id whole keyType valueType es got)
        (fun fuel => readEntries (read fuel) k index keyType valueType (n fuel - 1)) hs hkept
        fun got' u hu => by
          by_cases hsame : u.heap.table id = whole
          · simp only [bind_ok (still_same hsame)]
            have hgoes := ih got' hn' hsplit' nofun hrest (hs.stays hu) (hu.wellKept hkept) hsame
              fun v ys hv => hi v ys (IsTrans.trans _ _ _ hu hv)
            exact hgoes
          · simp only [bind_error (still_other hsame)]
            filter_upwards with fuel
            trivial
      filter_upwards [hn, hgoes] with fuel hfuel hgoes
      obtain ⟨m, hm⟩ := Nat.exists_eq_succ_of_ne_zero (Nat.ne_of_gt (Nat.zero_lt_of_lt hfuel))
      rw [hm] at hgoes ⊢
      unfold readEntries
      rw [bind_ok hmore]
      exact hgoes

-- ================================================================== tables

theorem level_sequence (hread : ReadsDirectly k read direct) (host : HostType)
    (hs : Stands k l s) (hkept : s.heap.WellKept) (hw : Shows k l index (.table id) s) :
    ∀ᶠ fuel in atTop, Level k l (array direct k id host s)
      (readSequence (read fuel) k index host (s.withSlots k l)) := by
  obtain ⟨i, habs, hi⟩ := shows_abs hs hw
  have hshows : ∀ t, Stays k s t → Shows k l i (.table id) t := by
    intro t ht
    have hi := hi t [] ht
    rwa [List.append_nil] at hi
  have hlevel : ∀ count, ∀ᶠ fuel in atTop,
      Level k l ((items direct k id host 0 count >>= fun vs => pure (asSequence host vs)) s)
        ((restoringTop k (readItems (read fuel) k i host 0 count) >>= fun vs =>
          pure (asSequence host vs)) (s.withSlots k l)) := by
    intro count
    have hstays := stays_items hread.stays id host 0 count s
    filter_upwards [above_items hread host 0 count hs hkept hshows] with fuel hfuel
    refine Level.bind (level_restoringTop hs hstays hfuel) (fun vs t ht => ?_)
      fun vs => aside_pure _
    exact (hs.stays ((stays_items hread.stays id host 0 count).of_ok ht)).machine
  unfold array readSequence
  simp only [look_bind hs.machine habs, bind_ok (get_apply s)]
  by_cases hfixed : host.isFixedTuple = true
  · simp only [hfixed, if_true]
    exact hlevel _
  · have hlength := Vm.rawLength_table (hshows s (Std.Refl.refl s))
    simp only [hfixed, Bool.false_eq_true, if_false, look_bind hs.machine hlength]
    exact hlevel _

theorem level_mapping (hread : ReadsDirectly k read direct) (host : HostType)
    (hs : Stands k l s) (hkept : s.heap.WellKept) (hw : Shows k l index (.table id) s) :
    ∀ᶠ fuel in atTop, Level k l (mapping direct id host s)
      (readMapping (read fuel) fuel k index host (s.withSlots k l)) := by
  obtain ⟨i, habs, hi⟩ := shows_abs hs hw
  let whole := s.heap.table id
  have hsplit : whole.order = [] ++ ((none : Option Key).toList ++ whole.order) := rfl
  have hentries := above_entries hread (orNatural host.entryTypes.1)
    (orNatural host.entryTypes.2) [] (eventually_gt_atTop _) hsplit (fun _ => rfl) rfl hs hkept
    rfl hi
  have hstays := stays_entries hread.stays id whole (orNatural host.entryTypes.1)
    (orNatural host.entryTypes.2) whole.traversal []
  filter_upwards [hentries] with fuel hfuel
  unfold mapping readMapping
  simp only [look_bind hs.machine habs, bind_ok (get_apply s)]
  refine Level.bind (level_restoringTop hs (hstays s) ?_) (fun es t ht => ?_) fun es => ?_
  · rw [bind_ok (push_withSlots hs.machine l .nil)]
    exact hfuel
  · exact (hs.stays (hstays.of_ok ht)).machine
  · split <;> exact aside_pure _

theorem level_record (hread : ReadsDirectly k read direct) (host : HostType)
    (hs : Stands k l s) (hkept : s.heap.WellKept) (hw : Shows k l index (.table id) s) :
    ∀ᶠ fuel in atTop, Level k l (record direct ctx k id host s)
      (readRecord ctx (read fuel) k index host (s.withSlots k l)) := by
  obtain ⟨i, habs, hi⟩ := shows_abs hs hw
  have hshows : ∀ t, Stays k s t → Shows k l i (.table id) t := by
    intro t ht
    have hi := hi t [] ht
    rwa [List.append_nil] at hi
  have hstays : Keeps (Stays k) (given direct ctx k id host) := stays_given hread.stays id host
  have hgiven : ∀ᶠ fuel in atTop, Above k l l (given direct ctx k id host s) _ :=
    above_given hread hs hkept hshows
  filter_upwards [hgiven] with fuel hfuel
  unfold record readRecord
  rw [look_bind hs.machine habs]
  refine Level.bind (level_restoringTop hs (hstays s) hfuel) (fun given t ht => ?_)
    fun given => aside_ofHost _
  exact (hs.stays (hstays.of_ok ht)).machine

/-- A table by the shape of a host type. -/
theorem level_table (hread : ReadsDirectly k read direct) (hs : Stands k l s)
    (hkept : s.heap.WellKept) (hw : Shows k l index (.table id) s)
    (hcategory : host.category = .table) :
    ∀ᶠ fuel in atTop, Level k l (table direct ctx k id host s)
      (readShape ctx (read fuel) fuel k index host (s.withSlots k l)) := by
  unfold HostType.category at hcategory
  unfold table readShape
  cases hshape : host.shape with
  | mapping => exact level_mapping hread host hs hkept hw
  | record => exact level_record hread host hs hkept hw
  | sequence => exact level_sequence hread host hs hkept hw
  | _ =>
      rw [hshape] at hcategory
      cases hcategory

/-- A value of the category of a type, by the shape of the type. -/
theorem level_shape (hread : ReadsDirectly k read direct) (hs : Stands k l s)
    (hkept : s.heap.WellKept) (hw : Shows k l index w s)
    (hcategory : w.category? = some host.category) (hdynamic : host.shape ≠ .dynamic) :
    ∀ᶠ fuel in atTop, Level k l (shaped direct ctx k w host s)
      (readShape ctx (read fuel) fuel k index host (s.withSlots k l)) := by
  by_cases htable : host.category = .table
  · rw [htable] at hcategory
    obtain ⟨id, rfl⟩ := table_of_category hcategory
    exact level_table hread hs hkept hw htable
  · filter_upwards with fuel
    have hscalar : shaped direct ctx k w host = Direct.scalar ctx k w host := by
      cases w with
      | table id => exact absurd (Option.some.inj hcategory).symm htable
      | _ => rfl
    rw [hscalar, resting_scalar fuel hs hw hcategory htable hdynamic]
    exact level_resting k l _

/-- What answers for mismatches takes no notice of the stack, and leaves the machine
and every table but the registry. -/
def Answers (ctx : Context) (run : BlockId → Action Unit) (k : MachineId) (h : Handler) : Prop :=
  ∀ actual expected, Aside k (handle ctx run k h actual expected)

theorem level_host_dynamic {readAt : Int → TypeExpr → Action HostValue}
    {answer : Category → Category → Action HostValue} (hs : Stands k l s)
    (hw : Shows k l index w s) (hdynamic : host.shape = .dynamic) (fuel : Nat) :
    Level k l (Direct.host direct answer ctx k w host s)
      (readHost ctx run readAt fuel k index host h (s.withSlots k l)) := by
  have hshape : readShape ctx readAt fuel k index host = readDynamic k index host := by
    unfold readShape
    rw [hdynamic]
  unfold Direct.host readHost
  rw [if_pos hdynamic, if_pos hdynamic, hshape, resting_dynamic hs hw host]
  exact level_resting k l _

theorem level_host (hread : ReadsDirectly k read direct) (hanswers : Answers ctx run k h)
    (hs : Stands k l s) (hkept : s.heap.WellKept) (hw : Shows k l index w s) :
    ∀ᶠ fuel in atTop, Level k l (Direct.host direct (handle ctx run k h) ctx k w host s)
      (readHost ctx run (read fuel) fuel k index host h (s.withSlots k l)) := by
  by_cases hdynamic : host.shape = .dynamic
  · filter_upwards with fuel
    exact level_host_dynamic hs hw hdynamic fuel
  · unfold Direct.host readHost
    simp only [hdynamic, if_false]
    cases hc : w.category? with
    | none =>
        have hstray : category k w s
            = .error (.failed (.misuse (.cannotLive w.strayName))) s := by
          unfold category
          rw [onMachine_error (Vm.categoryOf_stray hc _), withVm_vm]
        have hslot := resting_category hs.machine hw
        rw [hstray] at hslot
        filter_upwards with fuel
        rw [bind_error hstray, bind_error hslot]
        exact level_resting k l (.error _ s)
    | some c =>
        have hcategory : category k w s = .ok c s := onMachine_look (Vm.categoryOf_eq hc _)
        have hslot := resting_category hs.machine hw
        rw [hcategory] at hslot
        simp only [bind_ok hcategory, bind_ok hslot]
        by_cases hsame : c = host.category
        · simp only [hsame, ne_eq, not_true_eq_false, if_false]
          exact level_shape hread hs hkept hw (hsame ▸ hc) hdynamic
        · simp only [hsame, ne_eq, not_false_eq_true, if_true]
          filter_upwards with fuel
          rw [(hanswers c host.category).blind s l hs.machine]
          exact level_resting k l _

end

/-- Reads are level with direct readings. -/
theorem readsDirectly (hanswers : Answers ctx run k h) (depth : Nat) :
    ReadsDirectly k (fun fuel => readAs ctx run fuel k h depth)
      (value ctx k (handle ctx run k h) depth) := by
  have hanswer := fun actual expected => (hanswers actual expected).stays
  induction depth with
  | zero =>
      refine ⟨fun w t => stays_fail _, fun t hs hkept hw => ?_⟩
      filter_upwards with fuel
      exact level_resting _ _ (.error _ _)
  | succ depth ih =>
      refine ⟨stays_value hanswer _, fun t hs hkept hw => ?_⟩
      refine level_bind (aside_describe ctx t) hs.machine fun host u hu => ?_
      have hsu : Stays k _ u := (stays_describe t).of_ok hu
      obtain ⟨-, noted, rfl⟩ := describe_answered hu
      filter_upwards [level_host ih hanswers (hs.stays hsu) (hsu.wellKept hkept) hw]
        with fuel hfuel
      exact level_guarded _ (hs.stays hsu) (stays_host ih.stays hanswer _ host _) hfuel

/-- A dynamic type takes no fuel. -/
theorem level_dynamic {type : TypeExpr} {answer : Category → Category → Action HostValue}
    (hs : Stands k l s) (hw : Shows k l index w s)
    (hdynamic : ∀ host, type.hostType? = some host → host.shape = .dynamic) (fuel depth : Nat) :
    Level k l (Direct.value ctx k answer (depth + 1) w type s)
      (readAs ctx run fuel k h (depth + 1) index type (s.withSlots k l)) := by
  refine eventually_const.mp (show ∀ᶠ (_ : Nat) in atTop, Level k l
    ((describe ctx type "read" >>= Direct.host (Direct.value ctx k answer depth) answer ctx k w) s)
    (readAs ctx run fuel k h (depth + 1) index type (s.withSlots k l)) from ?_)
  refine level_bind (aside_describe ctx type) hs.machine fun host u hu => ?_
  have hsu : Stays k s u := (stays_describe type).of_ok hu
  obtain ⟨hhost, noted, rfl⟩ := describe_answered hu
  filter_upwards with _
  have hshape := hdynamic host hhost
  have hstays : Stays k _ (final (dynamic k w host { s with described := noted })) :=
    stays_dynamic w host _
  refine level_guarded _ (hs.stays hsu) ?_ (level_host_dynamic (hs.stays hsu) hw hshape fuel)
  unfold Direct.host
  rw [if_pos hshape]
  exact hstays

end Bridge

end StackBridge
