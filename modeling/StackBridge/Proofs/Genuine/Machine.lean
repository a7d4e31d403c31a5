import StackBridge.Proofs.Machine.Answered
import StackBridge.Proofs.Session.WellKept

/-!
Values that a machine can come by of its own. All integers that are computed or
pushed are of 64 bits; but a float with an integral value addresses the integer's
key whatever its size, and traversing a table hands that key out as an integer. So
what slots and tables hold are `Genuine` values: integers that can be a key
(`Storable`), and no guests.

Whatever a primitive does to a machine of genuine values leaves one (`Yields`): what
moves values because it brings none of its own, what stores them because of
`Value.Genuine.key`, and a new reference because there are not as many entries as
positive integers.
-/

namespace StackBridge

/-- An integer that a value of a program can address: one of 64 bits, or one that
some float equals. -/
def Storable (n : Int) : Prop := inRange n = true ∨ ∃ x : Double, x.sameInt n = true

/-- A value that a program can come by on a machine, without a host value raised as
an error. -/
def Value.Genuine : Value → Prop
  | .int n => Storable n
  | .guest .. => False
  | _ => True

/-- An entry with a genuine key and a genuine value. -/
structure Table.GenuineEntry (e : Key × Value) : Prop where
  key : e.1.value.Genuine
  value : e.2.Genuine

/-- A table of such entries. -/
def Table.Genuine (t : Table) : Prop := ∀ e ∈ t.entries, GenuineEntry e

theorem Value.Native.genuine {v : Value} (hv : v.Native) : v.Genuine := by
  cases v with
  | int n => exact .inl hv
  | guest id role => exact hv
  | _ => trivial

/-- A genuine value addresses a genuine key. -/
theorem Value.Genuine.key {v : Value} {k : Key} (hv : v.Genuine) (hk : v.key = .ok k) :
    k.value.Genuine := by
  cases v with
  | nil => cases hk
  | float x =>
      cases k with
      | int n => exact .inr ⟨x, Key.ofFloat_int.mp hk⟩
      | _ => trivial
  | guest id role => exact hv.elim
  | _ =>
      cases hk
      exact hv

/-- No value addresses a NaN or a float with an integral value. -/
theorem Value.key_settled {v : Value} {x : Double} (hk : v.key = .ok (.float x)) :
    x.isNaN = false ∧ x.isIntegral = false := by
  have hfloat : ∀ y : Double, Key.ofFloat y = .ok (.float x) →
      x.isNaN = false ∧ x.isIntegral = false := by
    intro y hy
    obtain ⟨hnan, ⟨_, hkey⟩ | ⟨hwhole, hkey⟩⟩ := Key.ofFloat_cases hy
    · cases hkey
    · cases hkey
      exact ⟨hnan, hwhole⟩
  cases v with
  | float y => exact hfloat y hk
  | guest id role =>
      cases role with
      | float y => exact hfloat y hk
      | _ => cases hk
  | _ => cases hk

/-- A table in which every key stands once, as the value that it is stored under, and in
which nothing is nil. -/
structure Table.Tidy (t : Table) : Prop where
  keyed : t.Keyed
  nilFree : t.NilFree

instance : Table.Stable Table.Tidy where
  empty := ⟨Table.Stable.empty, Table.Stable.empty⟩
  set h hset := ⟨Table.Stable.set h.keyed hset, Table.Stable.set h.nilFree hset⟩

/-- No key is a NaN or a float with an integral value. -/
theorem Table.Tidy.settled {t : Table} (h : t.Tidy) {e : Key × Value} (he : e ∈ t.entries)
    {x : Double} (hx : e.1 = .float x) : x.isNaN = false ∧ x.isIntegral = false := by
  have hkey := h.keyed.normal e he
  rw [hx] at hkey
  exact Value.key_settled hkey

namespace Table

variable {t t' : Table} {k : Key} {v w : Value}

theorem genuine_empty : Table.empty.Genuine := fun _ he => absurd he List.not_mem_nil

/-- Storing a genuine value under a genuine key; nil may be stored under any. -/
theorem Genuine.set (ht : t.Genuine) (hset : t.set w v = .ok t')
    (hw : v ≠ .nil → ∀ k, w.key = .ok k → k.value.Genuine) (hv : v.Genuine) : t'.Genuine := by
  intro e he
  rcases mem_of_mem_set hset he with hmem | ⟨hsome, k, hkey, rfl⟩
  · exact ht e hmem
  · exact ⟨hw hsome k hkey, hv⟩

theorem borderFrom_le (t : Table) (n fuel : Nat) : t.borderFrom n fuel ≤ n + fuel := by
  induction fuel generalizing n with
  | zero => exact Nat.le_refl n
  | succ fuel ih =>
      unfold borderFrom
      split
      · exact Nat.le_trans (ih (n + 1)) (by omega)
      · omega

/-- The border is no further than there are entries. -/
theorem length_le_size (t : Table) : t.length ≤ t.size := by
  have h := t.borderFrom_le 0 t.size
  rwa [Nat.zero_add] at h

end Table

namespace Vm

/-- A machine of genuine values, on a heap of such tables, whose references given back
are 64-bit integers. -/
structure Genuine (vm : Vm) : Prop where
  slots : ∀ v ∈ vm.machine.slots, v.Genuine
  tables : vm.heap.Throughout Table.Genuine
  refs : ∀ e ∈ vm.machine.freeRefs, ∀ r ∈ e.2, inRange r = true

/-- From a machine of genuine values comes one, and an answer with a property. -/
def Yields {α : Type} (P : α → Prop) (a : Action α) : Prop :=
  ∀ vm, vm.Genuine → Ends (a vm) (fun x vm' => P x ∧ vm'.Genuine) fun _ vm' => vm'.Genuine

variable {α β : Type} {P : α → Prop} {Q : β → Prop} {vm vm' : Vm} {v k : Value} {id : TableId}

theorem Yields.bind {a : Action α} {f : α → Action β} (ha : Yields P a)
    (hf : ∀ x, P x → Yields Q (f x)) : Yields Q (a >>= f) :=
  fun vm hvm => (ha vm hvm).bind fun x vm' h => hf x h.1 vm' h.2

theorem Yields.final {a : Action α} (ha : Yields P a) (hvm : vm.Genuine) :
    (final (a vm)).Genuine := by
  have h := ha vm hvm
  cases hr : a vm with
  | ok x vm' =>
      rw [hr] at h
      exact h.2
  | error f vm' =>
      rw [hr] at h
      exact h

theorem yields_looks {a : Action α} (ha : Looks a) : Yields (fun _ => True) a :=
  fun vm hvm => (ha.ends vm).mono (fun _ _ h => ⟨trivial, h ▸ hvm⟩) fun _ _ h => h ▸ hvm

-- ================================================================ moving values

/-- Everything that a machine of genuine values reaches is genuine. -/
theorem Reaches.genuine (h : vm.Reaches v) (hvm : vm.Genuine) : v.Genuine := by
  cases h with
  | slot slot => exact hvm.slots v slot
  | registry => trivial
  | key _ entry => exact (hvm.tables _ _ entry).key
  | value _ entry => exact (hvm.tables _ _ entry).value

theorem Knows.genuine (h : vm.Knows vm' v) (hvm : vm.Genuine) : v.Genuine := by
  rcases h with hnative | hreach | ⟨_, hnew⟩
  · exact hnative.genuine
  · exact hreach.genuine hvm
  · -- an object just made is no number and no guest
    cases v with
    | int n => exact absurd trivial hnew
    | guest id role => exact absurd trivial hnew
    | _ => trivial

theorem Steadies.genuine (h : Steadies vm vm') (hvm : vm.Genuine) : vm'.Genuine where
  slots v hv := (h.values v hv).genuine hvm
  tables := Heap.Stays.of_tables h.tables hvm.tables
  refs := by
    rw [h.freeRefs]
    exact hvm.refs

theorem yields_steady {a : Action α} (ha : Steady a) : Yields (fun _ => True) a :=
  fun vm hvm => (ha vm).mono (fun _ _ h => ⟨trivial, h.genuine hvm⟩) fun _ _ h => h.1.genuine hvm

/-- What is taken from the stack is genuine. -/
theorem yields_take : Yields Value.Genuine take := by
  intro vm hvm
  have hsteady := steady_take vm
  cases hr : take vm with
  | ok v vm' =>
      rw [hr] at hsteady
      obtain ⟨l, _, _, _, hs, _⟩ := take_answered hr
      exact ⟨hvm.slots v (by simp [hs]), hsteady.genuine hvm⟩
  | error f vm' =>
      rw [hr] at hsteady
      exact hsteady.1.genuine hvm

-- ============================================================ tables, closing

/-- A new table, and its identity on the stack. -/
theorem yields_pushTable : Yields (fun _ => True) pushTable := by
  refine fun vm hvm => ⟨trivial, fun v hv => ?_, hvm.tables.push rfl, hvm.refs⟩
  rcases List.mem_append.mp hv with hold | hnew
  · exact hvm.slots v hold
  · cases List.mem_singleton.mp hnew
    trivial

/-- A closed machine has an empty stack and an empty registry. -/
theorem yields_close : Yields (fun _ => True) close :=
  fun _ hvm => ⟨trivial, fun _ hv => absurd hv List.not_mem_nil, hvm.tables.push rfl,
    fun _ he => absurd he List.not_mem_nil⟩

theorem yields_store (id : TableId) (hk : ∀ key, k.key = .ok key → key.value.Genuine)
    (hv : v.Genuine) : Yields (fun _ => True) (store id k v) := by
  intro vm hvm
  cases hset : (vm.heap.table id).set k v with
  | error f =>
      rw [store_error hset]
      exact hvm
  | ok t =>
      rw [store_eq hset]
      have ht : t.Genuine := (hvm.tables id).set hset (fun _ => hk) hv
      exact ⟨trivial, hvm.slots, hvm.tables.setTable ht, hvm.refs⟩

theorem yields_rawSet (index : Int) : Yields (fun _ => True) (rawSet index) :=
  (yields_looks (looks_tableAt index)).bind fun id _ => yields_take.bind fun _ hv =>
    yields_take.bind fun _ hk => yields_store id (fun _ => hk.key) hv

theorem yields_setKey (index : Int) (hk : k.Genuine) : Yields (fun _ => True) (setKey index k) :=
  (yields_looks (looks_tableAt index)).bind fun id _ => yields_take.bind fun _ hv =>
    yields_store id (fun _ => hk.key) hv

-- ================================================================= references

/-- Replacing the references given back of a table. -/
theorem yields_setFree (id : TableId) {refs : Machine → List Int}
    (hrefs : ∀ vm : Vm, vm.Genuine → ∀ r ∈ refs vm.machine, inRange r = true) :
    Yields (fun _ => True) (modifyMachine fun m => m.setFree id (refs m)) := by
  refine fun vm hvm => ⟨trivial, hvm.slots, hvm.tables, fun e he => ?_⟩
  rcases List.mem_cons.mp he with rfl | hold
  · exact hrefs vm hvm
  · exact hvm.refs e (List.mem_filter.mp hold).1

theorem Genuine.free (hvm : vm.Genuine) (id : TableId) :
    ∀ r ∈ vm.machine.free id, inRange r = true := by
  intro r hr
  unfold Machine.free at hr
  cases hfind : vm.machine.freeRefs.find? (·.1 == id) with
  | none =>
      rw [hfind] at hr
      exact absurd hr List.not_mem_nil
  | some e =>
      rw [hfind] at hr
      exact hvm.refs e (List.mem_of_find?_eq_some hfind) r hr

theorem inRange_nilRef : inRange nilRef = true := by decide

/-- The successor of the border, in a table with fewer entries than there are positive
integers of 64 bits. -/
theorem inRange_border {t : Table} (hroom : (t.size : Int) < maxInteger) :
    inRange ((t.length : Int) + 1) = true := by
  have hlength := t.length_le_size
  refine decide_eq_true ⟨?_, by omega⟩
  have hmin : minInteger ≤ 0 := by decide
  omega

/-- A new reference is one that has been given back, or the successor of a border. -/
theorem ref_genuine (index : Int) (hvm : vm.Genuine)
    (hroom : ∀ id, ((vm.heap.table id).size : Int) < maxInteger) :
    Ends (ref index vm) (fun r vm' => inRange r = true ∧ vm'.Genuine)
      fun _ vm' => vm'.Genuine := by
  refine Ends.bind (((looks_absIndex index).ends vm).mono (fun _ _ h => h) fun _ _ h => h ▸ hvm) ?_
  rintro index vm₀ rfl
  refine Ends.bind (((looks_tableAt index).ends vm₀).mono (fun _ _ h => h)
    fun _ _ h => h ▸ hvm) ?_
  rintro id vm₁ rfl
  have htake : Ends (take vm₁) (fun v vm' => v.Genuine ∧ vm'.Genuine
      ∧ vm'.heap.tables = vm₁.heap.tables) fun _ vm' => vm'.Genuine := by
    have hyields := yields_take vm₁ hvm
    have hsteady := steady_take vm₁
    cases hr : take vm₁ with
    | ok v vm' =>
        rw [hr] at hyields hsteady
        exact ⟨hyields.1, hyields.2, hsteady.tables⟩
    | error f vm' =>
        rw [hr] at hyields
        exact hyields
  refine htake.bind fun v vm₂ ⟨hv, hvm₂, htables⟩ => ?_
  split
  · exact ⟨inRange_nilRef, hvm₂⟩
  · rw [bind_ok (rfl : getMachine vm₂ = .ok vm₂.machine vm₂)]
    have hkept : ∀ r : Int, inRange r = true → Yields (fun r => inRange r = true) (do
        store id (.int r) v
        return r) :=
      fun r hr => (yields_store id (fun _ => Value.Genuine.key (v := .int r) (.inl hr)) hv).bind
        fun _ _ vm hvm => ⟨hr, hvm⟩
    have hfree := hvm₂.free id
    cases hrefs : vm₂.machine.free id with
    | cons r rest =>
        rw [hrefs] at hfree
        have hset : Yields (fun _ => True) (modifyMachine (·.setFree id rest)) :=
          yields_setFree id fun _ _ r hr => hfree r (List.mem_cons_of_mem _ hr)
        exact (hset.bind fun _ _ => hkept r (hfree r List.mem_cons_self)) vm₂ hvm₂
    | nil =>
        have hsize := hroom id
        have htable : vm₂.heap.table id = vm₁.heap.table id := by
          unfold Heap.table
          rw [htables]
        rw [← htable] at hsize
        exact hkept _ (inRange_border hsize) vm₂ hvm₂

/-- A reference of 64 bits is given back. -/
theorem yields_unref (index : Int) {r : Int} (hr : inRange r = true) :
    Yields (fun _ => True) (unref index r) := by
  unfold unref
  split
  · exact yields_looks (looks_pure _)
  · refine (yields_looks (looks_tableAt index)).bind fun id _ =>
      (yields_store (v := .nil) id (fun _ => Value.Genuine.key (v := .int r) (.inl hr))
        trivial).bind fun _ _ => ?_
    refine yields_setFree id fun vm hvm r' hr' => ?_
    rcases List.mem_cons.mp hr' with rfl | hold
    · exact hr
    · exact hvm.free id r' hold

end Vm

end StackBridge
