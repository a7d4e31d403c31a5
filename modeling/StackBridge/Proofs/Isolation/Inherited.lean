import StackBridge.Proofs.Frames.Primitives
import StackBridge.Proofs.Machine.Answered
import StackBridge.Proofs.Machine.Keys

/-!
What a machine can reach later on. An action of a machine writes to no table but
those that the machine reaches, and puts nothing on the stack or into a table but
what it has reached before and what has been made since (`Vm.Inherits`); so
whatever object it reaches afterwards is one of those (`Vm.Inherits.inherited`). No
object comes to a machine from elsewhere, except with the values that an action is
given.
-/

namespace StackBridge

/-- A table, a function or userdata. -/
def Value.IsObject : Value → Prop
  | .table _ | .function _ | .userdata _ => True
  | _ => False

instance : DecidablePred Value.IsObject := fun v => by
  cases v <;> unfold Value.IsObject <;> infer_instance

/-- What refers to no object is none. -/
theorem Value.Native.not_isObject {v : Value} (h : v.Native) : ¬ v.IsObject := by
  intro hobject
  cases v <;> first | exact h | exact hobject

/-- An object is its own key. -/
theorem Value.IsObject.of_key {k : Value} {key : Key} (hkey : k.key = .ok key)
    (h : key.value.IsObject) : key.value = k := by
  have hfloat : ∀ x : Double, Key.ofFloat x ≠ .ok key := by
    intro x hx
    rcases Key.ofFloat_cases hx with ⟨_, ⟨_, rfl⟩ | ⟨_, rfl⟩⟩ <;> exact h
  cases k with
  | table id => cases hkey; rfl
  | function id => cases hkey; rfl
  | userdata id => cases hkey; rfl
  | float x => exact absurd hkey (hfloat x)
  | guest id role =>
      cases role with
      | float x => exact absurd hkey (hfloat x)
      | stray name => cases hkey
      | _ => cases hkey; exact h.elim
  | nil => cases hkey
  | _ => cases hkey; exact h.elim

namespace Vm

/-- What a machine may come to: an object that it has reached before, a new one, or
what is no object. -/
def Inherited (vm vm' : Vm) (v : Value) : Prop :=
  v.IsObject → vm.Reaches v ∨ vm.heap.Brings vm'.heap v

/-- Nothing goes from the heap, no table is written to but one that the machine
reaches, and nothing is put on the stack, into the registry's place or into a table
but what the machine may come to. -/
structure Inherits (vm vm' : Vm) : Prop where
  grows : vm.heap.Grows vm'.heap
  others : ∀ id, vm.heap.Has (.table id) → ¬ vm.Reaches (.table id) →
    vm'.heap.table id = vm.heap.table id
  slots : ∀ v ∈ vm'.machine.slots, vm.Inherited vm' v
  registry : vm.Inherited vm' (.table vm'.machine.registry)
  entries : ∀ id, ∀ e ∈ (vm'.heap.table id).entries, e ∈ (vm.heap.table id).entries
    ∨ vm.Inherited vm' e.1.value ∧ vm.Inherited vm' e.2

variable {α : Type} {vm vm' vm'' vm₀ : Vm} {v : Value}

theorem Reaches.inherited (h : vm.Reaches v) : vm.Inherited vm' v := fun _ => .inl h

/-- An object that is known has been reached or is new. -/
theorem Knows.inherited (h : vm.Knows vm' v) : vm.Inherited vm' v := fun hv =>
  h.resolve_left fun hnative => hnative.not_isObject hv

theorem Inherited.grows (h : vm.Inherited vm' v) (hgrows : vm'.heap.Grows vm''.heap) :
    vm.Inherited vm'' v := fun hv =>
  (h hv).imp_right fun hmade => ⟨hmade.1.grows hgrows, hmade.2⟩

/-- Whatever the machine reaches afterwards is what it may come to. -/
theorem Inherits.inherited (h : Inherits vm vm') (hreach : vm'.Reaches v) :
    vm.Inherited vm' v := by
  have hold : ∀ {id : TableId} {e : Key × Value}, vm.Inherited vm' (.table id) →
      e ∈ (vm.heap.table id).entries → vm.Reaches (.table id) := by
    intro id e hid he
    rcases hid trivial with hreach | ⟨_, hnew⟩
    · exact hreach
    · rw [Heap.table_entries_of_not_has hnew] at he
      exact absurd he List.not_mem_nil
  induction hreach with
  | slot slot => exact h.slots _ slot
  | registry => exact h.registry
  | key _ entry ih =>
      rcases h.entries _ _ entry with hmem | hgot
      · exact (Reaches.key (hold ih hmem) hmem).inherited
      · exact hgot.1
  | value _ entry ih =>
      rcases h.entries _ _ entry with hmem | hgot
      · exact (Reaches.value (hold ih hmem) hmem).inherited
      · exact hgot.2

/-- What the machine may come to later on. -/
theorem Inherits.inherited_later (h : Inherits vm vm') (hgrows : vm'.heap.Grows vm''.heap)
    (hv : vm'.Inherited vm'' v) : vm.Inherited vm'' v := fun hobject => by
  rcases hv hobject with hbefore | ⟨hhas, hnew⟩
  · exact (h.inherited hbefore).grows hgrows hobject
  · exact .inr ⟨hhas, fun hold => hnew (hold.grows h.grows)⟩

instance : Std.Refl Inherits := ⟨fun _ =>
  ⟨.refl _, fun _ _ _ => rfl, fun _ hv => (Reaches.slot hv).inherited, Reaches.registry.inherited,
    fun _ _ he => .inl he⟩⟩

instance : IsTrans Vm Inherits where
  trans a b c h h' :=
    { grows := h.grows.trans h'.grows
      others := fun id hid hnot => by
        have hnot' : ¬ b.Reaches (.table id) := fun hreach =>
          (h.inherited hreach trivial).elim hnot fun hmade => hmade.2 hid
        rw [h'.others id (hid.grows h.grows) hnot', h.others id hid hnot]
      slots := fun v hv => h.inherited_later h'.grows (h'.slots v hv)
      registry := h.inherited_later h'.grows h'.registry
      entries := fun id e he => by
        rcases h'.entries id e he with hmem | hgot
        · exact (h.entries id e hmem).imp_right fun hgot =>
            ⟨hgot.1.grows h'.grows, hgot.2.grows h'.grows⟩
        · exact .inr ⟨h.inherited_later h'.grows hgot.1, h.inherited_later h'.grows hgot.2⟩ }

-- =================================================================== more slots

/-- More slots reach as much at least. -/
theorem Reaches.withSlots {l : List Value} (h : vm.Reaches v)
    (hl : ∀ w ∈ vm.machine.slots, w ∈ l) : (vm.withSlots l).Reaches v := by
  induction h with
  | slot slot => exact .slot (hl _ slot)
  | registry => exact .registry
  | key _ entry ih => exact .key ih entry
  | value _ entry ih => exact .value ih entry

/-- Nothing changes for a machine that has had more slots all along. -/
theorem Inherits.withSlots (h : Inherits vm vm') (l : List Value) :
    Inherits (vm.withSlots (vm.machine.slots ++ l)) (vm'.withSlots (vm'.machine.slots ++ l)) := by
  have hmore : ∀ {w}, vm.Reaches w → (vm.withSlots (vm.machine.slots ++ l)).Reaches w :=
    fun hw => hw.withSlots fun _ hslot => List.mem_append_left _ hslot
  have hgot : ∀ {w}, vm.Inherited vm' w → (vm.withSlots (vm.machine.slots ++ l)).Inherited
      (vm'.withSlots (vm'.machine.slots ++ l)) w := fun hw hobject => (hw hobject).imp_left hmore
  refine ⟨h.grows, fun id hid hnot => h.others id hid fun hreach => hnot (hmore hreach),
    fun w hw => ?_, hgot h.registry, fun id e he => (h.entries id e he).imp_right fun hboth =>
      ⟨hgot hboth.1, hgot hboth.2⟩⟩
  rcases List.mem_append.mp hw with hslot | hextra
  · exact hgot (h.slots w hslot)
  · exact (Reaches.slot (List.mem_append_right _ hextra)).inherited

-- ==================================================================== moving

/-- Where the tables are as they were it is enough to look at the slots and the
registry. -/
theorem inherits_of_roots (hgrows : vm.heap.Grows vm'.heap)
    (htable : ∀ id, vm'.heap.table id = vm.heap.table id)
    (hslots : ∀ v ∈ vm'.machine.slots, vm.Inherited vm' v)
    (hregistry : vm.Inherited vm' (.table vm'.machine.registry)) : Inherits vm vm' :=
  ⟨hgrows, fun id _ _ => htable id, hslots, hregistry, fun id _ he => .inl (htable id ▸ he)⟩

theorem inherits_steady (h : Steadies vm vm') : Inherits vm vm' := by
  refine inherits_of_roots h.grows h.table (fun v hv => (h.values v hv).inherited) ?_
  rw [h.registry]
  exact Reaches.registry.inherited

theorem keeps_inherits_steady {a : Action α} (ha : Steady a) : Keeps Inherits a :=
  ha.keeps.mono fun _ _ h => inherits_steady h

/-- Neither the frames nor the references given back are of any concern; the slots are, as
far as they hold objects. -/
theorem inherits_slots (hheap : vm'.heap = vm.heap)
    (hregistry : vm'.machine.registry = vm.machine.registry)
    (hslots : ∀ v ∈ vm'.machine.slots, v.IsObject → vm.Reaches v) : Inherits vm vm' := by
  refine inherits_of_roots ?_ (fun id => by rw [hheap])
    (fun v hv hobject => .inl (hslots v hv hobject)) ?_
  · rw [hheap]
    exact .refl _
  · rw [hregistry]
    exact Reaches.registry.inherited

theorem inherits_same (hheap : vm'.heap = vm.heap)
    (hregistry : vm'.machine.registry = vm.machine.registry)
    (hslots : vm'.machine.slots = vm.machine.slots) : Inherits vm vm' :=
  inherits_slots hheap hregistry fun _ hv _ => .slot (hslots ▸ hv)

/-- A new table is one that has not been there. -/
theorem brings_newTable (h : Heap) (t : Table) :
    h.Brings (h.newTable t).2 (.table h.tables.size) := by
  constructor
  · show h.tables.size < (h.tables.push t).size
    rw [Array.size_push]
    exact Nat.lt_succ_self _
  · exact Nat.lt_irrefl _

theorem grows_newTable (h : Heap) (t : Table) : h.Grows (h.newTable t).2 :=
  ⟨by simp [Heap.newTable], Nat.le_refl _, Nat.le_refl _, Nat.le_refl _⟩

/-- A new table on top. -/
theorem inherits_pushTable : Keeps Inherits pushTable := by
  intro vm
  refine inherits_of_roots (grows_newTable vm.heap .empty)
    (fun id => Heap.table_push_empty rfl id) (fun v hv => ?_) Reaches.registry.inherited
  rcases List.mem_append.mp hv with hslot | hlast
  · have hreach : vm.Reaches v := .slot hslot
    exact hreach.inherited
  · rw [List.mem_singleton.mp hlast]
    exact fun _ => .inr (brings_newTable vm.heap .empty)

/-- Closing leaves nothing but a new registry. -/
theorem inherits_close : Keeps Inherits close := fun vm =>
  inherits_of_roots (grows_newTable vm.heap .empty) (fun id => Heap.table_push_empty rfl id)
    (fun _ hv => absurd hv List.not_mem_nil) fun _ => .inr (brings_newTable vm.heap .empty)

-- =================================================================== writing

/-- Writing to a table that is reached, under and with what is known. -/
theorem Steadies.inherits_store (h : Steadies vm₀ vm) {id : TableId} {k : Value} {t : Table}
    (hid : vm₀.Reaches (.table id)) (hset : (vm.heap.table id).set k v = .ok t)
    (hk : vm₀.Inherited vm k) (hv : vm₀.Inherited vm v) (hheap : vm'.heap = vm.heap.setTable id t)
    (hregistry : vm'.machine.registry = vm.machine.registry)
    (hslots : vm'.machine.slots = vm.machine.slots) : Inherits vm₀ vm' := by
  have hgrows : vm.heap.Grows vm'.heap := by
    rw [hheap]
    exact ⟨Nat.le_of_eq (Heap.setTable_size ..).symm, Nat.le_refl _, Nat.le_refl _,
      Nat.le_refl _⟩
  have hbefore := inherits_steady h
  refine ⟨h.grows.trans hgrows, fun id' _ hnot => ?_, fun w hw => ?_, ?_, fun id' e he => ?_⟩
  · have hne : id ≠ id' := fun hsame => hnot (hsame ▸ hid)
    rw [hheap, Heap.table_setTable_ne hne, h.table]
  · rw [hslots] at hw
    exact (hbefore.slots w hw).grows hgrows
  · rw [hregistry]
    exact hbefore.registry.grows hgrows
  · rw [hheap] at he
    rw [← h.table]
    by_cases hsame : id = id'
    · subst hsame
      by_cases hlt : id < vm.heap.tables.size
      · rw [Heap.table_setTable hlt] at he
        rcases Table.mem_of_mem_set hset he with hmem | ⟨_, key, hkey, rfl⟩
        · exact .inl hmem
        · refine .inr ⟨fun hobject => ?_, hv.grows hgrows⟩
          have hsame : key.value = k := Value.IsObject.of_key hkey hobject
          dsimp only at hobject ⊢
          rw [hsame] at hobject ⊢
          exact hk.grows hgrows hobject
      · rw [Heap.setTable_none hlt] at he
        exact .inl he
    · rw [Heap.table_setTable_ne hsame] at he
      exact .inl he

/-- What stores, or fails and changes nothing. -/
theorem Steadies.keeps_store (h : Steadies vm₀ vm) {id : TableId} {k : Value}
    (hid : vm₀.Reaches (.table id)) (hk : vm₀.Inherited vm k) (hv : vm₀.Inherited vm v)
    (hheap : vm'.heap = vm.heap)
    (hregistry : vm'.machine.registry = vm.machine.registry)
    (hslots : vm'.machine.slots = vm.machine.slots) :
    Inherits vm₀ (final (store id k v vm')) := by
  cases hset : (vm.heap.table id).set k v with
  | error f =>
      rw [store_error (by rw [hheap]; exact hset)]
      exact IsTrans.trans _ _ _ (inherits_steady h) (inherits_same hheap hregistry hslots)
  | ok t =>
      rw [store_eq (by rw [hheap]; exact hset)]
      refine h.inherits_store hid hset hk hv ?_ hregistry hslots
      rw [← hheap]
      rfl

/-- An action on a table that has been reached. -/
theorem inherits_tableAt {index : Int} {f : TableId → Action α}
    (hf : ∀ id vm, vm.Reaches (.table id) → Inherits vm (final (f id vm))) :
    Keeps Inherits (tableAt index >>= f) := by
  intro vm
  have hlook := looks_tableAt index vm
  cases hr : tableAt index vm with
  | error g vm' =>
      rw [hr] at hlook
      rw [bind_error hr]
      obtain rfl : vm = vm' := hlook.1
      exact Std.Refl.refl vm
  | ok id vm' =>
      rw [hr] at hlook
      obtain rfl : vm = vm' := hlook
      rw [bind_ok hr]
      exact hf id vm (tableAt_reaches hr)

/-- An action on a table and a value that have been reached. -/
theorem inherits_tableAt_take {index : Int} {f : TableId → Value → Action α}
    (hf : ∀ id v vm₀ vm, Steadies vm₀ vm → vm₀.Reaches (.table id) → vm₀.Reaches v →
      Inherits vm₀ (final (f id v vm))) :
    Keeps Inherits (tableAt index >>= fun id => take >>= fun v => f id v) := by
  refine inherits_tableAt fun id vm hid => ?_
  have htake := steady_take vm
  cases hv : take vm with
  | error g vm' =>
      rw [hv] at htake
      rw [bind_error hv]
      exact inherits_steady htake.1
  | ok v vm' =>
      rw [hv] at htake
      rw [bind_ok hv]
      obtain ⟨l, _, _, _, hslots, _⟩ := take_answered hv
      have hmem : v ∈ vm.machine.slots := by simp [hslots]
      exact hf id v vm vm' htake hid (.slot hmem)

theorem inherits_rawSet (index : Int) : Keeps Inherits (rawSet index) := by
  refine inherits_tableAt_take fun id v vm₀ vm h hid hv => ?_
  have htake := steady_take vm
  cases hk : take vm with
  | error g vm' =>
      rw [hk] at htake
      rw [bind_error hk]
      exact inherits_steady (IsTrans.trans _ _ _ h htake.1)
  | ok k vm' =>
      rw [hk] at htake
      rw [bind_ok hk]
      obtain ⟨l, _, _, _, hslots, _⟩ := take_answered hk
      have hmem : k ∈ vm.machine.slots := by simp [hslots]
      have hsteady : Steadies vm vm' := htake
      exact (IsTrans.trans _ _ _ h hsteady).keeps_store hid
        ((h.values k hmem).inherited.grows hsteady.grows) hv.inherited rfl rfl rfl

theorem inherits_setKey (index : Int) {k : Value} (hk : ¬ k.IsObject) :
    Keeps Inherits (setKey index k) :=
  inherits_tableAt_take fun _ _ _ _ h hid hv =>
    h.keeps_store hid (fun hobject => absurd hobject hk) hv.inherited rfl rfl rfl

/-- Which references have been given back is of no concern. -/
theorem inherits_setFree (id : TableId) (refs : Machine → List Int) :
    Keeps Inherits (modifyMachine fun m => m.setFree id (refs m)) :=
  fun _ => inherits_same rfl rfl rfl

theorem inherits_ref (index : Int) : Keeps Inherits (ref index) := by
  refine (looks_absIndex index).keeps.bind fun index => ?_
  refine inherits_tableAt_take fun id v vm₀ vm h hid hv => ?_
  have hstored : ∀ (r : Int) (free : List (TableId × List Int)),
      Inherits vm₀ (final ((do store id (.int r) v; return r : Action Int)
        { vm with machine := { vm.machine with freeRefs := free } })) := by
    intro r free
    rw [final_bind_pure]
    exact h.keeps_store hid (fun hobject => hobject.elim) hv.inherited rfl rfl rfl
  split
  · exact inherits_steady h
  · rw [bind_ok (rfl : getMachine vm = .ok vm.machine vm)]
    dsimp only
    cases vm.machine.free id with
    | cons r rest => exact hstored r _
    | nil => exact hstored _ vm.machine.freeRefs

theorem inherits_unref (index r : Int) : Keeps Inherits (unref index r) := by
  unfold unref
  split
  · exact (looks_pure ()).keeps
  · refine inherits_tableAt fun id vm hid => ?_
    have hstored : Inherits vm (final (store id (.int r) .nil vm)) :=
      (Steadies.refl vm).keeps_store hid (fun hobject => hobject.elim)
        (fun hobject => hobject.elim) rfl rfl rfl
    rw [bind_apply]
    cases hr : store id (.int r) .nil vm with
    | ok x vm' =>
        rw [hr] at hstored
        exact IsTrans.trans _ _ _ hstored (inherits_setFree id (fun m => r :: m.free id) vm')
    | error f vm' =>
        rw [hr] at hstored
        exact hstored

end Vm

end StackBridge
