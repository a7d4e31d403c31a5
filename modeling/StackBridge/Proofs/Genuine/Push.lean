import StackBridge.Proofs.Genuine.Session
import StackBridge.Proofs.Push.Placed

/-!
Pushes of host values leave genuine values, unless a list is too long for a table
(`Swells`). All that a push stores is in tables of its own: under names, under keys that
it has pushed, and under the numbers from one on. It is by induction on the nesting;
while a table is filled, what counts of it is how far it is numbered, and whether the
parts in it have left an overlong table (`Laden`).
-/

namespace StackBridge

namespace Table

variable {t t' : Table} {k k' : Key} {v w : Value}

theorem has_set_ne (hset : t.set w v = .ok t') (hw : w.key = .ok k) (hk : k' ≠ k) :
    t'.has k' = t.has k' := by
  unfold set at hset
  rw [hw] at hset
  cases hset
  unfold has
  split
  · rw [find?_erase, if_neg hk]
  · rw [find?_put, if_neg hk]

theorem has_set_self (hset : t.set w v = .ok t') (hw : w.key = .ok k) (hv : v ≠ .nil) :
    t'.has k = true := by
  unfold set at hset
  rw [hw] at hset
  dsimp only at hset
  rw [if_neg hv] at hset
  cases hset
  unfold has
  rw [find?_put, if_pos rfl]
  rfl

theorem numbered_empty : Table.empty.Numbered := fun _ he => absurd he List.not_mem_nil

theorem Numbered.set {n : Int} (ht : t.Numbered) (hset : t.set (.int n) v = .ok t') (hn : 0 < n) :
    t'.Numbered := by
  intro e he
  rcases mem_of_mem_set hset he with hmem | ⟨_, k, hkey, rfl⟩
  · exact ht e hmem
  · cases hkey
    exact ⟨n, rfl, hn⟩

end Table

namespace Vm

/-- A value that cannot be stored leaves a machine of genuine values, whatever the key. -/
theorem setKey_stopped {vm vm' : Vm} {index : Int} {key : Value} {f : Failure} (hvm : vm.Genuine)
    (h : setKey index key vm = .error f vm') : vm'.Genuine := by
  have hends : Ends (setKey index key vm) (fun _ _ => True) fun _ vm' => vm'.Genuine := by
    refine Ends.bind ((yields_looks (looks_tableAt index)) vm hvm) fun id vm₁ h₁ => ?_
    refine Ends.bind (yields_take vm₁ h₁.2) fun v vm₂ h₂ => ?_
    cases hset : (vm₂.heap.table id).set key v with
    | error f =>
        rw [store_error hset]
        exact h₂.2
    | ok t =>
        rw [store_eq hset]
        trivial
  rw [h] at hends
  exact hends

end Vm

namespace Session

variable {s t u : Session} {k : MachineId} {ctx : Context}

/-- No table that there was has changed, and genuine values have become genuine ones
unless a new table is overlong. -/
structure Swells (s t : Session) : Prop where
  fresh : Fresh s t
  genuine : s.Genuine → t.Genuine ∨ t.Overgrown s.heap.tables.size

theorem Swells.trans (h : Swells s t) (h' : Swells t u) : Swells s u where
  fresh := h.fresh.trans h'.fresh
  genuine hs := by
    rcases h.genuine hs with ht | ht
    · exact (h'.genuine ht).imp_right fun hu => hu.mono h.fresh.tables
    · exact .inr (ht.crowds h'.fresh.crowds)

theorem Swells.same (hheap : t.heap = s.heap) (hmachines : t.machines = s.machines)
    (hwrappers : t.wrappers = s.wrappers) : Swells s t := by
  refine ⟨.of_same hheap hmachines hwrappers, fun hs =>
    .inl (hs.same hheap hmachines fun id => ?_)⟩
  unfold Session.wrapper
  rw [hwrappers]
  exact hs.anchors id

instance : Calm Swells where
  refl _ := .same rfl rfl rfl
  trans _ _ _ := Swells.trans
  unseen hheap hmachines hwrappers _ := .same hheap hmachines hwrappers

instance : Describes ctx Swells := describes_of_blind ctx Swells.same

instance : Moves Swells where
  steady k ha s := ⟨Moves.steady k ha s, fun hs =>
    .inl (hs.onMachine (Vm.yields_steady ha) (Vm.keeps_steady ha))⟩
  pushTable k s := ⟨Moves.pushTable k s, fun hs =>
    .inl (hs.onMachine Vm.yields_pushTable Vm.seats_pushTable)⟩
  close k s := ⟨Moves.close k s, fun hs => .inl (hs.onMachine Vm.yields_close Vm.seats_close)⟩

end Session

namespace Bridge

open Session

variable {ctx : Context} {k : MachineId} {s s₀ t u : Session} {listed : Prop} {id : TableId}
  {n : Nat} {key w : Value} {es : List (Value × Value)}

/-- A session with a table that is being filled, with the numbers up to `n` if it is a
list's. Either its values are genuine; or there is an overlong table, made for a part, or
this one. -/
structure Laden (listed : Prop) (id : TableId) (n : Nat) (s : Session) : Prop where
  made : id < s.heap.tables.size
  apart : ∀ j, (s.machine j).registry ≠ id
  numbered : listed → (s.heap.table id).Numbered
  genuine : s.Genuine ∨ s.Overgrown (id + 1)
    ∨ listed ∧ ∃ i : Int, ¬ Storable i ∧ i ≤ n ∧ (s.heap.table id).has (.int i) = true

/-- Values are genuine unless a table from some identity on is overlong. -/
def Strained (id : TableId) (s : Session) : Prop := s.Genuine ∨ s.Overgrown id

theorem Strained.final {α : Type} {r : EStateM.Result Stop Session α}
    (h : Ends r (fun _ t => Strained id t) fun _ t => Strained id t) : Strained id (final r) :=
  Ends.final h

theorem Laden.ends (h : Laden listed id n s) : Strained id s := by
  rcases h.genuine with hs | hpart | ⟨hlisted, i, hi, _, hhas⟩
  · exact .inl hs
  · exact .inr (hpart.mono (Nat.le_succ id))
  · exact .inr ⟨id, Nat.le_refl id, h.apart, h.numbered hlisted, i, hi, hhas⟩

/-- A part has been pushed. -/
theorem Laden.swells (h : Laden listed id n s) (hst : Swells s t) : Laden listed id n t where
  made := Nat.lt_of_lt_of_le h.made hst.fresh.tables
  apart j := by
    rcases hst.fresh.machine j with hsame | ⟨_, hnew⟩
    · rw [hsame.registry]
      exact h.apart j
    · exact Nat.ne_of_gt (Nat.lt_of_lt_of_le h.made hnew)
  numbered := by
    rw [hst.fresh.table id h.made]
    exact h.numbered
  genuine := by
    rw [hst.fresh.table id h.made]
    rcases h.genuine with hs | hpart | hlong
    · rcases hst.genuine hs with ht | ht
      · exact .inl ht
      · exact .inr (.inl (ht.mono h.made))
    · exact .inr (.inl (hpart.crowds hst.fresh.crowds))
    · exact .inr (.inr hlong)

/-- A part has been stored. -/
theorem Laden.store (h : Laden listed id n t) {l : List Value} {vm : Vm}
    (hstored : Vm.Stored id key w l (t.vm k) vm) (hkey : listed → key = .int ((n : Int) + 1))
    (hgenuine : t.Genuine →
      (t.withVm k vm).Genuine ∨ listed ∧ ¬ Storable ((n : Int) + 1) ∧ w ≠ .nil) :
    Laden listed id (n + 1) (t.withVm k vm) := by
  obtain ⟨table, hset, hvm⟩ := hstored
  have hheap : vm.heap = t.heap.setTable id table := by rw [hvm]; rfl
  have hregistry : ∀ j, ((t.withVm k vm).machine j).registry = (t.machine j).registry :=
    withVm_registry (by rw [hvm]; rfl)
  have htable : vm.heap.table id = table := by rw [hheap, Heap.table_setTable h.made]
  have hother : ∀ id', id + 1 ≤ id' → vm.heap.table id' = t.heap.table id' := fun id' hid' => by
    rw [hheap, Heap.table_setTable_ne (Nat.ne_of_lt hid')]
  refine ⟨?_, fun j => ?_, fun hlisted => ?_, ?_⟩
  · rw [withVm_heap, hheap, Heap.setTable_size]
    exact h.made
  · rw [hregistry]
    exact h.apart j
  · rw [withVm_heap, htable]
    rw [hkey hlisted] at hset
    exact (h.numbered hlisted).set hset (by omega)
  · rw [withVm_heap, htable]
    rcases h.genuine with ht | ⟨id', hid', hapart, hlong⟩ | ⟨hlisted, i, hi, hin, hhas⟩
    · refine (hgenuine ht).imp_right fun ⟨hlisted, hn, hw⟩ =>
        .inr ⟨hlisted, (n : Int) + 1, hn, ?_, ?_⟩
      · omega
      · rw [hkey hlisted] at hset
        exact Table.has_set_self hset rfl hw
    · refine .inr (.inl ⟨id', hid', fun j => ?_, ?_⟩)
      · rw [hregistry]
        exact hapart j
      · rw [withVm_heap, hother id' hid']
        exact hlong
    · refine .inr (.inr ⟨hlisted, i, hi, by omega, ?_⟩)
      rw [hkey hlisted] at hset
      rw [Table.has_set_ne hset rfl fun heq => ?_]
      · exact hhas
      · injection heq with heq
        omega

/-- The table stays on top where the stack is as it was. -/
theorem Filled.level (hf : Filled k s₀ s es) (hst : Fresh s t)
    (hslots : (t.machine k).slots = (s.machine k).slots) : Filled k s₀ t es where
  fresh := hf.fresh.trans hst
  lifted hk := by rw [hslots, hf.lifted (by rw [← hst.size]; exact hk)]
  made := Nat.lt_of_lt_of_le hf.made hst.tables
  stored := by
    rw [hst.table _ hf.made]
    exact hf.stored

-- ==================================================================== storing

/-- Nil is stored under no key, so that genuine values stay so, whatever the key. -/
theorem genuine_withoutNil {l : List Value} {vm : Vm} (ht : t.Genuine) (hl : ∀ v ∈ l, v.Genuine)
    (hstored : Vm.Stored id key .nil l (t.vm k) vm) : (t.withVm k vm).Genuine := by
  obtain ⟨table, hset, rfl⟩ := hstored
  refine ht.withVm ⟨hl, ?_, (ht.vm k).refs⟩ ?_ ?_
  · exact (ht.vm k).tables.setTable
      (((ht.vm k).tables _).set hset (fun hsome => absurd rfl hsome) trivial)
  · show t.heap.tables.size ≤ (t.heap.setTable _ table).tables.size
    rw [Heap.setTable_size]
  · show (t.machine k).registry < (t.heap.setTable _ table).tables.size
    rw [Heap.setTable_size]
    exact ht.registry k

/-- Storing leaves what was stored, or genuine values. -/
theorem laden_setKey (key : Value) (hs₀ : s₀.Genuine) (hf : Filled k s₀ s es)
    (h : Laden listed s₀.heap.tables.size n t) (hst : Fresh s t) (hw : Lifted k w s t)
    (hkey : listed → key = .int ((n : Int) + 1)) (hgenuine : ¬ listed → key.Genuine) :
    Ends (onMachine k (Vm.setKey (-2) key) t)
      (fun _ u => Laden listed s₀.heap.tables.size (n + 1) u ∧ ∃ es', Filled k s₀ u es')
      fun _ u => Strained s₀.heap.tables.size u := by
  have hs : (t.vm k).machine.slots ≠ [] → (t.vm k).machine.slots
      = (s₀.machine k).slots ++ [.table s₀.heap.tables.size, w] := by
    intro hne
    have hk : k < t.machines.size := lt_size_of_slots (List.length_pos_iff.mpr hne)
    have hk' : k < s.machines.size := by rw [← hst.size]; exact hk
    show (t.machine k).slots = _
    rw [hw hk, hf.lifted hk', List.append_assoc]
    rfl
  have hends : Ends (Vm.setKey (-2) key (t.vm k)) (fun _ vm => Vm.Stored s₀.heap.tables.size key w
      ((s₀.machine k).slots ++ [.table s₀.heap.tables.size]) (t.vm k) vm)
      fun _ vm => ∃ l, vm = (t.vm k).withSlots l := Vm.setKey_ends hs
  cases hset : Vm.setKey (-2) key (t.vm k) with
  | error f vm =>
      rw [hset] at hends
      obtain ⟨l, rfl⟩ := hends
      rw [onMachine_error hset]
      refine (h.swells (t := t.withSlots k l) ⟨(Fresh.refl t).withSlots l, fun ht => .inl ?_⟩).ends
      exact ht.withVm (Vm.setKey_stopped (ht.vm k) hset) (Nat.le_refl _) (ht.registry k)
  | ok _ vm =>
      rw [hset] at hends
      rw [onMachine_ok hset]
      refine ⟨h.store hends hkey fun ht => ?_, _, (hf.store hst hends).1⟩
      have hstored : key.Genuine → (t.withVm k vm).Genuine := fun hkey => by
        have hput := ht.onMachine (k := k) (Vm.yields_setKey (-2) hkey) (Vm.keeps_setKey (-2) key)
        rw [onMachine_ok hset] at hput
        exact hput
      by_cases hlisted : listed
      · obtain rfl := hkey hlisted
        by_cases hn : Storable ((n : Int) + 1)
        · exact .inl (hstored hn)
        · by_cases hnil : w = .nil
          · subst hnil
            refine .inl (genuine_withoutNil ht (fun v hv => ?_) hends)
            rcases List.mem_append.mp hv with hold | hnew
            · exact (hs₀.vm k).slots v hold
            · cases List.mem_singleton.mp hnew
              trivial
          · exact .inr ⟨hlisted, hn, hnil⟩
      · exact .inl (hstored (hgenuine hlisted))

theorem laden_rawSet (hf : Filled k s₀ s es) (h : Laden False s₀.heap.tables.size n t)
    (hst : Fresh s t) (hs : (t.vm k).machine.slots ≠ [] → (t.vm k).machine.slots
      = (s₀.machine k).slots ++ [.table s₀.heap.tables.size, key, w]) :
    Ends (onMachine k (Vm.rawSet (-3)) t)
      (fun _ u => Laden False s₀.heap.tables.size (n + 1) u ∧ ∃ es', Filled k s₀ u es')
      fun _ u => Strained s₀.heap.tables.size u := by
  have hends := Vm.rawSet_ends hs
  have hgenuine : t.Genuine → (final (onMachine k (Vm.rawSet (-3)) t)).Genuine :=
    fun ht => ht.onMachine (Vm.yields_rawSet (-3)) (Vm.keeps_rawSet (-3))
  cases hset : Vm.rawSet (-3) (t.vm k) with
  | error f vm =>
      rw [hset] at hends
      obtain ⟨l, rfl⟩ := hends
      rw [onMachine_error hset] at hgenuine ⊢
      exact (h.swells (t := t.withSlots k l)
        ⟨(Fresh.refl t).withSlots l, fun ht => .inl (hgenuine ht)⟩).ends
  | ok _ vm =>
      rw [hset] at hends
      rw [onMachine_ok hset] at hgenuine ⊢
      exact ⟨h.store hends False.elim fun ht => .inl (hgenuine ht), _, (hf.store hst hends).1⟩

/-- A new table on top of genuine values. -/
theorem laden_pushTable (listed : Prop) (k : MachineId) (hs : s.Genuine) :
    ∃ t, onMachine k Vm.pushTable s = .ok () t ∧ Filled k s t []
      ∧ Laden listed s.heap.tables.size 0 t := by
  obtain ⟨t, ht, hf⟩ := pushTable_filled k s
  have hmade : t.Genuine := by
    have hpush := hs.onMachine (k := k) Vm.yields_pushTable Vm.seats_pushTable
    rw [ht] at hpush
    exact hpush
  refine ⟨t, ht, hf, hf.made, fun j => ?_, fun _ => ?_, .inl hmade⟩
  · rw [onMachine_ok (Vm.pushTable_eq (s.vm k))] at ht
    cases ht
    rw [withVm_registry rfl]
    exact Nat.ne_of_lt (hs.registry j)
  · have hempty : t.heap.table s.heap.tables.size = .empty := (Except.ok.inj hf.stored).symm
    rw [hempty]
    exact Table.numbered_empty

/-- What follows an answer of the host's begins in the same session. -/
theorem strained_ofHost {α β : Type} (hs : s.Genuine) (r : Except HostFault α) {f : α → Action β}
    (hf : ∀ x, Ends (f x s) (fun _ t => Strained s.heap.tables.size t)
      fun _ t => Strained s.heap.tables.size t) :
    Ends ((ofHost r >>= f) s) (fun _ t => Strained s.heap.tables.size t)
      fun _ t => Strained s.heap.tables.size t := by
  cases r with
  | error f => exact Or.inl hs
  | ok x => exact hf x

section

variable {pushItem : HostValue → TypeExpr → Action Unit}
  (hitem : ∀ v t, Places ctx k v t (pushItem v t)) (hswells : ∀ v t, Keeps Swells (pushItem v t))

include hitem hswells

/-- A part is pushed on top of the table that is being filled. -/
theorem laden_item (h : Laden listed id n s) (v : HostValue) (type : TypeExpr) :
    Ends (pushItem v type s)
      (fun _ t => Laden listed id n t ∧ Swells s t ∧ ∃ w, Lifted k w s t)
      fun _ t => Strained id t := by
  have hpart := hswells v type s
  cases hr : pushItem v type s with
  | error e t =>
      rw [hr] at hpart
      exact (h.swells hpart).ends
  | ok _ t =>
      rw [hr] at hpart
      obtain ⟨w, hw⟩ := (hitem v type).lays hr
      exact ⟨h.swells hpart, hpart, w, hw.lifted⟩

theorem laden_pushItems (hs₀ : s₀.Genuine) (host : HostType) (i : Nat) (vs : List HostValue)
    (hf : Filled k s₀ s es) (h : Laden True s₀.heap.tables.size i s) :
    Ends (pushItems pushItem k host i vs s) (fun _ u => Strained s₀.heap.tables.size u)
      fun _ u => Strained s₀.heap.tables.size u := by
  induction vs generalizing i s es with
  | nil => exact h.ends
  | cons v vs ih =>
      refine (laden_item hitem hswells h v _).bind fun _ t ⟨ht, hst, w, hw⟩ => ?_
      have hstore := laden_setKey (.int ((i : Int) + 1)) hs₀ hf ht hst.fresh hw
        (fun _ => rfl) fun hnot => absurd trivial hnot
      exact hstore.bind fun _ u ⟨hu, es', hfilled⟩ => ih (i + 1) hfilled hu

theorem laden_pushFields (hs₀ : s₀.Genuine) (v : HostValue) (fs : List (String × TypeExpr))
    (hf : Filled k s₀ s es) (h : Laden False s₀.heap.tables.size n s) :
    Ends (pushFields ctx pushItem k v fs s) (fun _ u => Strained s₀.heap.tables.size u)
      fun _ u => Strained s₀.heap.tables.size u := by
  induction fs generalizing s es n with
  | nil => exact h.ends
  | cons f fs ih =>
      have hmember : Ends (memberOf ctx v f.1 s) (fun _ t => Laden False s₀.heap.tables.size n t
          ∧ ∃ es', Filled k s₀ t es') fun _ t => Strained s₀.heap.tables.size t := by
        have hmember : Keeps Swells (memberOf ctx v f.1) := (holds_memberOf v f.1).keeps
        cases hr : memberOf ctx v f.1 s with
        | error e t =>
            have hst := hmember s
            rw [hr] at hst
            exact (h.swells hst).ends
        | ok x t =>
            have hst := hmember.of_ok hr
            exact ⟨h.swells hst, es, hf.level hst.fresh (levels_memberOf v f.1 s x t hr)⟩
      refine hmember.bind fun x t ⟨ht, es', hft⟩ => ?_
      refine (laden_item hitem hswells ht x f.2).bind fun _ u ⟨hu, htu, w, hw⟩ => ?_
      have hstore := laden_setKey (.str (utf8 f.1)) hs₀ hft hu htu.fresh hw
        False.elim fun _ => trivial
      exact hstore.bind fun _ x ⟨hx, es'', hfilled⟩ => ih hfilled hx

theorem laden_pushEntries (keyType valueType : TypeExpr)
    (entries : List (HostValue × HostValue)) (hf : Filled k s₀ s es)
    (h : Laden False s₀.heap.tables.size n s) :
    Ends (pushEntries pushItem k keyType valueType entries s)
      (fun _ u => Strained s₀.heap.tables.size u) fun _ u => Strained s₀.heap.tables.size u := by
  induction entries generalizing s es n with
  | nil => exact h.ends
  | cons e entries ih =>
      refine (laden_item hitem hswells h e.1 keyType).bind fun _ t ⟨ht, hst, key, hkey⟩ => ?_
      refine (laden_item hitem hswells ht e.2 valueType).bind fun _ u ⟨hu, htu, w, hw⟩ => ?_
      have hsu := hst.fresh.trans htu.fresh
      have hs : (u.vm k).machine.slots ≠ [] → (u.vm k).machine.slots
          = (s₀.machine k).slots ++ [.table s₀.heap.tables.size, key, w] := by
        intro hne
        have hk : k < u.machines.size := lt_size_of_slots (List.length_pos_iff.mpr hne)
        have hk' : k < t.machines.size := by rw [← htu.fresh.size]; exact hk
        have hk'' : k < s.machines.size := by rw [← hst.fresh.size]; exact hk'
        show (u.machine k).slots = _
        rw [hw hk, hkey hk', hf.lifted hk'', List.append_assoc, List.append_assoc]
        rfl
      exact (laden_rawSet hf hu hsu hs).bind fun _ x ⟨hx, es', hfilled⟩ => ih hfilled hx

-- ==================================================================== shapes

theorem swells_pushSequence {v : HostValue} {type : TypeExpr} {host : HostType}
    (htype : pushedAs v type = some host) (hshape : host.shape = .sequence) :
    Keeps Swells (pushSequence pushItem k v host) := by
  refine fun s => ⟨(places_pushSequence hitem htype hshape).fresh s, fun hs => Strained.final ?_⟩
  refine strained_ofHost hs v.length fun length => ?_
  have hfilled : Ends ((do
      onMachine k Vm.pushTable
      pushItems pushItem k host 0 (← ofHost v.items) : Action Unit) s)
        (fun _ t => Strained s.heap.tables.size t) fun _ t => Strained s.heap.tables.size t := by
    obtain ⟨t, ht, hf, hladen⟩ := laden_pushTable True k hs
    rw [bind_ok ht]
    cases v.items with
    | error f => exact hladen.ends
    | ok items => exact laden_pushItems hitem hswells hs host 0 items hf hladen
  split
  · exact Or.inl hs
  · exact hfilled

theorem swells_pushMapping {v : HostValue} {type : TypeExpr} {host : HostType}
    (htype : pushedAs v type = some host) (hshape : host.shape = .mapping) :
    Keeps Swells (pushMapping pushItem k v host) := by
  refine fun s => ⟨(places_pushMapping hitem htype hshape).fresh s, fun hs => Strained.final ?_⟩
  refine strained_ofHost hs v.length fun _ => ?_
  obtain ⟨t, ht, hf, hladen⟩ := laden_pushTable False k hs
  rw [bind_ok ht]
  cases v.entries with
  | error f => exact hladen.ends
  | ok es => exact laden_pushEntries hitem hswells _ _ es hf hladen

theorem swells_pushRecord {v : HostValue} {type : TypeExpr} {host : HostType}
    (htype : pushedAs v type = some host) (hshape : host.shape = .record) :
    Keeps Swells (pushRecord ctx pushItem k v host) := by
  refine fun s => ⟨(places_pushRecord hitem htype hshape).fresh s, fun hs => Strained.final ?_⟩
  refine strained_ofHost hs (hintedFields ctx.classes host.recordName) fun fields => ?_
  obtain ⟨t, ht, hf, hladen⟩ := laden_pushTable False k hs
  rw [bind_ok ht]
  exact laden_pushFields hitem hswells hs v _ hf hladen

/-- Pushing by the shape of a type. -/
theorem swells_pushShape {v : HostValue} {type : TypeExpr} {host : HostType}
    (htype : pushedAs v type = some host) : Keeps Swells (pushShape ctx pushItem k v host) := by
  have hdynamic : Keeps Swells (pushDynamic pushItem k v) :=
    (holds_pushDynamic (fun v t => Passes.of_keeps (hswells v t)) v).keeps
  have hpush : ∀ w : Value, w.Native → Keeps Swells (push k w) := fun _ hw =>
    (Law.holds_push trivial hw).keeps
  unfold pushShape
  cases hshape : host.shape with
  | dynamic => exact hdynamic
  | absent => exact hpush .nil trivial
  | boolean => exact hpush (.bool v.truth) trivial
  | integer => exact (holds_pushIntegerSlot trivial v).keeps
  | float =>
      exact (holds_ofHost _).keeps.bind fun _ => (holds_individualFloat _).keeps.bind fun x =>
        hpush (.float x) trivial
  | textPointer => exact (holds_pushTextPointer trivial v).keeps
  | buffer => exact (holds_pushBuffer trivial v).keeps
  | mapping => exact swells_pushMapping hitem hswells htype hshape
  | record => exact swells_pushRecord hitem hswells htype hshape
  | sequence => exact swells_pushSequence hitem hswells htype hshape
  | callable => exact (holds_pushCallable trivial v host).keeps

end

/-- Pushes to any depth. -/
theorem swells_pushAs (ctx : Context) (k : MachineId) (fuel : Nat) (v : HostValue)
    (type : TypeExpr) : Keeps Swells (pushAs ctx k fuel v type) := by
  induction fuel generalizing v type with
  | zero => exact Keeps.throw _
  | succ fuel ih =>
      intro s
      let described : TypeExpr := if type = .none then .cls v.hostClass else type
      have hdescribe : Keeps Swells (describe ctx described "push") := (holds_describe _ _).keeps
      have hst := hdescribe s
      unfold pushAs
      cases hr : describe ctx described "push" s with
      | error e t =>
          rw [hr] at hst
          rw [bind_error hr]
          exact hst
      | ok host t =>
          rw [hr] at hst
          rw [bind_ok hr]
          have hshape : Passes Swells Swells fun _ => pushShape ctx (pushAs ctx k fuel) k v host :=
            Passes.of_keeps
              (swells_pushShape (places_pushAs ctx k fuel) ih (describe_answered hr).1)
          have hguarded : Keeps Swells (guardedIfChecking k 1 ("push of " ++ host.display)
              (restoringTop k (pushShape ctx (pushAs ctx k fuel) k v host))) :=
            (Law.holds_guardedIfChecking _ _ (Law.holds_restoringTop trivial hshape)).keeps
          exact hst.trans (hguarded t)

end Bridge

end StackBridge
