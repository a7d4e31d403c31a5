import StackBridge.Proofs.Machine.Traversal
import StackBridge.Proofs.Push.Fresh
import StackBridge.Proofs.Read.Gains

/-!
The references of wrappers. A machine's registry and its wrappers account for
each other (`Tracked`): every wrapper that holds on to an entry has a reference
of its own, every entry is such a wrapper's, and what has been given back is
neither an entry nor given back twice.

A reference comes from what has been given back, and otherwise from the border
of the registry. Both are no keys, so whatever the wrappers made and released
before, a new wrapper shares its reference with none (`Tracked.keep`), and
releasing one takes away its own entry (`Tracked.giveBack`).
-/

namespace StackBridge

namespace Vm

variable {vm vm' : Vm} {index : Int} {r : Int} {v : Value} {f : Failure}

/-- A machine after a reference of its registry has been given back. -/
def afterUnref (vm : Vm) (r : Int) : Vm where
  heap := vm.heap.setTable vm.machine.registry
    ((vm.heap.table vm.machine.registry).erase (.int r))
  machine := vm.machine.setFree vm.machine.registry (r :: vm.machine.free vm.machine.registry)

theorem unref_apply (hr : 0 ≤ r) : unref registryIndex r vm = .ok () (vm.afterUnref r) := by
  have hset : (vm.heap.table vm.machine.registry).set (.int r) .nil
      = .ok ((vm.heap.table vm.machine.registry).erase (.int r)) := rfl
  unfold unref
  rw [if_neg (by omega), bind_ok (tableAt_eq (valueAt?_registry vm)), bind_ok (store_eq hset)]
  rfl

/-- The negative references stand for no entry. -/
theorem unref_none (hr : r < 0) : unref index r vm = .ok () vm := by
  unfold unref
  rw [if_pos hr]
  rfl

/-- A failing take leaves the machine as it is. -/
theorem take_stopped (h : take vm = .error f vm') : vm' = vm := by
  unfold take at h
  cases hf : vm.machine.frames with
  | nil =>
      rw [bind_error (base_none hf)] at h
      cases h
      rfl
  | cons b fs =>
      rw [bind_ok (base_eq hf)] at h
      simp only [getMachine, bind_apply, get_apply, pure_apply] at h
      split at h
      · cases h
        rfl
      · cases hlast : vm.machine.slots.getLast? with
        | none =>
            rw [hlast] at h
            cases h
            rfl
        | some v =>
            rw [hlast] at h
            cases h

/-- What is kept in the registry is the top, if there is one in the running
frame. -/
theorem ref_cases (vm : Vm) :
    (∃ f, ref registryIndex vm = .error f vm)
      ∨ ∃ l v, vm.machine.slots = l ++ [v]
        ∧ (v = .nil ∧ ref registryIndex vm = .ok nilRef (vm.withSlots l)
          ∨ v ≠ .nil ∧ ref registryIndex vm = .ok vm.nextRef (vm.afterRef l v)) := by
  cases htake : take vm with
  | error f vm' =>
      obtain rfl := take_stopped htake
      have habs : absIndex registryIndex vm' = .ok registryIndex vm' := rfl
      left
      unfold ref
      rw [bind_ok habs, bind_ok (tableAt_eq (valueAt?_registry vm')), bind_error htake]
      exact ⟨f, rfl⟩
  | ok v vm' =>
      obtain ⟨l, b, fs, hf, hs, hb, _⟩ := take_answered htake
      refine Or.inr ⟨l, v, hs, ?_⟩
      by_cases hv : v = .nil
      · subst hv
        exact Or.inl ⟨rfl, ref_nil hf hs hb⟩
      · exact Or.inr ⟨hv, ref_apply _ hf hs hb hv⟩

end Vm

namespace Session

variable {s t u : Session} {i j : MachineId} {id : Nat} {r : Int} {v : Value}

-- =================================================================== wrappers

theorem wrapped?_entry (h : s.wrapper id = ⟨j, .entry r⟩) :
    s.wrapped? id = some ((s.registryTable j).get (.int r)) := by
  unfold wrapped?
  rw [h]
  rfl

theorem wrapped?_nil (h : s.wrapper id = ⟨j, .nil⟩) : s.wrapped? id = some .nil := by
  unfold wrapped?
  rw [h]

theorem wrapped?_released (h : s.wrapper id = ⟨j, .released⟩) : s.wrapped? id = none := by
  unfold wrapped?
  rw [h]

/-- There are no wrappers from some number on. -/
theorem wrapper_beyond (h : s.wrappers.size ≤ id) : s.wrapper id = ⟨0, .released⟩ := by
  simp [wrapper, Array.getD_eq_getD_getElem?, h]

/-- A wrapper that holds on to something is there. -/
theorem lt_size_of_wrapper {a : Anchor} (h : s.wrapper id = ⟨j, a⟩) (ha : a ≠ .released) :
    id < s.wrappers.size := by
  by_contra hid
  rw [wrapper_beyond (Nat.le_of_not_lt hid)] at h
  injection h with _ hanchor
  exact ha hanchor.symm

-- ================================================================== accounts

/-- A registry with what has been given back of it, and the wrappers on its
machine, account for each other. -/
structure Accounts (j : MachineId) (wrapper : Nat → Wrapper) (registry : Table)
    (given : List Int) : Prop where
  distinct : ∀ {id id' r}, wrapper id = ⟨j, .entry r⟩ → wrapper id' = ⟨j, .entry r⟩ → id = id'
  positive : ∀ {id r}, wrapper id = ⟨j, .entry r⟩ → 0 < r
  kept : ∀ {id r}, wrapper id = ⟨j, .entry r⟩ → registry.has (.int r) = true
  owned : ∀ {key}, registry.has key = true → ∃ id r, key = .int r ∧ wrapper id = ⟨j, .entry r⟩
  once : (registry.entries.map (·.1)).Nodup
  givenOnce : given.Nodup
  unused : ∀ r ∈ given, 0 < r ∧ registry.has (.int r) = false

namespace Accounts

variable {wrapper wrapper' : Nat → Wrapper} {registry : Table} {given given' : List Int} {n : Nat}

/-- Wrappers without an entry, and those on other machines, do not count. -/
theorem congr (h : Accounts j wrapper registry given)
    (hw : ∀ id r, wrapper' id = ⟨j, .entry r⟩ ↔ wrapper id = ⟨j, .entry r⟩) :
    Accounts j wrapper' registry given where
  distinct hid hid' := h.distinct ((hw _ _).mp hid) ((hw _ _).mp hid')
  positive hid := h.positive ((hw _ _).mp hid)
  kept hid := h.kept ((hw _ _).mp hid)
  owned hkey := by
    obtain ⟨id, r, hr, hid⟩ := h.owned hkey
    exact ⟨id, r, hr, (hw _ _).mpr hid⟩
  once := h.once
  givenOnce := h.givenOnce
  unused := h.unused

/-- A value is kept for a new wrapper under a reference that is in no use. -/
theorem keep (h : Accounts j wrapper registry given) (hr : 0 < r)
    (hnew : registry.has (.int r) = false) (hgiven : given'.Sublist given) (hmem : r ∉ given')
    (hn : ∀ r, wrapper n ≠ ⟨j, .entry r⟩)
    (hw : ∀ id, wrapper' id = if id = n then ⟨j, .entry r⟩ else wrapper id) (v : Value) :
    Accounts j wrapper' (registry.put (.int r) v) given' := by
  have hold : ∀ {id r'}, wrapper' id = ⟨j, .entry r'⟩ →
      id = n ∧ r' = r ∨ id ≠ n ∧ r' ≠ r ∧ wrapper id = ⟨j, .entry r'⟩ := by
    intro id r' hid
    rw [hw] at hid
    split at hid
    · rename_i heq
      cases hid
      exact Or.inl ⟨heq, rfl⟩
    · rename_i hne
      refine Or.inr ⟨hne, ?_, hid⟩
      rintro rfl
      have hhas := h.kept hid
      rw [hnew] at hhas
      cases hhas
  refine ⟨fun hid hid' => ?_, fun hid => ?_, fun hid => ?_, fun hkey => ?_, ?_,
    hgiven.nodup h.givenOnce, fun r' hr' => ?_⟩
  · rcases hold hid with ⟨hid, hr₁⟩ | ⟨_, hr₁, hid⟩
    · rcases hold hid' with ⟨hid', _⟩ | ⟨_, hr₂, _⟩
      · exact hid.trans hid'.symm
      · exact absurd hr₁ hr₂
    · rcases hold hid' with ⟨_, hr₂⟩ | ⟨_, _, hid'⟩
      · exact absurd hr₂ hr₁
      · exact h.distinct hid hid'
  · rcases hold hid with ⟨_, rfl⟩ | ⟨_, _, hid⟩
    · exact hr
    · exact h.positive hid
  · rw [Table.has_put]
    rcases hold hid with ⟨_, rfl⟩ | ⟨_, _, hid⟩
    · exact Or.inl rfl
    · exact Or.inr (h.kept hid)
  · rcases Table.has_put.mp hkey with rfl | hkey
    · exact ⟨n, r, rfl, by rw [hw, if_pos rfl]⟩
    · obtain ⟨id, r', rfl, hid⟩ := h.owned hkey
      refine ⟨id, r', rfl, ?_⟩
      rw [hw, if_neg, hid]
      rintro rfl
      exact hn r' hid
  · have hnot : Key.int r ∉ registry.entries.map (·.1) := by
      rw [← Table.has_iff, hnew]
      decide
    show ((Table.putEntry (.int r) v (registry.position (.int r)).entries).map (·.1)).Nodup
    rw [Table.position_entries, Table.putEntry_new hnot, List.map_append]
    exact List.nodup_append_comm.mp (List.nodup_cons.mpr ⟨hnot, h.once⟩)
  · obtain ⟨hpos, hunused⟩ := h.unused r' (hgiven.subset hr')
    refine ⟨hpos, Bool.eq_false_iff.mpr fun hhas => ?_⟩
    rcases Table.has_put.mp hhas with heq | hhas
    · cases heq
      exact hmem hr'
    · rw [hunused] at hhas
      cases hhas

/-- A wrapper gives its reference back, and its entry goes. -/
theorem giveBack (h : Accounts j wrapper registry given) (hn : wrapper n = ⟨j, .entry r⟩)
    (hw : ∀ id, wrapper' id = if id = n then ⟨j, .released⟩ else wrapper id) :
    Accounts j wrapper' (registry.erase (.int r)) (r :: given) := by
  have hold : ∀ {id r'}, wrapper' id = ⟨j, .entry r'⟩ →
      wrapper id = ⟨j, .entry r'⟩ ∧ r' ≠ r := by
    intro id r' hid
    rw [hw] at hid
    split at hid
    · cases hid
    · rename_i hne
      refine ⟨hid, ?_⟩
      rintro rfl
      exact hne (h.distinct hid hn)
  refine ⟨fun hid hid' => h.distinct (hold hid).1 (hold hid').1, fun hid => h.positive (hold hid).1,
    fun hid => ?_, fun hkey => ?_, ?_, List.nodup_cons.mpr ⟨fun hmem => ?_, h.givenOnce⟩,
    fun r' hr' => ?_⟩
  · obtain ⟨hid, hne⟩ := hold hid
    rw [Table.has_erase]
    exact ⟨fun heq => hne (Key.int.inj heq), h.kept hid⟩
  · obtain ⟨hne, hkey⟩ := Table.has_erase.mp hkey
    obtain ⟨id, r', rfl, hid⟩ := h.owned hkey
    refine ⟨id, r', rfl, ?_⟩
    rw [hw, if_neg, hid]
    rintro rfl
    rw [hn] at hid
    cases hid
    exact hne rfl
  · exact h.once.sublist (List.filter_sublist.map _)
  · have hunused := (h.unused r hmem).2
    rw [h.kept hn] at hunused
    cases hunused
  · rcases List.mem_cons.mp hr' with rfl | hr'
    · exact ⟨h.positive hn, Bool.eq_false_iff.mpr fun hhas => (Table.has_erase.mp hhas).1 rfl⟩
    · obtain ⟨hpos, hunused⟩ := h.unused r' hr'
      refine ⟨hpos, Bool.eq_false_iff.mpr fun hhas => ?_⟩
      rw [(Table.has_erase.mp hhas).2] at hunused
      cases hunused

end Accounts

/-- An open machine has a registry to itself, and the registry and the wrappers
account for each other. -/
structure Tracked (j : MachineId) (s : Session) : Prop where
  there : j < s.machines.size
  opened : (s.machine j).closed = false
  registry : (s.machine j).registry < s.heap.tables.size
  apart : ∀ i < s.machines.size, i ≠ j → (s.machine i).registry ≠ (s.machine j).registry
  homes : ∀ id < s.wrappers.size, (s.wrapper id).machine < s.machines.size
  accounts : Accounts j s.wrapper (s.registryTable j) (s.givenBack j)

/-- Between two sessions nothing has happened to the wrappers, to a machine's
registry and to its references, and no other machine has got that registry. -/
structure Spares (j : MachineId) (s t : Session) : Prop where
  wrappers : t.wrappers = s.wrappers
  size : t.machines.size = s.machines.size
  tables : s.heap.tables.size ≤ t.heap.tables.size
  machine : ∀ i,
    ((t.machine i).closed = (s.machine i).closed ∧ (t.machine i).registry = (s.machine i).registry)
      ∨ (t.machine i).closed = true ∧ s.heap.tables.size ≤ (t.machine i).registry
  entries : (t.machine j).closed = false → (s.machine j).registry < s.heap.tables.size →
    t.registryTable j = s.registryTable j
  givenBack : (t.machine j).closed = false → t.givenBack j = s.givenBack j

namespace Spares

theorem wrapper (h : Spares j s t) (id : Nat) : t.wrapper id = s.wrapper id := by
  unfold Session.wrapper
  rw [h.wrappers]

/-- The machine itself, if it is open afterwards. -/
theorem same (h : Spares j s t) (hopen : (t.machine i).closed = false) :
    (s.machine i).closed = false ∧ (t.machine i).registry = (s.machine i).registry := by
  rcases h.machine i with ⟨hclosed, hregistry⟩ | ⟨hclosed, _⟩
  · exact ⟨hclosed.symm.trans hopen, hregistry⟩
  · rw [hclosed] at hopen
    cases hopen

/-- Making objects and moving values spares every registry. -/
theorem of_fresh (h : Fresh s t) : Spares j s t where
  wrappers := h.wrappers
  size := h.size
  tables := h.tables
  machine i := (h.machine i).imp_left fun hm => ⟨hm.closed, hm.registry⟩
  entries hopen hregistry := by
    unfold registryTable
    rw [(h.remembers hopen).registry, h.table _ hregistry]
  givenBack hopen := by
    have hm := h.remembers hopen
    unfold Session.givenBack Machine.free
    rw [hm.registry, hm.freeRefs]

end Spares

namespace Tracked

/-- What spares the registry leaves the accounts as they are. -/
theorem spares (h : Tracked j s) (hp : Spares j s t) (hopen : (t.machine j).closed = false) :
    Tracked j t where
  there := by rw [hp.size]; exact h.there
  opened := hopen
  registry := by
    rw [(hp.same hopen).2]
    exact Nat.lt_of_lt_of_le h.registry hp.tables
  apart i hi hij := by
    rw [hp.size] at hi
    rw [(hp.same hopen).2]
    rcases hp.machine i with ⟨_, hsame⟩ | ⟨_, hnew⟩
    · rw [hsame]
      exact h.apart i hi hij
    · exact Nat.ne_of_gt (Nat.lt_of_lt_of_le h.registry hnew)
  homes id hid := by
    rw [hp.wrappers] at hid
    rw [hp.wrapper, hp.size]
    exact h.homes id hid
  accounts := by
    rw [hp.entries hopen h.registry, hp.givenBack hopen]
    exact h.accounts.congr fun id r => by rw [hp.wrapper]

end Tracked

-- =================================================================== moments

/-- A wrapper that is the same holds the same value, if the entry of its
registry is the same. -/
theorem wrapped?_same (hw : t.wrapper id = s.wrapper id) (hj : (s.wrapper id).machine = j)
    (hget : ∀ r, s.wrapper id = ⟨j, .entry r⟩ →
      (t.registryTable j).get (.int r) = (s.registryTable j).get (.int r)) :
    t.wrapped? id = s.wrapped? id := by
  generalize hs : s.wrapper id = w at hw hj hget
  obtain ⟨_, anchor⟩ := w
  subst hj
  cases anchor with
  | released => rw [wrapped?_released hs, wrapped?_released hw]
  | nil => rw [wrapped?_nil hs, wrapped?_nil hw]
  | entry r => rw [wrapped?_entry hs, wrapped?_entry hw, hget r rfl]

/-- What is so at a later moment: the accounts are in order, and a wrapper holds
what it held unless it has been released. -/
structure Later (j : MachineId) (s t : Session) : Prop where
  tracked : Tracked j t
  wrappers : s.wrappers.size ≤ t.wrappers.size
  held : ∀ id < s.wrappers.size, (s.wrapper id).machine = j →
    t.wrapper id = ⟨j, .released⟩ ∨ t.wrapper id = s.wrapper id ∧ t.wrapped? id = s.wrapped? id

theorem Later.refl (h : Tracked j s) : Later j s s :=
  ⟨h, Nat.le_refl _, fun _ _ _ => Or.inr ⟨rfl, rfl⟩⟩

theorem Later.trans (h : Later j s t) (h' : Later j t u) : Later j s u where
  tracked := h'.tracked
  wrappers := Nat.le_trans h.wrappers h'.wrappers
  held id hid hj := by
    have hid' : id < t.wrappers.size := Nat.lt_of_lt_of_le hid h.wrappers
    rcases h.held id hid hj with hreleased | ⟨hw, hv⟩
    · rcases h'.held id hid' (by rw [hreleased]) with hreleased' | ⟨hw', _⟩
      · exact Or.inl hreleased'
      · exact Or.inl (hw'.trans hreleased)
    · rcases h'.held id hid' (by rw [hw]; exact hj) with hreleased' | ⟨hw', hv'⟩
      · exact Or.inl hreleased'
      · exact Or.inr ⟨hw'.trans hw, hv'.trans hv⟩

namespace Tracked

theorem later_of_spares (h : Tracked j s) (hp : Spares j s t)
    (hopen : (t.machine j).closed = false) : Later j s t where
  tracked := h.spares hp hopen
  wrappers := Nat.le_of_eq (by rw [hp.wrappers])
  held id _ hj := Or.inr ⟨hp.wrapper id, wrapped?_same (hp.wrapper id) hj fun r _ => by
    rw [hp.entries hopen h.registry]⟩

-- ==================================================================== wrapping

/-- One more wrapper that has no entry in the registry. -/
theorem push (h : Tracked j s) {w : Wrapper} (hw : ∀ r, w ≠ ⟨j, .entry r⟩)
    (hm : w.machine < s.machines.size) :
    Later j s { s with wrappers := s.wrappers.push w } where
  tracked :=
    { there := h.there
      opened := h.opened
      registry := h.registry
      apart := h.apart
      homes := fun id hid => by
        rw [wrapper_push]
        split
        · exact hm
        · rename_i hne
          rw [Array.size_push] at hid
          exact h.homes id (by omega)
      accounts := h.accounts.congr fun id r => by
        rw [wrapper_push]
        split
        · rename_i heq
          rw [heq, wrapper_beyond (Nat.le_refl _)]
          exact ⟨fun he => absurd he (hw r), (nomatch ·)⟩
        · exact Iff.rfl }
  wrappers := by
    rw [Array.size_push]
    exact Nat.le_succ _
  held id hid hj := by
    have hsame : ({ s with wrappers := s.wrappers.push w } : Session).wrapper id = s.wrapper id := by
      rw [wrapper_push, if_neg (Nat.ne_of_lt hid)]
    exact Or.inr ⟨hsame, wrapped?_same hsame hj fun _ _ => rfl⟩

/-- The reference that is handed out next is in no use, and will not be given
out again. -/
theorem nextRef_new (h : Tracked j s) :
    0 < (s.vm j).nextRef ∧ (s.registryTable j).has (.int (s.vm j).nextRef) = false
      ∧ ∃ rest, rest.Sublist (s.givenBack j) ∧ (s.vm j).nextRef ∉ rest
        ∧ ∀ l v, ((s.vm j).afterRef l v).machine.free (s.machine j).registry = rest := by
  have hfree : (s.vm j).machine.free (s.vm j).machine.registry = s.givenBack j := rfl
  unfold Vm.nextRef
  cases hgiven : s.givenBack j with
  | nil =>
      rw [hgiven] at hfree
      rw [hfree]
      have hlength := Table.has_length_succ (s.registryTable j)
      refine ⟨by dsimp only; omega, hlength, [], List.Sublist.refl _, List.not_mem_nil,
        fun l v => ?_⟩
      unfold Vm.afterRef
      rw [hfree]
      exact hfree
  | cons r rest =>
      rw [hgiven] at hfree
      rw [hfree]
      have hnodup := h.accounts.givenOnce
      rw [hgiven] at hnodup
      obtain ⟨hpos, hunused⟩ := h.accounts.unused r (by rw [hgiven]; exact List.mem_cons_self ..)
      refine ⟨hpos, hunused, rest, List.sublist_cons_self .., (List.nodup_cons.mp hnodup).1,
        fun l v => ?_⟩
      unfold Vm.afterRef
      rw [hfree]
      simp [Machine.free, Machine.setFree, Session.vm]

/-- A machine as it is after its registry has been written to. -/
structure Rewrites (j : MachineId) (vm : Vm) (s t : Session) : Prop where
  opened : vm.machine.closed = false
  registry : vm.machine.registry = (s.machine j).registry
  tables : vm.heap.tables.size = s.heap.tables.size
  machines : t.machines = (s.withVm j vm).machines
  heap : t.heap = vm.heap

section

variable {vm : Vm}

theorem rewritten_machine (h : Tracked j s) (ht : Rewrites j vm s t) : t.machine j = vm.machine := by
  have hsame : t.machine j = (s.withVm j vm).machine j := by
    unfold Session.machine
    rw [ht.machines]
  rw [hsame, withVm_machine h.there]

theorem rewritten_registryTable (h : Tracked j s) (ht : Rewrites j vm s t) :
    t.registryTable j = vm.heap.table (s.machine j).registry := by
  unfold registryTable
  rw [h.rewritten_machine ht, ht.registry, ht.heap]

/-- Writing to the registry keeps the accounts in order if its entries still
match the wrappers. -/
theorem rewritten (h : Tracked j s) (ht : Rewrites j vm s t)
    (homes : ∀ id < t.wrappers.size, (t.wrapper id).machine < s.machines.size)
    (accounts : Accounts j t.wrapper (vm.heap.table (s.machine j).registry)
      (vm.machine.free (s.machine j).registry)) : Tracked j t := by
  have hsize : t.machines.size = s.machines.size := by rw [ht.machines, withVm_size]
  have hm := h.rewritten_machine ht
  refine ⟨?_, ?_, ?_, fun i hi hij => ?_, fun id hid => ?_, ?_⟩
  · rw [hsize]
    exact h.there
  · rw [hm]
    exact ht.opened
  · rw [hm, ht.registry, ht.heap, ht.tables]
    exact h.registry
  · rw [hsize] at hi
    have hother : t.machine i = s.machine i := by
      have hsame : t.machine i = (s.withVm j vm).machine i := by
        unfold Session.machine
        rw [ht.machines]
      rw [hsame, withVm_machine_ne (Ne.symm hij)]
    rw [hm, ht.registry, hother]
    exact h.apart i hi hij
  · rw [hsize]
    exact homes id hid
  · unfold givenBack
    rw [h.rewritten_registryTable ht, hm, ht.registry]
    exact accounts

end

/-- What is under other references is not touched. -/
theorem get_of_find? {t t' : Table} (hfind : t'.find? (.int r) = t.find? (.int r)) :
    t'.get (.int r) = t.get (.int r) := by
  show (t'.find? (.int r)).getD .nil = (t.find? (.int r)).getD .nil
  rw [hfind]

/-- A value is kept in the registry for a new wrapper. -/
theorem keep (h : Tracked j s) {l : List Value} {v : Value}
    (ht : Rewrites j ((s.vm j).afterRef l v) s t)
    (hwrappers : t.wrappers = s.wrappers.push ⟨j, .entry (s.vm j).nextRef⟩) :
    Later j s t := by
  obtain ⟨hpos, hnew, rest, hsub, hmem, hrest⟩ := h.nextRef_new
  have hw : ∀ id, t.wrapper id
      = if id = s.wrappers.size then ⟨j, .entry (s.vm j).nextRef⟩ else s.wrapper id := by
    intro id
    rw [← wrapper_push]
    unfold Session.wrapper
    rw [hwrappers]
  have hbeyond : ∀ r, s.wrapper s.wrappers.size ≠ ⟨j, .entry r⟩ := by
    intro r
    rw [wrapper_beyond (Nat.le_refl _)]
    exact fun he => by cases he
  have htable : ((s.vm j).afterRef l v).heap.table (s.machine j).registry
      = (s.registryTable j).put (.int (s.vm j).nextRef) v :=
    Heap.table_setTable h.registry _
  refine ⟨h.rewritten ht (fun id hid => ?_) ?_, ?_, fun id hid hj => ?_⟩
  · rw [hw]
    split
    · exact h.there
    · rename_i hne
      rw [hwrappers, Array.size_push] at hid
      exact h.homes id (by omega)
  · rw [htable, hrest l v]
    exact h.accounts.keep hpos hnew hsub hmem hbeyond hw v
  · rw [hwrappers, Array.size_push]
    exact Nat.le_succ _
  · have hsame : t.wrapper id = s.wrapper id := by rw [hw, if_neg (Nat.ne_of_lt hid)]
    refine Or.inr ⟨hsame, wrapped?_same hsame hj fun r hr => ?_⟩
    rw [h.rewritten_registryTable ht, htable]
    refine get_of_find? ?_
    rw [Table.find?_put, if_neg]
    intro heq
    have hhas := h.accounts.kept hr
    rw [heq, hnew] at hhas
    cases hhas

/-- The new wrapper holds that value. -/
theorem keep_wrapped (h : Tracked j s) {l : List Value} {v : Value}
    (ht : Rewrites j ((s.vm j).afterRef l v) s t)
    (hwrappers : t.wrappers = s.wrappers.push ⟨j, .entry (s.vm j).nextRef⟩) :
    t.wrapped? s.wrappers.size = some v := by
  have hw : t.wrapper s.wrappers.size = ⟨j, .entry (s.vm j).nextRef⟩ := by
    have hpush := wrapper_push s ⟨j, .entry (s.vm j).nextRef⟩ s.wrappers.size
    rw [if_pos rfl] at hpush
    rw [← hpush]
    unfold Session.wrapper
    rw [hwrappers]
  have htable : t.registryTable j = (s.registryTable j).put (.int (s.vm j).nextRef) v := by
    rw [h.rewritten_registryTable ht]
    exact Heap.table_setTable h.registry _
  rw [wrapped?_entry hw, htable]
  show some ((Table.find? _ _).getD .nil) = some v
  rw [Table.find?_put, if_pos rfl]
  rfl

-- =================================================================== releasing

/-- A wrapper without an entry in the registry is released. -/
theorem drop (h : Tracked j s) {n : Nat} (hn : ∀ r, s.wrapper n ≠ ⟨j, .entry r⟩) :
    Later j s { s with
      wrappers := s.wrappers.setIfInBounds n ⟨(s.wrapper n).machine, .released⟩ } := by
  have hw := fun id => wrapper_set s n id ⟨(s.wrapper n).machine, .released⟩
  refine ⟨⟨h.there, h.opened, h.registry, h.apart, fun id hid => ?_, h.accounts.congr fun id r => ?_⟩,
    Nat.le_of_eq (Array.size_setIfInBounds ..).symm, fun id hid hj => ?_⟩
  · rw [Array.size_setIfInBounds] at hid
    rw [hw]
    split
    · rename_i heq
      obtain ⟨rfl, _⟩ := heq
      exact h.homes n hid
    · exact h.homes id hid
  · rw [hw]
    split
    · rename_i heq
      obtain ⟨rfl, _⟩ := heq
      exact ⟨(nomatch ·), fun he => absurd he (hn r)⟩
    · exact Iff.rfl
  · by_cases heq : n = id ∧ n < s.wrappers.size
    · left
      rw [hw, if_pos heq, heq.1, hj]
    · have hsame := (hw id).trans (if_neg heq)
      exact Or.inr ⟨hsame, wrapped?_same hsame hj fun _ _ => rfl⟩

/-- A wrapper is released, and its entry goes from the registry. -/
theorem giveBack (h : Tracked j s) {n : Nat} (hn : s.wrapper n = ⟨j, .entry r⟩)
    (ht : Rewrites j ((s.vm j).afterUnref r) s t)
    (hwrappers : t.wrappers = s.wrappers.setIfInBounds n ⟨j, .released⟩) : Later j s t := by
  have hlt : n < s.wrappers.size := lt_size_of_wrapper hn nofun
  have hw : ∀ id, t.wrapper id = if id = n then ⟨j, .released⟩ else s.wrapper id := by
    intro id
    have hset := wrapper_set s n id ⟨j, .released⟩
    unfold Session.wrapper at hset ⊢
    rw [hwrappers]
    refine hset.trans (if_congr ?_ rfl rfl)
    exact ⟨fun heq => heq.1.symm, fun heq => ⟨heq.symm, hlt⟩⟩
  have htable : ((s.vm j).afterUnref r).heap.table (s.machine j).registry
      = (s.registryTable j).erase (.int r) :=
    Heap.table_setTable h.registry _
  have hfree : ((s.vm j).afterUnref r).machine.free (s.machine j).registry = r :: s.givenBack j := by
    simp [Vm.afterUnref, Session.vm, Machine.free, Machine.setFree, givenBack]
  refine ⟨h.rewritten ht (fun id hid => ?_) ?_, ?_, fun id hid hj => ?_⟩
  · rw [hw]
    split
    · exact h.there
    · rw [hwrappers, Array.size_setIfInBounds] at hid
      exact h.homes id hid
  · rw [htable, hfree]
    exact h.accounts.giveBack hn hw
  · rw [hwrappers, Array.size_setIfInBounds]
  · by_cases heq : id = n
    · left
      rw [hw, if_pos heq]
    · have hsame := (hw id).trans (if_neg heq)
      refine Or.inr ⟨hsame, wrapped?_same hsame hj fun r' hr' => ?_⟩
      rw [h.rewritten_registryTable ht, htable]
      refine get_of_find? ?_
      rw [Table.find?_erase, if_neg]
      intro hkey
      cases hkey
      exact heq (h.accounts.distinct hr' hn)

end Tracked

end Session

end StackBridge
