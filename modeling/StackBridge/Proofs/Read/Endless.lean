import StackBridge.Proofs.Read.Ending
import StackBridge.Proofs.RoundTrip.Describe

/-!
A read that does not end. The registry keeps what reading wraps, and it can be read
as a dictionary itself. Its entries are taken one by one, and where one of them is a
table, a wrapper of that table is made for the dictionary, which is another entry of
the registry, behind all that are there. It is a table again, so the traversal never
gets to the end (`readValue_endless`): what it comes to next is kept up by
`Endless`, from one entry to the next.
-/

namespace StackBridge

namespace Bridge

open Session Direct

variable {ctx : Context} {run : BlockId → Action Unit} {h : Handler} {k : MachineId}
  {s t : Session} {l : List Value} {last : Option Key} {key : Key} {id : TableId}

/-- The registry of a machine holds nothing but tables, under integers, and no
reference has been given back; there is still an entry behind the last one that a
traversal has come to. -/
structure Endless (k : MachineId) (l : List Value) (last : Option Key) (s : Session) : Prop where
  stands : Stands k l s
  wellKept : s.heap.WellKept
  unfreed : s.givenBack k = []
  tables : ∀ key v, (s.registryTable k).find? key = some v → ∃ id, v = .table id
  numbered : ∀ key ∈ (s.registryTable k).order, ∃ n, key = .int n
  full : ∀ key ∈ (s.registryTable k).order, (s.registryTable k).has key = true
  placed : ∀ key ∈ last, key ∈ (s.registryTable k).order
  ahead : ∃ x, (last.toList ++ [x]).Sublist (s.registryTable k).order

namespace Endless

theorem live_eq (hs : Endless k l last s) :
    (s.registryTable k).live = (s.registryTable k).order := List.filter_eq_self.mpr hs.full

/-- Only machines and heap matter. -/
theorem same (hs : Endless k l last s) (hmachines : t.machines = s.machines)
    (hheap : t.heap = s.heap) : Endless k l last t := by
  have hstays : Stays k s t := .of_same hmachines hheap
  have htable : t.registryTable k = s.registryTable k := by
    unfold registryTable Session.machine
    rw [hmachines, hheap]
  have hfree : t.givenBack k = s.givenBack k := by
    unfold givenBack Session.machine
    rw [hmachines]
  exact ⟨hs.stands.stays hstays, hstays.wellKept hs.wellKept, hfree.trans hs.unfreed,
    htable ▸ hs.tables, htable ▸ hs.numbered, htable ▸ hs.full, htable ▸ hs.placed,
    htable ▸ hs.ahead⟩

/-- The traversal comes to a table next. -/
theorem next (hs : Endless k l last s) :
    ∃ key id, (s.registryTable k).next (Table.cursor last) = .ok (some (key, .table id))
      ∧ key ∈ (s.registryTable k).order := by
  have hkept : (s.registryTable k).WellKept := hs.wellKept _
  have hlast : ∀ key ∈ last, (s.registryTable k).has key = true :=
    fun key hkey => hs.full key (hs.placed key hkey)
  obtain ⟨x, hx⟩ := hs.ahead
  rw [← hs.live_eq] at hx
  obtain ⟨ks, hnext, -, -⟩ := Table.next_cursor hkept hlast
  cases hfirst : (s.registryTable k).firstEntry ks with
  | none =>
      rw [hfirst] at hnext
      exact absurd hx (Table.next_ends hkept hlast hnext)
  | some e =>
      obtain ⟨key, v⟩ := e
      rw [hfirst] at hnext
      obtain ⟨hfind, -⟩ := Table.next_reaches hkept hlast hnext
      obtain ⟨id, rfl⟩ := hs.tables key v hfind
      exact ⟨key, id, hnext, hkept.placed key (Table.has_of_find? hfind)⟩

/-- When a table has been kept, it is behind any entry that was there. -/
theorem kept (hs : Endless k l last s) (hkey : key ∈ (s.registryTable k).order) (id : TableId) :
    Endless k l (some key)
      (s.withVm k ((s.vm k).afterRef (s.machine k).slots (.table id))) := by
  let reg := s.registryTable k
  let r : Key := .int (s.vm k).nextRef
  let t := s.withVm k ((s.vm k).afterRef (s.machine k).slots (.table id))
  have hk := hs.stands.machine
  have hstays : Stays k s t := (stays_keep (.table id)).of_ok rfl
  have hmachine : t.machine k = ((s.vm k).afterRef (s.machine k).slots (.table id)).machine :=
    withVm_machine hk _
  have hnone : reg.find? r = none := by
    rcases Vm.nextRef_unused (s.vm k) with hfree | hnone
    · have hunfreed : (s.vm k).machine.free (s.vm k).machine.registry = [] := hs.unfreed
      rw [hunfreed] at hfree
      cases hfree
    · exact hnone
  have hnew : r ∉ reg.order := by
    intro hmem
    have hhas := hs.full r hmem
    unfold Table.has at hhas
    rw [hnone] at hhas
    cases hhas
  have hregistry : (t.machine k).registry = (s.machine k).registry := hstays.registry
  have htable : t.registryTable k = reg.put r (.table id) := by
    have hsize : (s.machine k).registry < s.heap.tables.size := by
      by_contra hout
      have hempty : s.registryTable k = .empty := by
        unfold registryTable Heap.table
        rw [Array.getD_eq_getD_getElem?, Array.getElem?_eq_none (Nat.le_of_not_lt hout)]
        rfl
      rw [hempty] at hkey
      cases hkey
    unfold registryTable
    rw [hregistry]
    exact Heap.table_setTable hsize _
  have horder : (reg.put r (.table id)).order = reg.order ++ [r] := by
    rcases Table.put_order reg r (.table id) with ⟨hmem, -⟩ | ⟨-, ks, rfl | rfl, horder⟩
    · exact absurd hmem hnew
    · exact horder
    · rw [horder, hs.live_eq]
  have hunfreed : t.givenBack k = [] := by
    refine List.eq_nil_iff_forall_not_mem.mpr fun r' hr' => ?_
    unfold givenBack at hr'
    rw [hregistry, hmachine] at hr'
    have hbefore : r' ∈ s.givenBack k := Vm.afterRef_free (s.vm k) _ _ r' hr'
    rw [hs.unfreed] at hbefore
    cases hbefore
  refine ⟨hs.stands.stays hstays, hstays.wellKept hs.wellKept, hunfreed, ?_, ?_, ?_, ?_, ?_⟩
  · intro key v hfind
    rw [htable, Table.find?_put] at hfind
    split at hfind
    · cases hfind
      exact ⟨id, rfl⟩
    · exact hs.tables key v hfind
  · intro x hx
    rw [htable, horder, List.mem_append, List.mem_singleton] at hx
    rcases hx with hx | rfl
    · exact hs.numbered x hx
    · exact ⟨_, rfl⟩
  · intro x hx
    rw [htable, horder, List.mem_append, List.mem_singleton] at hx
    rw [htable, Table.has_put]
    exact hx.symm.imp (fun hx => hx) (hs.full x)
  · rintro x ⟨rfl⟩
    rw [htable, horder]
    exact List.mem_append_left _ hkey
  · refine ⟨r, ?_⟩
    rw [htable, horder]
    exact (List.singleton_sublist.mpr hkey).append (List.Sublist.refl [r])

end Endless

/-- A table of the registry is read as a wrapper, and kept. -/
theorem Endless.table (ctx : Context) (answer : Category → Category → Action HostValue)
    (hs : Endless k l last s) (hkey : key ∈ (s.registryTable k).order) (id : TableId)
    (depth : Nat) :
    ∃ v t, Direct.value ctx k answer (depth + 1) (.table id) .any s = .ok v t
      ∧ Endless k l (some key) t := by
  have haccepts : Accepts (describeIn ctx.classes "read" .any) := accepts_enrol rfl accepts_pure
  obtain ⟨noted, hnoted⟩ := describe_ok "read" haccepts s
  let s' : Session := { s with described := noted }
  have hs' : Endless k l last s' := hs.same rfl rfl
  have hcategory : category k (.table id) s' = .ok .table s' :=
    onMachine_look (Vm.categoryOf_eq rfl _)
  let u := s'.withVm k ((s'.vm k).afterRef (s'.machine k).slots (.table id))
  have hu : Endless k l (some key) u := hs'.kept hkey id
  refine ⟨.wrapper u.wrappers.size false, { u with
    wrappers := u.wrappers.push ⟨k, .ofRef (s'.vm k).nextRef⟩ }, ?_, hu.same rfl rfl⟩
  unfold Direct.value
  rw [bind_ok (hnoted _ rfl)]
  show (category k (.table id) >>= _) s' = _
  rw [bind_ok hcategory]
  rfl

/-- A key of the registry is read as itself. -/
theorem Endless.number (ctx : Context) (answer : Category → Category → Action HostValue)
    (hs : Endless k l last s) (n : Int) (depth : Nat) :
    ∃ t, Direct.value ctx k answer (depth + 1) (.int n) .any s = .ok (.int n) t
      ∧ Endless k l last t := by
  have haccepts : Accepts (describeIn ctx.classes "read" .any) := accepts_enrol rfl accepts_pure
  obtain ⟨noted, hnoted⟩ := describe_ok "read" haccepts s
  let s' : Session := { s with described := noted }
  have hcategory : category k (.int n) s' = .ok .number s' :=
    onMachine_look (Vm.categoryOf_eq rfl _)
  refine ⟨s', ?_, hs.same rfl rfl⟩
  unfold Direct.value
  rw [bind_ok (hnoted _ rfl)]
  show (category k (.int n) >>= _) s' = _
  rw [bind_ok hcategory]
  rfl

/-- With a table on top and its number below it, both are read, and the table is kept
behind them. -/
theorem readEntry_endless (hs : Endless k l last s) (m : Int)
    (hkey : .int m ∈ (s.registryTable k).order) (id : TableId) (fuel depth : Nat) :
    ∃ (v : HostValue) (t u : Session), readAs ctx run fuel k h (depth + 1) (-1) .any
          (s.withSlots k (l ++ [.int m, .table id]))
        = .ok v (t.withSlots k (l ++ [.int m, .table id]))
      ∧ readAs ctx run fuel k h (depth + 1) (-2) .any (t.withSlots k (l ++ [.int m, .table id]))
        = .ok (.int m) (u.withSlots k (l ++ [.int m, .table id]))
      ∧ Endless k l (some (.int m)) u := by
  let answer := handle ctx run k h
  have hdynamic : ∀ host, TypeExpr.any.hostType? = some host → host.shape = .dynamic := by
    rintro host ⟨rfl⟩
    rfl
  have htop : Shows k (l ++ [.int m, .table id]) (-1) (.table id) s := by
    have htop := shows_top (hs.stands.append [.int m]) (.table id)
    rwa [List.append_assoc] at htop
  obtain ⟨v, t, ht, hst⟩ := hs.table ctx answer hkey id depth
  obtain ⟨u, hu, hsu⟩ := hst.number ctx answer m depth
  have hvalue : Level k (l ++ [.int m, .table id])
      (Direct.value ctx k answer (depth + 1) (.table id) .any s) (readAs ctx run fuel k h (depth + 1)
        (-1) .any (s.withSlots k (l ++ [.int m, .table id]))) :=
    level_dynamic (hs.stands.append _) htop hdynamic fuel depth
  have hnumber : Level k (l ++ [.int m, .table id])
      (Direct.value ctx k answer (depth + 1) (.int m) .any t) (readAs ctx run fuel k h (depth + 1)
        (-2) .any (t.withSlots k (l ++ [.int m, .table id]))) :=
    level_dynamic (hst.stands.append _) (shows_second hst.stands _ _) hdynamic fuel depth
  rw [ht] at hvalue
  rw [hu] at hnumber
  exact ⟨v, t, u, hvalue, hnumber, hsu⟩

/-- However much fuel there is, the traversal uses it up. -/
theorem readEntries_endless (hs : Endless k l last s) (fuel depth n : Nat)
    (got : List (HostValue × HostValue)) :
    ∃ u, readEntries (readAs ctx run fuel k h (depth + 1)) k registryIndex .any .any n got
      (s.withSlots k (l ++ [Table.cursor last])) = .error .exhausted u := by
  induction n generalizing s last got with
  | zero => exact ⟨_, rfl⟩
  | succ n ih =>
      obtain ⟨key, id, hnext, hkey⟩ := hs.next
      obtain ⟨m, rfl⟩ := hs.numbered key hkey
      obtain ⟨b, fs, hf, hb⟩ := hs.stands.framed
      have hmore : onMachine k (Vm.next registryIndex) (s.withSlots k (l ++ [Table.cursor last]))
          = .ok true (s.withSlots k (l ++ [.int m, .table id])) :=
        onMachine_withSlots hs.stands.machine (Vm.next_more (frames_withSlots hf (l ++ [_])) rfl hb
          (Vm.tableAt_eq (Vm.valueAt?_registry _)) hnext)
      obtain ⟨v, t, u, hvalue, hnumber, hu⟩ := readEntry_endless hs m hkey id fuel depth
      have hpop : onMachine k (Vm.pop 1) (u.withSlots k (l ++ [.int m, .table id]))
          = .ok () (u.withSlots k (l ++ [.int m])) := by
        have hpop := pop_withSlots (hu.stands.append [.int m]) (.table id)
        rwa [List.append_assoc] at hpop
      have hinsert : ∀ w, ofHost (Dict.insert got (.int m) v) w
          = .ok (Dict.put (.int m) v got) w := fun _ => rfl
      unfold readEntries
      rw [bind_ok hmore, if_neg (by decide), bind_ok hvalue, bind_ok hnumber, bind_ok hpop,
        bind_ok (hinsert _)]
      exact ih hu _

/-- Restoring the top does not hide that the fuel is used up. -/
theorem restoringTop_exhausted {α : Type} {a : Action α} {b : Nat} {fs : List Nat} {u : Session}
    (hf : (s.machine k).frames = b :: fs) (ha : a s = .error .exhausted u) :
    ∃ u, restoringTop k a s = .error .exhausted u := by
  unfold restoringTop
  rw [bind_ok (getTop_eq hf)]
  unfold onStop
  rw [ha]
  dsimp only
  split <;> exact ⟨_, rfl⟩

theorem guarded_exhausted {α : Type} {a : Action α} {b : Nat} {fs : List Nat} {u : Session}
    (what : String) (hf : (s.machine k).frames = b :: fs) (ha : a s = .error .exhausted u) :
    guardedIfChecking k 0 what a s = .error .exhausted u := by
  unfold guardedIfChecking
  rw [bind_ok (get_apply s)]
  by_cases hchecks : s.checks = true
  · rw [if_pos hchecks]
    unfold guarded
    rw [bind_ok (getTop_eq hf)]
    refine bind_error ?_
    unfold handling
    rw [ha]
  · rw [if_neg hchecks]
    exact ha

/-- Reading the registry as a dictionary does not end. -/
theorem readValue_endless (hs : Endless k (s.machine k).slots none s) (fuel : Nat) :
    ∃ u, readValue ctx run fuel k h registryIndex (.cls (.mapping .plain)) s
      = .error .exhausted u := by
  have haccepts : Accepts (describeIn ctx.classes "read" (.cls (.mapping .plain))) :=
    accepts_enrol rfl accepts_pure
  obtain ⟨noted, hnoted⟩ := describe_ok "read" haccepts s
  let s' : Session := { s with described := noted }
  have hs' : Endless k (s'.machine k).slots none s' := hs.same rfl rfl
  obtain ⟨b, fs, hf, -⟩ := hs'.stands.framed
  have hcategory : onMachine k (Vm.categoryAt registryIndex) s' = .ok .table s' :=
    onMachine_look rfl
  have hentries : ∃ u, (do
      push k .nil
      readEntries (readAs ctx run fuel k h 244) k registryIndex .any .any fuel []) s'
        = .error .exhausted u := by
    rw [bind_ok (push_eq s' k .nil)]
    exact readEntries_endless hs' fuel 243 fuel []
  obtain ⟨u, hu⟩ := hentries
  obtain ⟨u, hu⟩ := restoringTop_exhausted hf hu
  have hhost : readHost ctx run (readAs ctx run fuel k h 244) fuel k registryIndex
      ⟨.cls (.mapping .plain), .mapping⟩ h s' = .error .exhausted u := by
    unfold readHost
    rw [if_neg (by decide), bind_ok hcategory, if_neg (by decide)]
    unfold readShape readMapping
    dsimp only
    rw [bind_ok (absIndex_registry s')]
    exact bind_error hu
  refine ⟨u, ?_⟩
  show readAs ctx run fuel k h (244 + 1) registryIndex _ s = _
  unfold readAs
  rw [bind_ok (hnoted _ rfl)]
  exact guarded_exhausted _ hf hhost

/-- The state after a table has been kept in the registry. -/
def tableKept : Session := afterOps plain [.newTable, .ref registryIndex]

/-- With one table kept in it, the registry is read as a dictionary without end: no
amount of fuel is enough, although the type is described and its key and value types
are nothing but dynamic. -/
theorem registry_read_endless :
    Reachable plain tableKept ∧ 0 < tableKept.machines.size
      ∧ (tableKept.machine 0).closed = false
      ∧ Supported plain.classes (.cls (.mapping .plain))
      ∧ ∀ fuel, ∃ u, readValue plain (runBlock plain 9) fuel 0 .standard registryIndex
          (.cls (.mapping .plain)) tableKept = .error .exhausted u := by
  have hs : Reachable plain tableKept := afterOps_reachable rfl _
  have hopen : (tableKept.machine 0).closed = false := by decide +kernel
  have horder : (tableKept.registryTable 0).order = [.int 1] := by decide +kernel
  have hentries : (tableKept.registryTable 0).entries = [(.int 1, .table 1)] := by decide +kernel
  have hsupported : Supported plain.classes (.cls (.mapping .plain)) := by
    refine .of_nested ⟨rfl, [], rfl⟩ ?_
    rintro u ⟨us, ⟨rfl⟩, hu⟩
    cases hu
  have hsize : 0 < tableKept.machines.size := by decide +kernel
  obtain ⟨-, b, fs, hf, hb⟩ := hs.live hopen
  have htable : tableKept.registryTable 0 = ⟨[(.int 1, .table 1)], [.int 1]⟩ := by
    rw [← horder, ← hentries]
  have hendless : Endless 0 (tableKept.machine 0).slots none tableKept := by
    refine ⟨⟨hsize, b, fs, hf, hb⟩, hs.wellKept, by decide +kernel, ?_, ?_, ?_, nofun, .int 1, ?_⟩
    · intro key v hfind
      rw [htable] at hfind
      obtain ⟨e, he, rfl⟩ := Option.map_eq_some_iff.mp hfind
      obtain rfl := List.mem_singleton.mp (List.mem_of_find?_eq_some he)
      exact ⟨1, rfl⟩
    · intro key hkey
      rw [horder, List.mem_singleton] at hkey
      exact ⟨1, hkey⟩
    · intro key hkey
      rw [horder, List.mem_singleton] at hkey
      rw [htable, hkey]
      rfl
    · rw [horder]
      exact List.Sublist.refl _
  exact ⟨hs, hsize, hopen, hsupported, readValue_endless hendless⟩

end Bridge

end StackBridge
