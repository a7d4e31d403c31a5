import StackBridge.Proofs.Host.Levels
import StackBridge.Proofs.Machine.Holes
import StackBridge.Proofs.Push.Added
import StackBridge.Proofs.RoundTrip.Describe
import StackBridge.Proofs.RoundTrip.Holds

/-!
Pushing a value that fits a type. It always succeeds if its texts can be written
and the value does not nest too deeply, and leaves what stands for the value on
top: `Stores`.

A compound value is pushed into a new table, part after part. `Filling` is what
its parts find: the table on top, with the entries that it has got so far and
nothing else. Each part makes its own tables, which are newer, so neither this
table nor the parts in it are touched by the ones that follow.

What is known of the slots of the parts is a predicate of the heap that lasts
while newer tables are made (`Heap.Lasting`), and `Puts` says that a push leaves a
slot of which it holds. A part may come down to nil: it leaves a hole in the
table, which then has only the entries that are `present`.
-/

namespace StackBridge

/-- What is known of a slot by the tables from a number on, and stays so as long
as they are as they were. -/
def Heap.Lasting (P : Heap → Nat → Value → Prop) : Prop :=
  ∀ {h h' : Heap} {lo lo' : Nat} {w : Value}, P h lo w → Heap.KeepsFrom lo h h' → lo' ≤ lo →
    P h' lo' w

namespace Session

variable {enc : Encoding} {k : MachineId} {s s₀ t : Session} {xs : List Value}
  {P Q : Heap → Nat → Value → Prop} {a : Action Unit}

/-- An open machine in a session that writes texts in an encoding. -/
structure Coded (enc : Encoding) (k : MachineId) (s : Session) : Prop where
  machine : k < s.machines.size
  live : (s.machine k).Live
  encoding : s.encoding = enc

theorem Coded.after (hr : Coded enc k s) (h : Adds k xs s t) : Coded enc k t :=
  ⟨by rw [h.size]; exact hr.machine, h.live hr.live, h.rest.encoding.trans hr.encoding⟩

/-- An open machine in a session that writes texts as UTF-8. -/
structure Ready (k : MachineId) (s : Session) : Prop where
  machine : k < s.machines.size
  live : (s.machine k).Live
  encoding : s.encoding = .utf8

theorem Ready.coded (hr : Ready k s) : Coded .utf8 k s := ⟨hr.machine, hr.live, hr.encoding⟩

theorem Ready.after (hr : Ready k s) (h : Adds k xs s t) : Ready k t :=
  ⟨(hr.coded.after h).machine, (hr.coded.after h).live, (hr.coded.after h).encoding⟩

/-- What a push leaves alone. -/
theorem Adds.keepsFrom (h : Adds k xs s t) (lo : Nat) : Heap.KeepsFrom lo s.heap t.heap :=
  ⟨h.rest.size, fun id _ hid => h.rest.table id hid⟩

/-- An action that puts a slot on top, in new tables, and reports nothing. -/
def Puts (enc : Encoding) (k : MachineId) (a : Action Unit) (P : Heap → Nat → Value → Prop) :
    Prop :=
  ∀ s, Coded enc k s →
    ∃ w t, a s = .ok () t ∧ Adds k [w] s t ∧ P t.heap s.heap.tables.size w ∧ t.reports = s.reports

theorem Puts.mono (ha : Puts enc k a P) (h : ∀ {h lo w}, P h lo w → Q h lo w) :
    Puts enc k a Q := by
  intro s hr
  obtain ⟨w, t, ht, hadds, hw, hreports⟩ := ha s hr
  exact ⟨w, t, ht, hadds, h hw, hreports⟩

/-- An action that leaves what stands for a value on top, in new tables, and
reports nothing. -/
def Stores (enc : Encoding) (k : MachineId) (a : Action Unit) (v : HostValue) : Prop :=
  ∀ s, Coded enc k s →
    ∃ w t, a s = .ok () t ∧ Adds k [w] s t ∧ Holds enc t.heap s.heap.tables.size w v
      ∧ t.reports = s.reports

-- ================================================================= filling

/-- On top of `s₀` there is a new table, with some entries so far. -/
structure Filling (k : MachineId) (s₀ s : Session) (es : List (Key × Value)) : Prop where
  adds : Adds k [.table s₀.heap.tables.size] s₀ s
  made : s.heap.Made s₀.heap.tables.size s₀.heap.tables.size es
  reports : s.reports = s₀.reports

theorem pushTable_filling (hr : Coded enc k s₀) :
    ∃ s, onMachine k Vm.pushTable s₀ = .ok () s ∧ Filling k s₀ s [] := by
  obtain ⟨s, hs, hadds, hheap⟩ := pushTable_ends hr.machine
  refine ⟨s, hs, hadds, ⟨Nat.le_refl _, ?_, ?_⟩, onMachine_reports hs⟩
  · rw [hheap, Array.size_push]
    exact Nat.lt_succ_self _
  · rw [hheap]
    simp [Heap.table, Array.getD_eq_getD_getElem?]
    rfl

namespace Filling

variable {es es' : List (Key × Value)} {key w : Value} {key' : Key}

/-- An action that comes down to storing makes other entries of those that there
are. Parts that are newer than the table are as they were. -/
theorem become (hf : Filling k s₀ s es) (hr : Coded enc k s₀) (h : Adds k xs s₀ t)
    (hreports : t.reports = s.reports) (hkeep : Heap.KeepsFrom s₀.heap.tables.size s.heap t.heap)
    {a : Vm.Action Unit}
    (ha : a (t.vm k) = Vm.store s₀.heap.tables.size key w
      ((t.vm k).withSlots ((s₀.machine k).slots ++ [.table s₀.heap.tables.size])))
    (hset : (Table.ofEntries es).set key w = .ok (.ofEntries es')) :
    ∃ u, onMachine k a t = .ok () u ∧ Filling k s₀ u es'
      ∧ Heap.KeepsFrom (s₀.heap.tables.size + 1) t.heap u.heap := by
  have hmade := hf.made.mono hkeep (Nat.le_refl _)
  rw [← hmade.table] at hset
  obtain ⟨u, hu, hadds, hheap⟩ := storing_ok h hr.machine (Nat.le_refl _) ha hset
  refine ⟨u, hu, ⟨hadds, ⟨Nat.le_refl _, ?_, ?_⟩,
    (onMachine_reports hu).trans (hreports.trans hf.reports)⟩, ?_⟩
  · rw [hheap, Heap.setTable_size]
    exact hmade.high
  · rw [hheap]
    exact Heap.table_setTable hmade.high _
  · rw [hheap]
    exact .setTable (Nat.lt_succ_self _) _

/-- Storing under a new key adds an entry. -/
theorem put (hf : Filling k s₀ s es) (hr : Coded enc k s₀) (h : Adds k xs s₀ t)
    (hreports : t.reports = s.reports)
    (hkeep : Heap.KeepsFrom s₀.heap.tables.size s.heap t.heap) {a : Vm.Action Unit}
    (ha : a (t.vm k) = Vm.store s₀.heap.tables.size key w
      ((t.vm k).withSlots ((s₀.machine k).slots ++ [.table s₀.heap.tables.size])))
    (hkey : key.key = .ok key') (hnew : key' ∉ es.map (·.1)) (hw : w ≠ .nil) :
    ∃ u, onMachine k a t = .ok () u ∧ Filling k s₀ u (es ++ [(key', w)])
      ∧ Heap.KeepsFrom (s₀.heap.tables.size + 1) t.heap u.heap := by
  refine hf.become hr h hreports hkeep ha ?_
  unfold Table.set
  rw [hkey]
  dsimp only
  rw [if_neg hw, Table.put_new hnew]

/-- A part that is pushed and stored under the next number. -/
theorem item {ws : List Value} (hf : Filling k s₀ s (Table.present (Table.numbered ws)))
    (hr : Coded enc k s₀) (ha : Puts enc k a P) (hP : Heap.Lasting P) :
    ∃ w t u, a s = .ok () t
      ∧ onMachine k (Vm.setKey (-2) (.int ((ws.length : Int) + 1))) t = .ok () u
      ∧ Filling k s₀ u (Table.present (Table.numbered (ws ++ [w])))
      ∧ Heap.KeepsFrom (s₀.heap.tables.size + 1) s.heap u.heap
      ∧ P u.heap (s₀.heap.tables.size + 1) w := by
  obtain ⟨w, t, ht, hadds, hw, hreports⟩ := ha s (hr.after hf.adds)
  have hboth : Adds k [.table s₀.heap.tables.size, w] s₀ t := hf.adds.trans hadds
  obtain ⟨u, hu, hfu, hkeep⟩ := hf.become hr hboth hreports (hadds.keepsFrom _)
    (setKey_store hboth hr.live (.int ((ws.length : Int) + 1)))
    (Table.set_present rfl (Table.not_mem_numbered ws) w)
  rw [← Table.numbered_concat] at hfu
  exact ⟨w, t, u, ht, hu, hfu, (hadds.keepsFrom _).trans hkeep,
    hP (hP hw (.refl _ _) hf.made.high) hkeep (Nat.le_refl _)⟩

/-- A part that is pushed and stored under a new key. -/
theorem part {a : Action Unit} {v : HostValue} {us : List Value} {vs : List HostValue}
    (hf : Filling k s₀ s es) (hr : Coded enc k s₀) (ha : Stores enc k a v)
    (hw : HoldsEach enc s.heap (s₀.heap.tables.size + 1) us vs) (key : Value)
    (hkey : key.key = .ok key') (hnew : key' ∉ es.map (·.1)) :
    ∃ w t u, a s = .ok () t ∧ onMachine k (Vm.setKey (-2) key) t = .ok () u
      ∧ Filling k s₀ u (es ++ [(key', w)])
      ∧ HoldsEach enc u.heap (s₀.heap.tables.size + 1) (us ++ [w]) (vs ++ [v]) := by
  obtain ⟨w, t, ht, hadds, hwv, hreports⟩ := ha s (hr.after hf.adds)
  have hboth : Adds k [.table s₀.heap.tables.size, w] s₀ t := hf.adds.trans hadds
  obtain ⟨u, hu, hfu, hkeep⟩ := hf.put hr hboth hreports (hadds.keepsFrom _)
    (setKey_store hboth hr.live key) hkey hnew hwv.ne_nil
  have hold := (hw.mono (hadds.keepsFrom _)).mono hkeep
  have hlast := (hwv.mono (.refl _ _) hf.made.high).mono hkeep (Nat.le_refl _)
  exact ⟨w, t, u, ht, hu, hfu, hold.concat hlast⟩

end Filling

end Session

namespace Bridge

open Session

variable {enc : Encoding} {R : String → Prop} {ctx : Context} {k : MachineId} {s s₀ : Session}
  {pushItem : HostValue → TypeExpr → Action Unit}

-- ========================================================== part after part

/-- The items that follow the ones that are there. -/
theorem pushItems_puts (hr : Coded enc k s₀) {host : HostType}
    {P : HostValue × Nat → Heap → Nat → Value → Prop} (hP : ∀ p, Heap.Lasting (P p))
    (ws : List Value) {vs : List HostValue}
    (hitems : ∀ p ∈ vs.zipIdx ws.length,
      Puts enc k (pushItem p.1 (host.elementType p.2)) (P p))
    (hf : Filling k s₀ s (Table.present (Table.numbered ws))) :
    ∃ ws' t, pushItems pushItem k host ws.length vs s = .ok () t
      ∧ Filling k s₀ t (Table.present (Table.numbered (ws ++ ws')))
      ∧ Heap.KeepsFrom (s₀.heap.tables.size + 1) s.heap t.heap
      ∧ List.Forall₂ (fun w p => P p t.heap (s₀.heap.tables.size + 1) w) ws'
        (vs.zipIdx ws.length) := by
  induction vs generalizing ws s with
  | nil => exact ⟨[], s, rfl, by rw [List.append_nil]; exact hf, .refl _ _, .nil⟩
  | cons v vs ih =>
      obtain ⟨w, t, u, ht, hu, hfu, hkeep, hw⟩ :=
        hf.item hr (hitems (v, ws.length) (List.mem_cons_self ..)) (hP _)
      have hlength : (ws ++ [w]).length = ws.length + 1 := List.length_append
      obtain ⟨ws', x, hx, hfx, hkeep', hws'⟩ := ih (ws ++ [w])
        (by rw [hlength]; exact fun p hp => hitems p (List.mem_cons_of_mem _ hp)) hfu
      rw [hlength] at hx hws'
      rw [List.append_assoc] at hfx
      refine ⟨w :: ws', x, ?_, hfx, hkeep.trans hkeep', .cons (hP _ hw hkeep' (Nat.le_refl _)) hws'⟩
      rw [pushItems, bind_ok ht, bind_ok hu]
      exact hx

/-- The entries that follow the ones that are there, under keys that are values
of one type. -/
theorem pushEntries_puts (hr : Coded enc k s₀) {keyType valueType a : TypeExpr}
    {P : HostValue × HostValue → Heap → Nat → Value → Prop} (hP : ∀ e, Heap.Lasting (P e))
    (ds : List (HostValue × HostValue)) {es : List (HostValue × HostValue)}
    (ps : List (Key × Value)) (hkeys : ∀ e ∈ es, Stores enc k (pushItem e.1 keyType) e.1)
    (hvalues : ∀ e ∈ es, Puts enc k (pushItem e.2 valueType) (P e))
    (hdiffer : KeysDiffer (ds ++ es)) (hfits : ∀ e ∈ ds ++ es, Fits ctx.classes e.1 a)
    (hf : Filling k s₀ s (Table.present ps))
    (hw : HoldsKeys enc s.heap (s₀.heap.tables.size + 1) (ps.map (·.1)) (ds.map (·.1))) :
    ∃ ps' t, pushEntries pushItem k keyType valueType es s = .ok () t
      ∧ Filling k s₀ t (Table.present (ps ++ ps'))
      ∧ Heap.KeepsFrom (s₀.heap.tables.size + 1) s.heap t.heap
      ∧ HoldsKeys enc t.heap (s₀.heap.tables.size + 1) ((ps ++ ps').map (·.1))
        ((ds ++ es).map (·.1))
      ∧ List.Forall₂ (fun p e => P e t.heap (s₀.heap.tables.size + 1) p.2) ps' es := by
  induction es generalizing ds ps s with
  | nil =>
      refine ⟨[], s, rfl, ?_, .refl _ _, ?_, .nil⟩
      · rw [List.append_nil]
        exact hf
      · rw [List.append_nil, List.append_nil]
        exact hw
  | cons e es ih =>
      have hmem : e ∈ ds ++ e :: es := List.mem_append_right _ (List.mem_cons_self ..)
      obtain ⟨key, t, ht, hadds, hheld, hreports⟩ :=
        hkeys e (List.mem_cons_self ..) s (hr.after hf.adds)
      have hkeyed : Adds k [.table s₀.heap.tables.size, key] s₀ t := hf.adds.trans hadds
      obtain ⟨w, u, hu, hadds', hwv, hreports'⟩ :=
        hvalues e (List.mem_cons_self ..) t (hr.after hkeyed)
      have hboth : Adds k [.table s₀.heap.tables.size, key, w] s₀ u := hkeyed.trans hadds'
      have hkeep := (hadds.keepsFrom s₀.heap.tables.size).trans (hadds'.keepsFrom _)
      -- a key is new also when a value is missing under it
      obtain ⟨key', hkey', hnormal, hself⟩ := hheld.normal
      have hnew : key' ∉ ps.map (·.1) := hw.key_new hheld hkey' (hfits e hmem)
        (List.forall_mem_map.mpr fun d hd => hfits d (List.mem_append_left _ hd))
        (List.forall_mem_map.mpr fun d hd => hdiffer.hashable d (List.mem_append_left _ hd))
        (List.forall_mem_map.mpr fun d hd => hdiffer.before hd)
      obtain ⟨x, hx, hfx, hkeep'⟩ := hf.become hr hboth (hreports'.trans hreports) hkeep
        (rawSet_store hboth hr.live) (Table.set_present hkey' hnew w)
      have hlow := hf.made.high
      have hlow' : s₀.heap.tables.size + 1 ≤ t.heap.tables.size :=
        Nat.le_trans hlow hadds.rest.size
      have hall : Heap.KeepsFrom (s₀.heap.tables.size + 1) s.heap x.heap :=
        ((hadds.keepsFrom _).trans (hadds'.keepsFrom _)).trans hkeep'
      have hwx : HoldsKeys enc x.heap (s₀.heap.tables.size + 1) ((ps ++ [(key', w)]).map (·.1))
          ((ds ++ [e]).map (·.1)) := by
        rw [List.map_append, List.map_append]
        exact (hw.mono hall (Nat.le_refl _)).concat hnew hself
          ((hnormal.mono (hadds'.keepsFrom _) hlow).mono hkeep' (Nat.le_refl _))
      rw [List.append_cons] at hdiffer hfits ⊢
      obtain ⟨ps', y, hy, hfy, hkeep'', hwy, hps'⟩ := ih (ds ++ [e]) _
        (fun e' he' => hkeys e' (List.mem_cons_of_mem _ he'))
        (fun e' he' => hvalues e' (List.mem_cons_of_mem _ he')) hdiffer hfits hfx hwx
      have hvalue := hP e (hP e (hP e hwv (.refl _ _) hlow') hkeep' (Nat.le_refl _)) hkeep''
        (Nat.le_refl _)
      rw [List.append_assoc] at hfy hwy
      refine ⟨(key', w) :: ps', y, ?_, hfy, hall.trans hkeep'', hwy, .cons hvalue hps'⟩
      rw [pushEntries, bind_ok ht, bind_ok hu, bind_ok hx]
      exact hy

/-- The fields that follow the ones that are there. -/
theorem pushFields_holds (hr : Coded enc k s₀) {v : HostValue} (gs : List (String × HostValue))
    {fs : List (String × HostValue)} {hinted : List (FieldSpec × TypeExpr)} (ws : List Value)
    (hnames : fs.map (·.1) = hinted.map (·.1.name))
    (hmember : ∀ f ∈ fs, ∀ s, memberOf ctx v f.1 s = .ok f.2 s)
    (hstores : ∀ p ∈ fs.zip hinted, Stores enc k (pushItem p.1.2 p.2.2) p.1.2)
    (hdistinct : ((gs ++ fs).map (·.1)).Nodup)
    (hf : Filling k s₀ s ((fieldKeys gs).zip ws))
    (hw : HoldsEach enc s.heap (s₀.heap.tables.size + 1) ws (gs.map (·.2))) :
    ∃ ws' t, pushFields ctx pushItem k v (hinted.map fun p => (p.1.name, p.2)) s = .ok () t
      ∧ Filling k s₀ t ((fieldKeys (gs ++ fs)).zip ws')
      ∧ HoldsEach enc t.heap (s₀.heap.tables.size + 1) ws' ((gs ++ fs).map (·.2)) := by
  induction fs generalizing gs hinted ws s with
  | nil =>
      cases hinted with
      | nil => exact ⟨ws, s, rfl, by rw [List.append_nil]; exact hf,
          by rw [List.append_nil]; exact hw⟩
      | cons q hinted => cases hnames
  | cons f fs ih =>
      cases hinted with
      | nil => cases hnames
      | cons q hinted =>
          obtain ⟨hhead, hnames⟩ := List.cons.inj hnames
          have hname : f.1 = q.1.name := hhead
          have hmem := hmember f (List.mem_cons_self ..) s
          have hlength : ws.length = gs.length := hw.length.trans (List.length_map _)
          obtain ⟨w, t, u, ht, hu, hfu, hwu⟩ := hf.part hr
            (hstores (f, q) (List.mem_cons_self ..)) hw (.str (utf8 f.1)) rfl
            (fieldKey_new hdistinct hlength)
          have hentries : (fieldKeys gs).zip ws ++ [(Key.str (utf8 f.1), w)]
              = (fieldKeys (gs ++ [f])).zip (ws ++ [w]) := by
            rw [fieldKeys_zip_append hlength]
            rfl
          have hlast : gs.map (·.2) ++ [f.2] = (gs ++ [f]).map (·.2) := by
            rw [List.map_append]
            rfl
          rw [hentries] at hfu
          rw [hlast] at hwu
          rw [List.append_cons] at hdistinct ⊢
          obtain ⟨ws', x, hx, hfx, hwx⟩ := ih (gs ++ [f]) _ hnames
            (fun g hg => hmember g (List.mem_cons_of_mem _ hg))
            (fun p hp => hstores p (List.mem_cons_of_mem _ hp)) hdistinct hfu hwu
          refine ⟨ws', x, ?_, hfx, hwx⟩
          rw [List.map_cons, pushFields, ← hname, bind_ok hmem, bind_ok ht, bind_ok hu]
          exact hx

-- ================================================================= shapes

/-- A push of one slot that stands for a value in every heap. -/
theorem stores_push {a : Action Unit} {w : Value} {v : HostValue}
    (ha : ∀ s, s.encoding = enc → a s = push k w s) (hw : ∀ h lo, Holds enc h lo w v) :
    Stores enc k a v := by
  intro s hr
  refine ⟨w, _, (ha s hr.encoding).trans (push_eq s k w), push_leaves hr.machine w, hw _ _, rfl⟩

/-- A sequence becomes a new table of what becomes of its items. -/
theorem puts_pushSequence {kind : SequenceKind} {vs : List HostValue} {host : HostType}
    {P : HostValue × Nat → Heap → Nat → Value → Prop} (hP : ∀ p, Heap.Lasting (P p))
    (hfixed : host.isFixedTuple = true → vs.length = host.args.length)
    (hitems : ∀ p ∈ vs.zipIdx, Puts enc k (pushItem p.1 (host.elementType p.2)) (P p)) :
    Puts enc k (pushSequence pushItem k (.sequence kind vs) host) fun h lo w =>
      ∃ id ws, w = .table id ∧ h.Made lo id (Table.present (Table.numbered ws))
        ∧ List.Forall₂ (fun w p => P p h lo w) ws vs.zipIdx := by
  intro s hr
  obtain ⟨t, ht, hf⟩ := pushTable_filling hr
  obtain ⟨ws, u, hu, hfu, _, hws⟩ := pushItems_puts hr hP [] hitems hf
  have hlength : (host.isFixedTuple && vs.length != host.args.length) = false := by
    cases hcase : host.isFixedTuple with
    | false => rfl
    | true => simp [hfixed hcase]
  have hcount : ofHost (HostValue.sequence kind vs).length s = .ok vs.length s := rfl
  refine ⟨.table s.heap.tables.size, u, ?_, hfu.adds, ⟨_, ws, rfl, hfu.made, ?_⟩, hfu.reports⟩
  · unfold pushSequence
    rw [bind_ok hcount]
    simp only [hlength, Bool.false_eq_true, if_false]
    rw [bind_ok ht]
    exact hu
  · exact hws.imp fun w p hw => hP p hw (.refl _ _) (Nat.le_succ _)

theorem stores_pushSequence {kind : SequenceKind} {vs : List HostValue} {host : HostType}
    (hfixed : host.isFixedTuple = true → vs.length = host.args.length)
    (hitems : ∀ p ∈ vs.zipIdx, Stores enc k (pushItem p.1 (host.elementType p.2)) p.1) :
    Stores enc k (pushSequence pushItem k (.sequence kind vs) host) (.sequence kind vs) := by
  refine Puts.mono (Q := fun h lo w => Holds enc h lo w (.sequence kind vs)) (puts_pushSequence
    (P := fun p h lo w => Holds enc h lo w p.1) (fun p => Holds.mono) hfixed hitems) ?_
  rintro h lo w ⟨id, ws, rfl, hmade, hws⟩
  have hholds : List.Forall₂ (Holds enc h lo) ws vs := by
    have hmap := List.forall₂_map_right_iff.mpr hws
    rwa [List.zipIdx_map_fst] at hmap
  obtain ⟨hlength, hzip⟩ := List.forall₂_iff_zip.mp hholds
  rw [Table.present_numbered fun w hw => ?_] at hmade
  · exact .sequence kind hmade hlength fun p hp => hzip hp
  · obtain ⟨v, hv⟩ := mem_zip_of_mem hlength hw
    exact (hzip hv).ne_nil

/-- A sequence whose items all have one type. -/
theorem stores_pushSequence_uniform {kind : SequenceKind} {vs : List HostValue} {host : HostType}
    (hfixed : host.isFixedTuple = false)
    (hitems : ∀ v ∈ vs, Stores enc k (pushItem v (host.args.headD .none)) v) :
    Stores enc k (pushSequence pushItem k (.sequence kind vs) host) (.sequence kind vs) := by
  refine stores_pushSequence (fun h => ?_) fun p hp => ?_
  · rw [hfixed] at h
    cases h
  · unfold HostType.elementType
    rw [hfixed]
    exact hitems p.1 (List.fst_mem_of_mem_zipIdx hp)

/-- A mapping becomes a new table of what becomes of its entries. -/
theorem puts_pushMapping {kind : MappingKind} {es : List (HostValue × HostValue)}
    {host : HostType} {a : TypeExpr} {P : HostValue × HostValue → Heap → Nat → Value → Prop}
    (hP : ∀ e, Heap.Lasting (P e))
    (hkeys : ∀ e ∈ es, Stores enc k (pushItem e.1 host.entryTypes.1) e.1)
    (hvalues : ∀ e ∈ es, Puts enc k (pushItem e.2 host.entryTypes.2) (P e))
    (hdiffer : KeysDiffer es) (hfits : ∀ e ∈ es, Fits ctx.classes e.1 a) :
    Puts enc k (pushMapping pushItem k (.mapping kind es) host) fun h lo w =>
      ∃ id ps, w = .table id ∧ h.Made lo id (Table.present ps)
        ∧ HoldsKeys enc h lo (ps.map (·.1)) (es.map (·.1))
        ∧ List.Forall₂ (fun p e => P e h lo p.2) ps es := by
  intro s hr
  obtain ⟨t, ht, hf⟩ := pushTable_filling hr
  obtain ⟨ps, u, hu, hfu, _, hks, hps⟩ :=
    pushEntries_puts hr hP [] [] hkeys hvalues hdiffer hfits hf (.nil _ _)
  have hcount : ofHost (HostValue.mapping kind es).length s = .ok (es.map (·.1)).length s := rfl
  have hlow : s.heap.tables.size ≤ s.heap.tables.size + 1 := Nat.le_succ _
  refine ⟨.table s.heap.tables.size, u, ?_, hfu.adds,
    ⟨_, ps, rfl, hfu.made, hks.mono (.refl _ _) hlow, ?_⟩, hfu.reports⟩
  · unfold pushMapping
    rw [bind_ok hcount, bind_ok ht]
    exact hu
  · exact hps.imp fun p e hw => hP e hw (.refl _ _) hlow

theorem stores_pushMapping {kind : MappingKind} {es : List (HostValue × HostValue)}
    {host : HostType} {a : TypeExpr}
    (hkeys : ∀ e ∈ es, Stores enc k (pushItem e.1 host.entryTypes.1) e.1)
    (hvalues : ∀ e ∈ es, Stores enc k (pushItem e.2 host.entryTypes.2) e.2) (hdiffer : KeysDiffer es)
    (hfits : ∀ e ∈ es, Fits ctx.classes e.1 a) :
    Stores enc k (pushMapping pushItem k (.mapping kind es) host) (.mapping kind es) := by
  refine Puts.mono (Q := fun h lo w => Holds enc h lo w (.mapping kind es)) (puts_pushMapping
    (P := fun e h lo w => Holds enc h lo w e.2) (fun e => Holds.mono) hkeys hvalues hdiffer
    hfits) ?_
  rintro h lo w ⟨id, ps, rfl, hmade, hks, hps⟩
  obtain ⟨hlength, hzip⟩ := List.forall₂_iff_zip.mp hps
  rw [Table.present_eq_self fun p hp => ?_] at hmade
  · refine .mapping kind hmade hlength hks.distinct (List.forall_mem_map.mp hks.normal) ?_ ?_
    · have heach := hks.each.each
      rwa [List.map_map] at heach
    · intro q hq
      rw [List.zip_map] at hq
      obtain ⟨p, hp, rfl⟩ := List.mem_map.mp hq
      exact hzip hp
  · obtain ⟨e, he⟩ := mem_zip_of_mem hlength hp
    exact (hzip he).ne_nil

/-- Only what is no number is told apart from others of its kind. -/
theorem individualFloat_ok {x : Double} (hx : x.isNaN = false) (s : Session) :
    individualFloat x s = .ok x s := by
  unfold individualFloat
  rw [hx]
  rfl

theorem individual_fits {cs : Classes} {v : HostValue} {t : TypeExpr} (hv : Fits cs v t)
    (s : Session) : individual v s = .ok v s := by
  cases hv with
  | @float x number =>
      show (individualFloat x >>= fun y => pure (HostValue.float .plain y)) s = _
      rw [bind_ok (individualFloat_ok number s)]
      rfl
  | _ => rfl

/-- Under different names each value is found by its name. -/
theorem find?_self {α : Type} {fs : List (String × α)} {f : String × α}
    (hdistinct : (fs.map (·.1)).Nodup) (hf : f ∈ fs) : fs.find? (·.1 == f.1) = some f := by
  induction fs with
  | nil => cases hf
  | cons g fs ih =>
      obtain ⟨hnew, hdistinct⟩ := List.nodup_cons.mp hdistinct
      rcases List.mem_cons.mp hf with rfl | hmem
      · simp only [List.find?_cons, beq_self_eq_true]
      · have hne : (g.1 == f.1) = false := by
          refine beq_false_of_ne fun heq => hnew ?_
          show g.1 ∈ fs.map (·.1)
          rw [heq]
          exact List.mem_map_of_mem hmem
        simp only [List.find?_cons, hne]
        exact ih hdistinct hmem

theorem find?_named {α : Type} {fs : List (String × α)} {f : String × α}
    (hdistinct : (fs.map (·.1)).Nodup) (hf : f ∈ fs) :
    (fs.find? (·.1 == f.1)).map (·.2) = some f.2 := by
  rw [find?_self hdistinct hf]
  rfl

/-- The fields of a record are members of it. -/
theorem memberOf_field {name : String} {tuple : Bool} {fields : List (String × HostValue)}
    {f : String × HostValue} {t : TypeExpr} (hdistinct : (fields.map (·.1)).Nodup)
    (hf : f ∈ fields) (hfits : Fits ctx.classes f.2 t) (s : Session) :
    memberOf ctx (.record name tuple fields) f.1 s = .ok f.2 s := by
  have hfield : (HostValue.record name tuple fields).field? f.1 = some f.2 :=
    find?_named hdistinct hf
  have hmember : ctx.classes.member (.record name tuple fields) f.1 = .ok f.2 := by
    unfold Classes.member
    rw [hfield]
  show (individual =<< ofHost (ctx.classes.member (.record name tuple fields) f.1)) s = _
  rw [hmember]
  exact individual_fits hfits s

theorem stores_pushRecord {name : String} {tuple : Bool} {fields : List (String × HostValue)}
    {hinted : List (FieldSpec × TypeExpr)} {host : HostType} (hhost : host.recordName = name)
    (hhints : hintedFields ctx.classes name = .ok hinted)
    (hnames : fields.map (·.1) = hinted.map (·.1.name)) (hdistinct : (fields.map (·.1)).Nodup)
    (hfits : ∀ p ∈ fields.zip hinted, Fits ctx.classes p.1.2 p.2.2)
    (hstores : ∀ p ∈ fields.zip hinted, Stores enc k (pushItem p.1.2 p.2.2) p.1.2) :
    Stores enc k (pushRecord ctx pushItem k (.record name tuple fields) host)
      (.record name tuple fields) := by
  intro s hr
  have hlength := congrArg List.length hnames
  rw [List.length_map, List.length_map] at hlength
  have hmember : ∀ f ∈ fields, ∀ s,
      memberOf ctx (.record name tuple fields) f.1 s = .ok f.2 s := by
    intro f hf s
    obtain ⟨q, hq⟩ := mem_zip_of_mem hlength hf
    exact memberOf_field hdistinct hf (hfits _ hq) s
  obtain ⟨t, ht, hf⟩ := pushTable_filling hr
  obtain ⟨ws, u, hu, hfu, hw⟩ := pushFields_holds hr [] [] hnames hmember
    hstores hdistinct hf (.nil _ _)
  have hlow : s.heap.tables.size ≤ s.heap.tables.size + 1 := Nat.le_succ _
  refine ⟨.table s.heap.tables.size, u, ?_, hfu.adds, .record name tuple hfu.made ?_
    (fun p hp => (hw.each p hp).mono (.refl _ _) hlow), hfu.reports⟩
  · have hopen : ofHost (hintedFields ctx.classes host.recordName) s = .ok hinted s := by
      rw [hhost, hhints]
      rfl
    unfold pushRecord
    rw [bind_ok hopen, bind_ok ht]
    exact hu
  · rw [hw.length, List.length_map]
    rfl

-- ================================================================== pushes

theorem isFixedTuple_bare (kind : SequenceKind) :
    (⟨.cls (.sequence kind), .sequence⟩ : HostType).isFixedTuple = false := by
  cases kind <;> rfl

theorem elementType_bare (kind : SequenceKind) {i : Nat} :
    (⟨.cls (.sequence kind), .sequence⟩ : HostType).elementType i = .none := by
  unfold HostType.elementType
  rw [isFixedTuple_bare]
  rfl

/-- A tuple type with arguments and no ellipsis has a type for each element. -/
theorem isFixedTuple_plain {as : List TypeExpr} {shape : Shape} (hplain : TypeExpr.ellipsis ∉ as)
    (hne : as ≠ []) : (⟨.generic (.sequence .tuple) as, shape⟩ : HostType).isFixedTuple = true := by
  match as, hne with
  | [a], _ => rfl
  | [a, b], _ =>
      cases b with
      | ellipsis => exact absurd (List.mem_cons_of_mem _ (List.mem_cons_self ..)) hplain
      | _ => rfl
  | a :: b :: c :: as, _ => cases b <;> rfl

theorem elementType_plain {as : List TypeExpr} {shape : Shape} {i : Nat} {a : TypeExpr}
    (hplain : TypeExpr.ellipsis ∉ as) (ha : as[i]? = some a) :
    (⟨.generic (.sequence .tuple) as, shape⟩ : HostType).elementType i = a := by
  have hne : as ≠ [] := fun hnil => by rw [hnil] at ha; cases ha
  unfold HostType.elementType
  rw [isFixedTuple_plain hplain hne]
  show as.getD i .none = a
  rw [List.getD_eq_getElem?_getD, ha]
  rfl

theorem elementType_fixed {as : List TypeExpr} {shape : Shape} {i : Nat} {a : TypeExpr}
    (hbuilt : ∀ a ∈ as, Built R a) (ha : as[i]? = some a) :
    (⟨.generic (.sequence .tuple) as, shape⟩ : HostType).elementType i = a :=
  elementType_plain (fun h => nomatch hbuilt _ h) ha

theorem exists_getElem?_zip {α β : Type} {as : List α} {bs : List β} {i : Nat} {a : α}
    (hlength : as.length = bs.length) (ha : as[i]? = some a) :
    ∃ b, bs[i]? = some b ∧ (a, b) ∈ as.zip bs := by
  obtain ⟨hi, rfl⟩ := List.getElem?_eq_some_iff.mp ha
  have hi' : i < bs.length := by rw [← hlength]; exact hi
  refine ⟨bs[i], List.getElem?_eq_getElem hi', List.mem_of_getElem? (i := i) ?_⟩
  exact List.getElem?_zip_eq_some.mpr ⟨ha, List.getElem?_eq_getElem hi'⟩

/-- A value is pushed by the shape of its type or of its class, if its parts
can be pushed as what they fit or without a type. -/
theorem pushShape_stores {v : HostValue} {t u : TypeExpr}
    (hopens : ∀ name, R name → Opens ctx.classes R name) (hbuilt : Built R t)
    (hv : Fits ctx.classes v t) (hw : Written enc v) (hu : u = .cls v.hostClass ∨ u = t)
    {limit : Nat} (hlevels : v.levels ≤ limit + 1)
    (hpart : ∀ {v : HostValue} {t u : TypeExpr}, Built R t → Fits ctx.classes v t →
      Written enc v → u = .none ∨ u = t → v.levels ≤ limit → Stores enc k (pushItem v u) v) :
    ∃ host, u.hostType? = some host ∧ Stores enc k (pushShape ctx pushItem k v host) v := by
  cases hv with
  | boolean b =>
      obtain rfl : u = .cls (.boolean false) := or_self_iff.mp hu
      exact ⟨_, rfl, stores_push (fun _ _ => rfl) fun _ _ => .boolean b⟩
  | @integer n range =>
      obtain rfl : u = .cls (.integer .plain) := or_self_iff.mp hu
      refine ⟨_, rfl, stores_push (w := .int n) (fun s _ => ?_) fun _ _ => .integer _ n⟩
      show (if inRange n then push k (.int n) else _) s = _
      rw [if_pos range]
  | @enum e n range member =>
      obtain rfl : u = .cls (.integer (.enum e)) := or_self_iff.mp hu
      refine ⟨_, rfl, stores_push (w := .int n) (fun s _ => ?_) fun _ _ => .integer _ n⟩
      show (if inRange n then push k (.int n) else _) s = _
      rw [if_pos range]
  | @float x number =>
      obtain rfl : u = .cls (.float .plain) := or_self_iff.mp hu
      refine ⟨_, rfl, stores_push (w := .float x) (fun s _ => ?_) fun _ _ => .float number rfl⟩
      show (individualFloat x >>= fun y => push k (.float y)) s = _
      rw [bind_ok (individualFloat_ok number s)]
  | text x =>
      obtain rfl : u = .cls (.text .plain) := or_self_iff.mp hu
      obtain ⟨b, written⟩ : ∃ b, enc.encode x = .ok b := by
        cases hw with
        | text written => exact ⟨_, written⟩
      refine ⟨_, rfl, stores_push (w := .str b) (fun s hs => ?_) fun _ _ => .text written⟩
      have htext : encodeText x s = .ok b s := by
        unfold encodeText
        rw [bind_ok (get_apply s), hs, written]
        rfl
      show (encodeText x >>= fun b => push k (.str b)) s = _
      rw [bind_ok htext]
  | bytes b =>
      obtain rfl : u = .cls (.bytes .plain) := or_self_iff.mp hu
      exact ⟨_, rfl, stores_push (w := .str b) (fun _ _ => rfl) fun _ _ => .bytes _ b⟩
  | array b =>
      obtain rfl : u = .cls (.bytes .array) := or_self_iff.mp hu
      exact ⟨_, rfl, stores_push (w := .str b) (fun _ _ => rfl) fun _ _ => .bytes _ b⟩
  | @list vs a items =>
      have hparts : ∀ u : TypeExpr, u = .none ∨ u = a → ∀ v ∈ vs, Stores enc k (pushItem v u) v :=
        fun u hu v hv => hpart hbuilt.listItem (items v hv) (hw.item hv) hu
          (Nat.le_trans (HostValue.levels_le_levelsList hv) (Nat.le_of_succ_le_succ hlevels))
      rcases hu with rfl | rfl
      · exact ⟨_, rfl, stores_pushSequence_uniform rfl (hparts .none (Or.inl rfl))⟩
      · exact ⟨_, rfl, stores_pushSequence_uniform rfl (hparts a (Or.inr rfl))⟩
  | @tuple vs a items =>
      have hparts : ∀ u : TypeExpr, u = .none ∨ u = a → ∀ v ∈ vs, Stores enc k (pushItem v u) v :=
        fun u hu v hv => hpart hbuilt.tupleItem (items v hv) (hw.item hv) hu
          (Nat.le_trans (HostValue.levels_le_levelsList hv) (Nat.le_of_succ_le_succ hlevels))
      rcases hu with rfl | rfl
      · exact ⟨_, rfl, stores_pushSequence_uniform rfl (hparts .none (Or.inl rfl))⟩
      · exact ⟨_, rfl, stores_pushSequence_uniform rfl (hparts a (Or.inr rfl))⟩
  | @fixedTuple vs as length items =>
      have hbuilts := Fits.built_items hbuilt length items
      have hparts : ∀ p ∈ vs.zip as, ∀ u : TypeExpr, u = .none ∨ u = p.2 →
          Stores enc k (pushItem p.1 u) p.1 := fun p hp u hu =>
        hpart (hbuilts p.2 (List.of_mem_zip hp).2) (items p hp)
          (hw.item (List.of_mem_zip hp).1) hu
          (Nat.le_trans (HostValue.levels_le_levelsList (List.of_mem_zip hp).1)
            (Nat.le_of_succ_le_succ hlevels))
      rcases hu with rfl | rfl
      · refine ⟨_, rfl, stores_pushSequence_uniform rfl fun v hv => ?_⟩
        obtain ⟨a, ha⟩ := mem_zip_of_mem length hv
        exact hparts _ ha .none (Or.inl rfl)
      · refine ⟨⟨.generic (.sequence .tuple) as, .sequence⟩, rfl,
          stores_pushSequence (fun _ => length) fun p hp => ?_⟩
        obtain ⟨a, ha, hp'⟩ := exists_getElem?_zip length (List.mem_zipIdx_iff_getElem?.mp hp)
        rw [elementType_fixed hbuilts ha]
        exact hparts _ hp' a (Or.inr rfl)
  | @mapping kind es a b keys values differ =>
      obtain ⟨hkey, hvalue⟩ := hbuilt.entry
      have hparted : ∀ e ∈ es, e.1.levels ≤ limit ∧ e.2.levels ≤ limit := by
        intro e he
        have hle := HostValue.levels_le_levelsEntries he
        have hlimit := Nat.le_of_succ_le_succ hlevels
        exact ⟨Nat.le_trans hle.1 hlimit, Nat.le_trans hle.2 hlimit⟩
      have hparts : ∀ u u' : TypeExpr, u = .none ∨ u = a → u' = .none ∨ u' = b →
          (∀ e ∈ es, Stores enc k (pushItem e.1 u) e.1) ∧ ∀ e ∈ es, Stores enc k (pushItem e.2 u') e.2 :=
        fun u u' hu hu' =>
          ⟨fun e he => hpart hkey (keys e he) (hw.entry he).1 hu (hparted e he).1,
            fun e he => hpart hvalue (values e he) (hw.entry he).2 hu' (hparted e he).2⟩
      rcases hu with rfl | rfl
      · obtain ⟨hk, hv⟩ := hparts .none .none (Or.inl rfl) (Or.inl rfl)
        refine ⟨⟨.cls (.mapping kind), .mapping⟩, rfl, ?_⟩
        show Stores enc k (pushMapping pushItem k (.mapping kind es) ⟨.cls (.mapping kind), .mapping⟩) _
        exact stores_pushMapping hk hv differ keys
      · obtain ⟨hk, hv⟩ := hparts a b (Or.inr rfl) (Or.inr rfl)
        refine ⟨⟨.generic (.mapping kind) [a, b], .mapping⟩, rfl, ?_⟩
        show Stores enc k (pushMapping pushItem k (.mapping kind es)
          ⟨.generic (.mapping kind) [a, b], .mapping⟩) _
        exact stores_pushMapping hk hv differ keys
  | @record name hinted fields hints names values =>
      obtain rfl : u = .cls (.record name) := or_self_iff.mp hu
      have hopen := hopens name hbuilt.allowed
      obtain ⟨_, hbuilts⟩ := hopen.hinted_fields hints
      refine ⟨_, rfl, stores_pushRecord rfl hints names (hopen.distinct_fields hints names) values
        fun p hp => ?_⟩
      obtain ⟨hfield, hq⟩ := List.of_mem_zip hp
      exact hpart (hbuilts p.2 hq) (values p hp) (hw.field hfield) (Or.inr rfl) (Nat.le_trans
        (HostValue.levels_le_levelsFields hfield) (Nat.le_of_succ_le_succ hlevels))

/-- A push is what the shape of its type comes to, where that adds one slot. -/
theorem pushAs_of_shape {v : HostValue} {u u' : TypeExpr} {host : HostType} (limit : Nat)
    (hl : (s.machine k).Live) (hu : (if u = .none then .cls v.hostClass else u) = u')
    (hhost : u'.hostType? = some host) (haccepts : Accepts (describeIn ctx.classes "push" u')) :
    ∃ noted, ∀ {P : Session → Session → Prop} {w : Value} {t : Session},
      pushShape ctx (pushAs ctx k limit) k v host { s with described := noted } = .ok () t →
      Leaves P k [w] { s with described := noted } t →
      pushAs ctx k (limit + 1) v u s = .ok () t := by
  obtain ⟨noted, hnoted⟩ := describe_ok _ haccepts s
  refine ⟨noted, fun ht hleaves => ?_⟩
  have hl' : (({ s with described := noted } : Session).machine k).Live := hl
  have hguarded := guardedIfChecking_ok hl' ("push of " ++ host.display) (restoringTop_ok hl' ht)
    hleaves
  unfold pushAs
  rw [hu, bind_ok (hnoted host hhost)]
  exact hguarded

theorem puts_pushAs {v : HostValue} {u u' : TypeExpr} {host : HostType} {limit : Nat}
    {P : Heap → Nat → Value → Prop} (hu : (if u = .none then .cls v.hostClass else u) = u')
    (hhost : u'.hostType? = some host) (haccepts : Accepts (describeIn ctx.classes "push" u'))
    (hpush : Puts enc k (pushShape ctx (pushAs ctx k limit) k v host) P) :
    Puts enc k (pushAs ctx k (limit + 1) v u) P := by
  intro s hr
  obtain ⟨noted, hok⟩ := pushAs_of_shape limit hr.live hu hhost haccepts
  have hsame : Adds k [] s { s with described := noted } := Leaves.same rfl rfl rfl rfl rfl
  obtain ⟨w, t, ht, hadds, hw, hreports⟩ := hpush _ (hr.after hsame)
  exact ⟨w, t, hok ht hadds, hsame.trans hadds, hw, hreports⟩

/-- Pushing a value that fits a type as that type, or without a type, leaves
what stands for it on top. -/
theorem pushAs_stores (hopens : ∀ name, R name → Opens ctx.classes R name) (limit : Nat)
    {v : HostValue} {t u : TypeExpr} (hbuilt : Built R t) (hv : Fits ctx.classes v t)
    (hw : Written enc v) (hu : u = .none ∨ u = t) (hlevels : v.levels ≤ limit) :
    Stores enc k (pushAs ctx k limit v u) v := by
  induction limit generalizing v t u with
  | zero => exact absurd (HostValue.levels_pos v) (Nat.not_lt.mpr hlevels)
  | succ limit ih =>
      -- without a type the value is pushed by its class
      obtain ⟨u', hu', htype, haccepts⟩ : ∃ u',
          (if u = .none then .cls v.hostClass else u) = u' ∧ (u' = .cls v.hostClass ∨ u' = t)
            ∧ Accepts (describeIn ctx.classes "push" u') := by
        rcases hu with rfl | rfl
        · exact ⟨_, if_pos rfl, Or.inl rfl, accepts_hostClass hopens hbuilt hv⟩
        · exact ⟨_, if_neg hbuilt.ne_none, Or.inr rfl, accepts_describeIn hopens hbuilt⟩
      obtain ⟨host, hhost, hstores⟩ := pushShape_stores hopens hbuilt hv hw htype hlevels ih
      exact puts_pushAs (P := fun h lo w => Holds enc h lo w v) hu' hhost haccepts hstores

end Bridge

end StackBridge
