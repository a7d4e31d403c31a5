import StackBridge.Proofs.Machine.Holes
import StackBridge.Proofs.RoundTrip.Value

/-!
Reads that are known to answer. `Yields` says that a read answers one of some
values and changes nothing; of a composite that is so when it is of each part
that is there. A sequence is read up to a number of items, whether or not one of
them is missing, and a mapping along the entries that its table has.
-/

namespace StackBridge

namespace Bridge

open Session

variable {enc : Encoding} {ctx : Context} {k : MachineId} {s s₀ t : Session}

/-- An action that answers one of some values and changes nothing. -/
def Yields (k : MachineId) (a : Action HostValue) (Q : HostValue → Prop) (s : Session) : Prop :=
  ∃ v t, a s = .ok v t ∧ Q v ∧ Keeping k [] s t

/-- A read of the slot at an index that answers one of some values, as long as
the heap is what it is. -/
def YieldsAt (enc : Encoding) (k : MachineId) (h : Heap) (read : Action HostValue) (index : Int)
    (w : Value) (Q : HostValue → Prop) : Prop :=
  ∀ t, Coded enc k t → t.heap = h → At k t index w → Yields k read Q t

/-- A read that stops only at values that nest too deeply. -/
theorem Reads.yields {a : Action HostValue} {v : HostValue} {depth : Nat}
    (h : Reads k depth a v s) (hlevels : v.levels ≤ depth) :
    Yields k a (fun v' => v'.canonical = v.canonical) s := by
  unfold Reads at h
  cases hresult : a s with
  | ok v' t =>
      rw [hresult] at h
      exact ⟨v', t, hresult, h.2⟩
  | error e t =>
      rw [hresult] at h
      exact absurd h.1.1 (Nat.not_lt.mpr hlevels)

/-- A read yields what its host type comes to, whatever has been described. -/
theorem readAs_yields (run : BlockId → Action Unit) (fuel : Nat) (handler : Handler) (depth : Nat)
    (index : Int) (hl : (s.machine k).Live) {t : TypeExpr} {host : HostType}
    {Q : HostValue → Prop} (hhost : t.hostType? = some host)
    (haccepts : Accepts (describeIn ctx.classes "read" t))
    (hread : ∀ noted, Yields k (readHost ctx run (readAs ctx run fuel k handler depth) fuel k index
      host handler) Q { s with described := noted }) :
    Yields k (readAs ctx run fuel k handler (depth + 1) index t) Q s := by
  obtain ⟨noted, hok⟩ := readAs_of_host run fuel handler depth index hl hhost haccepts
  have hsame : Keeping k [] s { s with described := noted } := Leaves.same rfl rfl rfl rfl rfl
  obtain ⟨v, u, hu, hv, hleft⟩ := hread noted
  exact ⟨v, u, hok hu hleft, hv, hsame.trans hleft⟩

/-- And of a slot of the right category what the shape of the type comes to. -/
theorem readAs_yields_shape (run : BlockId → Action Unit) (fuel : Nat) (handler : Handler)
    (depth : Nat) {index : Int} {w : Value} (hr : Coded enc k s) (hat : At k s index w)
    {t : TypeExpr} {host : HostType} {Q : HostValue → Prop} (hhost : t.hostType? = some host)
    (haccepts : Accepts (describeIn ctx.classes "read" t))
    (hw : w.category? = some host.category) (hshape : host.shape ≠ .dynamic)
    (hread : ∀ s', Coded enc k s' → s'.heap = s.heap → At k s' index w →
      Yields k (readShape ctx (readAs ctx run fuel k handler depth) fuel k index host) Q s') :
    Yields k (readAs ctx run fuel k handler (depth + 1) index t) Q s := by
  refine readAs_yields run fuel handler depth index hr.live hhost haccepts fun noted => ?_
  have hat' : At k { s with described := noted } index w := ⟨hat.place⟩
  obtain ⟨v, u, hu, hv, hleft⟩ :=
    hread { s with described := noted } ⟨hr.machine, hr.live, hr.encoding⟩ rfl hat'
  exact ⟨v, u, (readHost_of_category hat'.value hw hshape).trans hu, hv, hleft⟩

section

variable {readAt : Int → TypeExpr → Action HostValue} {index : Int} {id : TableId}
  {Q : HostValue → HostValue → Prop}

/-- The part under a key is fetched, read and popped. -/
theorem part_yields {read : Action HostValue} {key w : Value} {c c' : Category}
    {Q : HostValue → Prop} (hr : Coded enc k s₀) (h : Keeping k [] s₀ s)
    (hi : Vm.valueAt? index (s.vm k) = .ok (some (.table id)) (s.vm k))
    (hkey : key.category? = some c) (hget : (s₀.heap.table id).get key = w)
    (hw : w.category? = some c') (hread : YieldsAt enc k s₀.heap read (-1) w Q) :
    ∃ t v u, onMachine k (Vm.getKey index key) s = .ok c' t ∧ popping k read t = .ok v u ∧ Q v
      ∧ Keeping k [] s₀ u := by
  obtain ⟨t, ht, htop⟩ := part_fetched hr h hi hkey hget hw
  obtain ⟨v, u, hu, hv, hsame⟩ :=
    hread t (hr.during htop) htop.rest.heap (at_top [] hr.live htop)
  obtain ⟨x, hpop, hx⟩ := Leaves.pop [] (htop.trans hsame) hr.machine hr.live
  refine ⟨t, v, x, ht, ?_, hv, hx⟩
  unfold popping
  rw [bind_ok hu, bind_ok hpop]
  rfl

/-- The items from the ones that have been read on, with or without holes. -/
theorem readItems_yields (hr : Coded enc k s₀) {host : HostType}
    {vs : List HostValue} (i : Nat)
    (hi : ∀ xs t, Keeping k xs s₀ t →
      Vm.valueAt? index (t.vm k) = .ok (some (.table id)) (t.vm k))
    (hvs : ∀ p ∈ vs.zipIdx i,
      ∃ w c, (s₀.heap.table id).get (.int ((p.2 : Int) + 1)) = w ∧ w.category? = some c
        ∧ YieldsAt enc k s₀.heap (readAt (-1) (orNatural (host.elementType p.2))) (-1) w (Q p.1))
    (h : Keeping k [] s₀ s) :
    ∃ vs' t, readItems readAt k index host i vs.length s = .ok vs' t
      ∧ List.Forall₂ Q vs vs' ∧ Keeping k [] s₀ t := by
  induction vs generalizing i s with
  | nil => exact ⟨[], s, rfl, .nil, h⟩
  | cons v vs ih =>
      obtain ⟨w, c, hget, hw, hread⟩ := hvs (v, i) (List.mem_cons_self ..)
      obtain ⟨t, v', u, ht, hu, hv', hsame⟩ := part_yields hr h (hi [] s h) rfl hget hw hread
      obtain ⟨vs', x, hx, hvs', hrest⟩ :=
        ih (i + 1) (fun p hp => hvs p (List.mem_cons_of_mem _ hp)) hsame
      refine ⟨v' :: vs', x, ?_, .cons hv' hvs', hrest⟩
      rw [List.length_cons, readItems, bind_ok ht, bind_ok hu, bind_ok hx]
      rfl

/-- What reading an entry is expected to answer. -/
structure EntryYields (enc : Encoding) (k : MachineId) (h : Heap)
    (readAt : Int → TypeExpr → Action HostValue) (keyType valueType : TypeExpr)
    (Q : HostValue → HostValue → Prop) (p : Key × Value) (e : HostValue × HostValue) : Prop where
  normal : p.1.value.key = .ok p.1
  key : YieldsAt enc k h (readAt (-2) keyType) (-2) p.1.value fun v => v.canonical = e.1.canonical
  value : YieldsAt enc k h (readAt (-1) valueType) (-1) p.2 (Q e.2)

/-- The entries after the key on top, when those before it have been read. -/
theorem readEntries_yields (hr : Coded enc k s₀) {keyType valueType : TypeExpr} {fuel : Nat}
    (done : List (Key × Value)) {rest : List (Key × Value)} (ds : List (HostValue × HostValue))
    {es rs : List (HostValue × HostValue)} {key : Value}
    (hi : ∀ xs t, Keeping k xs s₀ t →
      Vm.valueAt? index (t.vm k) = .ok (some (.table id)) (t.vm k))
    (htable : s₀.heap.table id = .ofEntries (done ++ rest))
    (hdistinct : ((done ++ rest).map (·.1)).Nodup)
    (hreads : List.Forall₂ (EntryYields enc k s₀.heap readAt keyType valueType Q) rest es)
    (hdiffer : KeysDiffer (ds ++ es)) (hrs : rs.map (·.1.canonical) = ds.map (·.1.canonical))
    (hnext : (Table.ofEntries (done ++ rest)).next key = .ok rest.head?)
    (hfuel : rest.length < fuel) (h : Keeping k [key] s₀ s) :
    ∃ rs' t, readEntries readAt k index keyType valueType fuel rs s = .ok (rs ++ rs') t
      ∧ List.Forall₂ (fun e e' => e'.1.canonical = e.1.canonical ∧ Q e.2 e'.2) es rs'
      ∧ Keeping k [] s₀ t := by
  induction fuel generalizing done rest ds es rs key s with
  | zero => exact absurd hfuel (Nat.not_lt_zero _)
  | succ fuel ih =>
      have hlive := hr.live
      have hid := Vm.tableAt_eq (hi _ s h)
      rw [← htable, ← h.rest.heap] at hnext
      unfold readEntries
      cases hreads with
      | nil =>
          obtain ⟨hdone, hleft⟩ := h.next_done hr.machine hlive hid hnext
          refine ⟨[], _, ?_, .nil, hleft⟩
          rw [bind_ok hdone, List.append_nil]
          rfl
      | @cons entry e rest es hentry hrest =>
          obtain ⟨hmore, ht⟩ := h.next_more hr.machine hlive hid hnext
          obtain ⟨value', u, hu, hvalue, hsame⟩ := hentry.value _ (hr.during ht) ht.rest.heap
            (at_top [entry.1.value] hlive ht)
          have hku := ht.trans hsame
          obtain ⟨key', x, hx, hkey, hsame'⟩ :=
            hentry.key u (hr.during hku) hku.rest.heap (at_second hlive hku)
          obtain ⟨y, hpop, hy⟩ :=
            Leaves.pop [entry.1.value] (hku.trans hsame') hr.machine hlive
          have hinsert : ofHost (Dict.insert rs key' value') y
              = .ok (rs ++ [(key', value')]) y := by
            rw [Dict.insert_next hdiffer hrs hkey]
            rfl
          have hnext' := Table.next_entry hdistinct hentry.normal
          rw [List.append_cons done] at htable hdistinct hnext'
          rw [List.append_cons ds] at hdiffer
          have hrs' : (rs ++ [(key', value')]).map (·.1.canonical)
              = (ds ++ [e]).map (·.1.canonical) := by
            rw [List.map_append, List.map_append, hrs, List.map_singleton, List.map_singleton, hkey]
          obtain ⟨rs', z, hz, hes, hleft⟩ := ih (done ++ [entry]) (ds ++ [e]) htable hdistinct
            hrest hdiffer hrs' hnext' (Nat.lt_of_succ_lt_succ hfuel) hy
          refine ⟨(key', value') :: rs', z, ?_, .cons ⟨hkey, hvalue⟩ hes, hleft⟩
          rw [bind_ok hmore, if_neg (by decide), bind_ok hu, bind_ok hx, bind_ok hpop,
            bind_ok hinsert, hz, List.append_assoc]
          rfl

-- ================================================================== shapes

/-- A sequence is read from the items up to the first that is missing or, if each
has a type of its own, from all of them. -/
theorem readSequence_yields (hr : Coded enc k s) (hat : At k s index (.table id)) {ws : List Value}
    {vs : List HostValue} {host : HostType} {kind : SequenceKind}
    (htable : s.heap.table id = .ofEntries (Table.present (Table.numbered ws)))
    (horigin : host.origin? = some (.sequence kind)) (hkind : kind ≠ .deque)
    (hcount : vs.length
      = if host.isFixedTuple then host.args.length else (ws.takeWhile (· ≠ .nil)).length)
    (hvs : ∀ p ∈ vs.zipIdx, ∃ w c, ws[p.2]? = some w ∧ w.category? = some c
      ∧ YieldsAt enc k s.heap (readAt (-1) (orNatural (host.elementType p.2))) (-1) w (Q p.1)) :
    Yields k (readSequence readAt k index host)
      (fun v => ∃ vs', v = .sequence kind vs' ∧ List.Forall₂ Q vs vs') s := by
  obtain ⟨i, hindex, hi⟩ := hat.abs
  have hparts : ∀ p ∈ vs.zipIdx,
      ∃ w c, (s.heap.table id).get (.int ((p.2 : Int) + 1)) = w ∧ w.category? = some c
        ∧ YieldsAt enc k s.heap (readAt (-1) (orNatural (host.elementType p.2))) (-1) w
          (Q p.1) := by
    intro p hp
    obtain ⟨w, c, hw, hc, hread⟩ := hvs p hp
    refine ⟨w, c, ?_, hc, hread⟩
    rw [htable]
    exact Table.get_present (Table.nodup_numbered ws) rfl (Table.mem_numbered.mpr ⟨p.2, rfl, hw⟩)
  obtain ⟨vs', t, ht, hvs', hleft⟩ := readItems_yields hr 0 hi hparts (Leaves.refl s)
  have hkept : asSequence host vs' = .sequence kind vs' := by
    unfold asSequence
    rw [horigin]
    cases kind with
    | deque => exact absurd rfl hkind
    | _ => rfl
  have hrest : (do return asSequence host (← restoringTop k (readItems readAt k i host 0 vs.length))) s
      = EStateM.Result.ok (.sequence kind vs') t := by
    rw [bind_ok (restoringTop_ok hr.live ht), hkept]
    rfl
  refine ⟨.sequence kind vs', t, ?_, ⟨vs', rfl, hvs'⟩, hleft⟩
  unfold readSequence
  rw [bind_ok hindex]
  dsimp only
  cases hcase : host.isFixedTuple with
  | true =>
      rw [hcase, if_pos rfl] at hcount
      rw [if_pos rfl, ← hcount]
      exact hrest
  | false =>
      have hborder : Vm.rawLength i (s.vm k) = .ok vs.length (s.vm k) := by
        have hsame : Keeping k [] s s := .refl s
        rw [Vm.rawLength_table (hi [] s hsame)]
        rw [hcase, if_neg Bool.false_ne_true, ← Table.length_present, ← htable] at hcount
        rw [hcount]
        rfl
      rw [if_neg Bool.false_ne_true, bind_ok (onMachine_look hborder)]
      exact hrest

/-- A mapping is read from the entries that its table has. -/
theorem readMapping_yields (hr : Coded enc k s) (hat : At k s index (.table id))
    {entries : List (Key × Value)} {es : List (HostValue × HostValue)} {host : HostType}
    {kind : MappingKind} {fuel : Nat} (htable : s.heap.table id = .ofEntries entries)
    (hdistinct : (entries.map (·.1)).Nodup) (horigin : host.origin? = some (.mapping kind))
    (hdiffer : KeysDiffer es) (hfuel : entries.length < fuel)
    (hreads : List.Forall₂ (EntryYields enc k s.heap readAt (orNatural host.entryTypes.1)
      (orNatural host.entryTypes.2) Q) entries es) :
    Yields k (readMapping readAt fuel k index host)
      (fun v => ∃ es', v = .mapping kind es'
        ∧ List.Forall₂ (fun e e' => e'.1.canonical = e.1.canonical ∧ Q e.2 e'.2) es es') s := by
  obtain ⟨i, hindex, hi⟩ := hat.abs
  rcases htypes : host.entryTypes with ⟨keyType, valueType⟩
  rw [htypes] at hreads
  obtain ⟨es', t, ht, hes', hleft⟩ := readEntries_yields hr [] [] hi htable hdistinct
    hreads hdiffer rfl (Table.next_first hdistinct) hfuel (push_leaves hr.machine .nil)
  have hblock : (do
      push k .nil
      readEntries readAt k i (orNatural keyType) (orNatural valueType) fuel []) s = .ok es' t := by
    rw [bind_ok (push_eq s k .nil)]
    exact ht
  refine ⟨.mapping kind es', t, ?_, ⟨es', rfl, hes'⟩, hleft⟩
  unfold readMapping
  rw [htypes]
  dsimp only
  rw [bind_ok hindex, bind_ok (restoringTop_ok hr.live hblock), horigin]
  rfl

end

end Bridge

end StackBridge
