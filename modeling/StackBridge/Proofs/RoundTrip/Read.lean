import StackBridge.Proofs.RoundTrip.Slot

/-!
Reading a value back. What has been pushed is read by following its type into
the tables that it is held in: a sequence up to its border, a mapping along the
order in which it was filled, a record field by field. Each part is pushed, read
and popped, so that at the end nothing has changed.

A read goes on until a part is nested too deeply; if there is none, it answers.
-/

namespace StackBridge

-- ================================================================ in parallel

namespace HoldsEach

variable {enc : Encoding} {h : Heap} {lo : Nat} {w : Value} {ws : List Value} {v : HostValue}
  {vs : List HostValue}

theorem head (hw : HoldsEach enc h lo (w :: ws) (v :: vs)) : Holds enc h lo w v :=
  hw.each (w, v) (List.mem_cons_self ..)

theorem tail (hw : HoldsEach enc h lo (w :: ws) (v :: vs)) : HoldsEach enc h lo ws vs :=
  ⟨Nat.succ.inj hw.length, fun p hp => hw.each p (List.mem_cons_of_mem _ hp)⟩

end HoldsEach

/-- A key that differs from all that are there goes to the end. -/
theorem Dict.put_new {es : List (HostValue × HostValue)} {key value : HostValue}
    (h : ∀ e ∈ es, e.1.sameKey key = false) : Dict.put key value es = es ++ [(key, value)] := by
  induction es with
  | nil => rfl
  | cons e es ih =>
      unfold Dict.put
      rw [h e (List.mem_cons_self ..), ih fun d hd => h d (List.mem_cons_of_mem _ hd)]
      rfl

/-- A copy of the next key is a new one to the copies of those before it. -/
theorem Dict.insert_next {ds es rs : List (HostValue × HostValue)} {e : HostValue × HostValue}
    {key : HostValue} (hdiffer : KeysDiffer (ds ++ e :: es))
    (hrs : rs.map (·.1.canonical) = ds.map (·.1.canonical)) (hkey : key.canonical = e.1.canonical)
    (value : HostValue) : Dict.insert rs key value = .ok (rs ++ [(key, value)]) := by
  have hhashable : key.unhashable? = none := by
    rw [← HostValue.unhashable?_canonical, hkey, HostValue.unhashable?_canonical]
    exact hdiffer.hashable e (List.mem_append_right _ (List.mem_cons_self ..))
  have hnew : ∀ r ∈ rs, r.1.sameKey key = false := by
    intro r hr
    obtain ⟨d, hd, heq⟩ := exists_mem_of_map_eq hrs hr
    rw [← HostValue.sameKey_canonical, heq, hkey, HostValue.sameKey_canonical]
    exact hdiffer.before hd
  unfold Dict.insert
  rw [hhashable, Dict.put_new hnew]

/-- A copy of the next entry goes to the end of the copies of those before it. -/
theorem Dict.insert_copy {ds es rs : List (HostValue × HostValue)} {e : HostValue × HostValue}
    {key value : HostValue} (hdiffer : KeysDiffer (ds ++ e :: es))
    (hrs : rs.map (fun e => (e.1.canonical, e.2.canonical))
      = ds.map fun e => (e.1.canonical, e.2.canonical)) (hkey : key.canonical = e.1.canonical) :
    Dict.insert rs key value = .ok (rs ++ [(key, value)]) := by
  have hkeys := congrArg (List.map Prod.fst) hrs
  rw [List.map_map, List.map_map] at hkeys
  exact Dict.insert_next hdiffer hkeys hkey value

namespace Bridge

open Session

variable {enc : Encoding} {ctx : Context} {k : MachineId} {s s₀ t : Session} {index : Int}
  {id : TableId} {depth : Nat}

section

variable {readAt : Int → TypeExpr → Action HostValue}

/-- Reading a part where it stands for a value on top of the machine. -/
def ReadsPart (enc : Encoding) (k : MachineId) (depth : Nat) (read : Action HostValue) (index : Int)
    (v : HostValue) : Prop :=
  ∀ w t, Coded enc k t → At k t index w → Holds enc t.heap 0 w v → Reads k depth read v t

/-- What is under a key is fetched. -/
theorem part_fetched {key w : Value} {c c' : Category} (hr : Coded enc k s₀)
    (h : Keeping k [] s₀ s) (hi : Vm.valueAt? index (s.vm k) = .ok (some (.table id)) (s.vm k))
    (hkey : key.category? = some c) (hget : (s₀.heap.table id).get key = w)
    (hw : w.category? = some c') :
    ∃ t, onMachine k (Vm.getKey index key) s = .ok c' t ∧ Keeping k [w] s₀ t := by
  have hget' : ((s.vm k).heap.table id).get key = w := by
    show (s.heap.table id).get key = w
    rw [h.rest.heap, hget]
  have hcategory : (((s.vm k).heap.table id).get key).category? = some c' := by
    rw [hget']
    exact hw
  refine ⟨_, onMachine_ok ((Vm.getKey_apply hi).trans (Vm.fetch_eq hkey hcategory)), ?_⟩
  rw [hget']
  exact h.trans (push_leaves (hr.during h).machine w)

/-- The part under a key is fetched, read and popped. -/
theorem part_reads {read : Action HostValue} {key w : Value} {c : Category} {v : HostValue}
    (hr : Coded enc k s₀) (h : Keeping k [] s₀ s)
    (hi : Vm.valueAt? index (s.vm k) = .ok (some (.table id)) (s.vm k))
    (hkey : key.category? = some c) (hget : (s₀.heap.table id).get key = w)
    (hw : Holds enc s₀.heap 0 w v) (hread : ReadsPart enc k depth read (-1) v) :
    ∃ c t, onMachine k (Vm.getKey index key) s = .ok c t ∧ c ≠ .nil
      ∧ Ends (popping k read t)
          (fun v' u => v.levels ≤ depth ∧ v'.canonical = v.canonical ∧ Keeping k [] s₀ u)
          fun e u => (depth < v.levels ∧ e = tooDeep) ∧ ∃ ys, Keeping k ys s₀ u := by
  obtain ⟨c', hc, hnil⟩ := hw.category
  obtain ⟨t, ht, htop⟩ := part_fetched hr h hi hkey hget hc
  have hheld : Holds enc t.heap 0 w v := by
    rw [htop.rest.heap]
    exact hw
  have hpart := popping_reads (fun h => h) hr htop
    (hread w t (hr.during htop) (at_top [] hr.live htop) hheld)
  exact ⟨c', t, ht, hnil, hpart.mono (fun _ _ h => h) fun e u he => ⟨he.1, [w], he.2⟩⟩

/-- The items from the ones that have been read on. -/
theorem readItems_reads (hr : Coded enc k s₀) {host : HostType} (us : List Value)
    {ws : List Value} {vs : List HostValue}
    (hi : ∀ xs t, Keeping k xs s₀ t →
      Vm.valueAt? index (t.vm k) = .ok (some (.table id)) (t.vm k))
    (htable : s₀.heap.table id = .ofEntries (Table.numbered (us ++ ws)))
    (hw : HoldsEach enc s₀.heap 0 ws vs)
    (hread : ∀ p ∈ vs.zipIdx us.length,
      ReadsPart enc k depth (readAt (-1) (orNatural (host.elementType p.2))) (-1) p.1)
    (h : Keeping k [] s₀ s) :
    Ends (readItems readAt k index host us.length vs.length s)
      (fun vs' t => HostValue.levelsList vs ≤ depth
        ∧ vs'.map HostValue.canonical = vs.map HostValue.canonical ∧ Keeping k [] s₀ t)
      fun e t => (depth < HostValue.levelsList vs ∧ e = tooDeep) ∧ ∃ ys, Keeping k ys s₀ t := by
  induction vs generalizing us ws s with
  | nil => exact ⟨Nat.zero_le _, rfl, h⟩
  | cons v vs ih =>
      cases ws with
      | nil => exact absurd hw.length (Nat.succ_ne_zero _).symm
      | cons w ws =>
          have hget : (s₀.heap.table id).get (.int ((us.length : Int) + 1)) = w := by
            rw [htable]
            exact Table.get_numbered us ws w
          obtain ⟨_, t, ht, _, hpart⟩ := part_reads hr h (hi [] s h) rfl hget hw.head
            (hread (v, us.length) (List.mem_cons_self ..))
          have hlevels : HostValue.levelsList (v :: vs)
              = max v.levels (HostValue.levelsList vs) := rfl
          rw [hlevels, List.length_cons]
          unfold readItems
          rw [bind_ok ht]
          refine (hpart.mono (fun _ _ h => h) ?_).bind ?_
          · rintro e u ⟨⟨hdeep, he⟩, hu⟩
            exact ⟨⟨Nat.lt_of_lt_of_le hdeep (Nat.le_max_left ..), he⟩, hu⟩
          · rintro v' u ⟨hv, hv', hu⟩
            have hlength : (us ++ [w]).length = us.length + 1 := List.length_append
            have hrest := ih (us ++ [w]) (by rw [htable, List.append_assoc]; rfl)
              hw.tail (by rw [hlength]; exact fun p hp => hread p (List.mem_cons_of_mem _ hp)) hu
            rw [hlength] at hrest
            refine (hrest.mono (fun _ _ h => h) ?_).bind ?_
            · rintro e x ⟨⟨hdeep, he⟩, hx⟩
              exact ⟨⟨Nat.lt_of_lt_of_le hdeep (Nat.le_max_right ..), he⟩, hx⟩
            · rintro vs' x ⟨hvs, hvs', hx⟩
              refine ⟨Nat.max_le.mpr ⟨hv, hvs⟩, ?_, hx⟩
              rw [List.map_cons, List.map_cons, hv', hvs']

/-- The entries after the key on top, when those before it have been read. -/
theorem readEntries_reads (hr : Coded enc k s₀) {keyType valueType : TypeExpr} {fuel : Nat}
    (done : List (Key × Value)) {rest : List (Key × Value)}
    (ds : List (HostValue × HostValue)) {es rs : List (HostValue × HostValue)} {key : Value}
    (hi : ∀ xs t, Keeping k xs s₀ t →
      Vm.valueAt? index (t.vm k) = .ok (some (.table id)) (t.vm k))
    (htable : s₀.heap.table id = .ofEntries (done ++ rest))
    (hdistinct : ((done ++ rest).map (·.1)).Nodup)
    (hnormal : ∀ e ∈ rest, e.1.value.key = .ok e.1)
    (hkeys : HoldsEach enc s₀.heap 0 (rest.map (·.1.value)) (es.map (·.1)))
    (hvalues : HoldsEach enc s₀.heap 0 (rest.map (·.2)) (es.map (·.2)))
    (hdiffer : KeysDiffer (ds ++ es))
    (hrs : rs.map (fun e => (e.1.canonical, e.2.canonical))
      = ds.map fun e => (e.1.canonical, e.2.canonical))
    (hreadk : ∀ e ∈ es, ReadsPart enc k depth (readAt (-2) keyType) (-2) e.1)
    (hreadv : ∀ e ∈ es, ReadsPart enc k depth (readAt (-1) valueType) (-1) e.2)
    (hnext : (Table.ofEntries (done ++ rest)).next key = .ok rest.head?)
    (hfuel : rest.length < fuel) (h : Keeping k [key] s₀ s) :
    Ends (readEntries readAt k index keyType valueType fuel rs s)
      (fun rs' t => HostValue.levelsEntries es ≤ depth
        ∧ rs'.map (fun e => (e.1.canonical, e.2.canonical))
          = (ds ++ es).map (fun e => (e.1.canonical, e.2.canonical)) ∧ Keeping k [] s₀ t)
      fun e t => (depth < HostValue.levelsEntries es ∧ e = tooDeep)
        ∧ ∃ ys, Keeping k ys s₀ t := by
  induction fuel generalizing done rest ds es rs key s with
  | zero => exact absurd hfuel (Nat.not_lt_zero _)
  | succ fuel ih =>
      have hlive := hr.live
      have hid := Vm.tableAt_eq (hi _ s h)
      rw [← htable, ← h.rest.heap] at hnext
      unfold readEntries
      cases rest with
      | nil =>
          cases es with
          | cons e es => exact absurd hkeys.length (Nat.succ_ne_zero _).symm
          | nil =>
              obtain ⟨hdone, hleft⟩ := h.next_done hr.machine hlive hid hnext
              rw [bind_ok hdone]
              exact ⟨Nat.zero_le _, by rw [List.append_nil]; exact hrs, hleft⟩
      | cons entry rest =>
          cases es with
          | nil => exact absurd hkeys.length (Nat.succ_ne_zero _)
          | cons e es =>
              obtain ⟨hmore, ht⟩ := h.next_more hr.machine hlive hid hnext
              rw [bind_ok hmore]
              have hvalue : Reads k depth (readAt (-1) valueType) e.2 _ :=
                hreadv e (List.mem_cons_self ..) entry.2 _ (hr.during ht)
                  (at_top [entry.1.value] hlive ht)
                  (by rw [ht.rest.heap]; exact hvalues.head)
              have hlevels : HostValue.levelsEntries (e :: es)
                  = max (max e.1.levels e.2.levels) (HostValue.levelsEntries es) := rfl
              rw [hlevels, if_neg (by decide)]
              refine (hvalue.mono (fun _ _ h => h) ?_).bind ?_
              · rintro e' u ⟨⟨hdeep, he⟩, hu⟩
                exact ⟨⟨by omega, he⟩, _, ht.trans hu⟩
              · rintro value' u ⟨hv, hv', hu⟩
                have hku := ht.trans hu
                have hkey : Reads k depth (readAt (-2) keyType) e.1 u :=
                  hreadk e (List.mem_cons_self ..) entry.1.value u (hr.during hku)
                    (at_second hlive hku) (by rw [hku.rest.heap]; exact hkeys.head)
                refine (hkey.mono (fun _ _ h => h) ?_).bind ?_
                · rintro e' x ⟨⟨hdeep, he⟩, hx⟩
                  exact ⟨⟨by omega, he⟩, _, hku.trans hx⟩
                · rintro key' x ⟨hk, hk', hx⟩
                  obtain ⟨y, hpop, hy⟩ := Leaves.pop [entry.1.value] (hku.trans hx) hr.machine hlive
                  have hinsert : ofHost (Dict.insert rs key' value') y
                      = .ok (rs ++ [(key', value')]) y := by
                    rw [Dict.insert_copy hdiffer hrs hk']
                    rfl
                  rw [bind_ok hpop, bind_ok hinsert]
                  have hnext' := Table.next_entry hdistinct (hnormal entry (List.mem_cons_self ..))
                  rw [List.append_cons done] at htable hdistinct hnext'
                  rw [List.append_cons ds] at hdiffer ⊢
                  have hrs' : (rs ++ [(key', value')]).map (fun e => (e.1.canonical, e.2.canonical))
                      = (ds ++ [e]).map fun e => (e.1.canonical, e.2.canonical) := by
                    rw [List.map_append, List.map_append, hrs, List.map_singleton,
                      List.map_singleton, hk', hv']
                  have hrest := ih (done ++ [entry]) (ds ++ [e]) htable hdistinct
                    (fun d hd => hnormal d (List.mem_cons_of_mem _ hd)) hkeys.tail hvalues.tail
                    hdiffer hrs'
                    (fun d hd => hreadk d (List.mem_cons_of_mem _ hd))
                    (fun d hd => hreadv d (List.mem_cons_of_mem _ hd)) hnext'
                    (Nat.lt_of_succ_lt_succ hfuel) hy
                  refine hrest.mono ?_ ?_
                  · rintro rs' z ⟨hes, hrs', hz⟩
                    exact ⟨Nat.max_le.mpr ⟨Nat.max_le.mpr ⟨hk, hv⟩, hes⟩, hrs', hz⟩
                  · rintro e' z ⟨⟨hdeep, he⟩, hz⟩
                    exact ⟨⟨by omega, he⟩, hz⟩

/-- The fields that a table has a value for, of those that are hinted. The other
ones have a default. -/
inductive Offers (cs : Classes) (enc : Encoding) (h : Heap) (id : TableId) :
    List (FieldSpec × TypeExpr) → List (String × HostValue) → Prop where
  | nil : Offers cs enc h id [] []
  | given {q : FieldSpec × TypeExpr} {qs : List (FieldSpec × TypeExpr)} {f : String × HostValue}
      {fs : List (String × HostValue)} (name : q.1.name = f.1) (fits : Fits cs f.2 q.2)
      (held : Holds enc h 0 ((h.table id).get (.str (utf8 q.1.name))) f.2)
      (rest : Offers cs enc h id qs fs) : Offers cs enc h id (q :: qs) (f :: fs)
  | omitted {q : FieldSpec × TypeExpr} {qs : List (FieldSpec × TypeExpr)}
      {fs : List (String × HostValue)} (absent : (h.table id).get (.str (utf8 q.1.name)) = .nil)
      (default : q.1.hasDefault = true) (rest : Offers cs enc h id qs fs) :
      Offers cs enc h id (q :: qs) fs

/-- The table of a record has a value for every field. -/
theorem offers_record {hinted : List (FieldSpec × TypeExpr)} (gs : List (String × HostValue))
    {fs : List (String × HostValue)} {cs : Classes} {h : Heap} (us : List Value) {ws : List Value}
    (htable : h.table id = .ofEntries ((fieldKeys (gs ++ fs)).zip (us ++ ws)))
    (hlength : us.length = gs.length) (hw : HoldsEach enc h 0 ws (fs.map (·.2)))
    (hnames : fs.map (·.1) = hinted.map (·.1.name)) (hdistinct : ((gs ++ fs).map (·.1)).Nodup)
    (hfits : ∀ p ∈ fs.zip hinted, Fits cs p.1.2 p.2.2) : Offers cs enc h id hinted fs := by
  induction fs generalizing gs hinted us ws with
  | nil =>
      cases hinted with
      | nil => exact .nil
      | cons q hinted => cases hnames
  | cons f fs ih =>
      cases hinted with
      | nil => cases hnames
      | cons q hinted =>
          cases ws with
          | nil => exact absurd hw.length (Nat.succ_ne_zero _).symm
          | cons w ws =>
              obtain ⟨hhead, hnames⟩ := List.cons.inj hnames
              have hname : q.1.name = f.1 := hhead.symm
              have hget : (h.table id).get (.str (utf8 q.1.name)) = w := by
                rw [htable, fieldKeys_zip_append hlength, hname]
                exact Table.get_entry rfl (fieldKey_new hdistinct hlength)
              rw [List.append_cons gs, List.append_cons us] at htable
              rw [List.append_cons] at hdistinct
              refine .given hname (hfits (f, q) (List.mem_cons_self ..)) (by rw [hget]; exact hw.head)
                (ih (gs ++ [f]) (us ++ [w]) htable ?_ hw.tail hnames hdistinct fun p hp =>
                  hfits p (List.mem_cons_of_mem _ hp))
              rw [List.length_append, List.length_append, hlength]
              rfl

/-- The fields that a table has a value for are read, and nothing else. -/
theorem readFields_reads (hr : Coded enc k s₀) {hinted : List (FieldSpec × TypeExpr)}
    {fs : List (String × HostValue)}
    (hi : ∀ xs t, Keeping k xs s₀ t →
      Vm.valueAt? index (t.vm k) = .ok (some (.table id)) (t.vm k))
    (hoffers : Offers ctx.classes enc s₀.heap id hinted fs)
    (hinit : ∀ q ∈ hinted, q.1.init = true)
    (hread : ∀ q ∈ hinted, ∀ f ∈ fs, Fits ctx.classes f.2 q.2 →
      ReadsPart enc k depth (readAt (-1) (orNatural q.2)) (-1) f.2)
    (h : Keeping k [] s₀ s) :
    Ends (readFields readAt k index hinted s)
      (fun given t => HostValue.levelsFields fs ≤ depth
        ∧ given.map (fun g => (g.1, g.2.canonical)) = fs.map (fun f => (f.1, f.2.canonical))
        ∧ Keeping k [] s₀ t)
      fun e t => (depth < HostValue.levelsFields fs ∧ e = tooDeep)
        ∧ ∃ ys, Keeping k ys s₀ t := by
  induction hoffers generalizing s with
  | nil => exact ⟨Nat.zero_le _, rfl, h⟩
  | @given q qs f fs hname hfits hheld _ ih =>
      obtain ⟨c, t, ht, hnil, hpart⟩ := part_reads hr h (hi [] s h) rfl rfl hheld
        (hread q (List.mem_cons_self ..) f (List.mem_cons_self ..) hfits)
      have hlevels : HostValue.levelsFields (f :: fs)
          = max f.2.levels (HostValue.levelsFields fs) := rfl
      have hgiven : (decide (c = .nil) && q.1.hasDefault) = false := by
        rw [decide_eq_false hnil, Bool.false_and]
      unfold readFields
      rw [hinit q (List.mem_cons_self ..)]
      simp only [Bool.not_true, Bool.false_eq_true, if_false]
      rw [hlevels, bind_ok ht]
      simp only [hgiven, Bool.false_eq_true, if_false]
      refine (hpart.mono (fun _ _ h => h) ?_).bind ?_
      · rintro e u ⟨⟨hdeep, he⟩, hu⟩
        exact ⟨⟨Nat.lt_of_lt_of_le hdeep (Nat.le_max_left ..), he⟩, hu⟩
      · rintro v' u ⟨hv, hv', hu⟩
        have hrest := ih (fun p hp => hinit p (List.mem_cons_of_mem _ hp))
          (fun p hp g hg => hread p (List.mem_cons_of_mem _ hp) g (List.mem_cons_of_mem _ hg)) hu
        refine (hrest.mono (fun _ _ h => h) ?_).bind ?_
        · rintro e x ⟨⟨hdeep, he⟩, hx⟩
          exact ⟨⟨Nat.lt_of_lt_of_le hdeep (Nat.le_max_right ..), he⟩, hx⟩
        · rintro given x ⟨hfs, hgiven, hx⟩
          refine ⟨Nat.max_le.mpr ⟨hv, hfs⟩, ?_, hx⟩
          rw [List.map_cons, List.map_cons, hname, hv', hgiven]
  | @omitted q qs fs habsent hdefault _ ih =>
      obtain ⟨t, ht, htop⟩ := part_fetched hr h (hi [] s h) rfl habsent rfl
      obtain ⟨u, hu, hleft⟩ := Leaves.pop [] htop hr.machine hr.live
      unfold readFields
      rw [hinit q (List.mem_cons_self ..)]
      simp only [Bool.not_true, Bool.false_eq_true, if_false]
      rw [bind_ok ht]
      simp only [decide_true, Bool.true_and, hdefault, if_true]
      rw [bind_ok hu]
      exact ih (fun p hp => hinit p (List.mem_cons_of_mem _ hp))
        (fun p hp => hread p (List.mem_cons_of_mem _ hp)) hleft

-- ================================================================= shapes

theorem readSequence_reads (hr : Coded enc k s) {w : Value} (hat : At k s index w)
    {kind : SequenceKind} {vs : List HostValue} (hw : Holds enc s.heap 0 w (.sequence kind vs))
    {host : HostType} (horigin : host.origin? = some (.sequence kind)) (hkind : kind ≠ .deque)
    (hfixed : host.isFixedTuple = true → vs.length = host.args.length)
    (hread : ∀ p ∈ vs.zipIdx,
      ReadsPart enc k depth (readAt (-1) (orNatural (host.elementType p.2))) (-1) p.1) :
    Reads k (depth + 1) (readSequence readAt k index host) (.sequence kind vs) s := by
  cases hw with
  | @sequence _ id ws _ made length items =>
      obtain ⟨i, hindex, hi⟩ := hat.abs
      have hitems := readItems_reads hr [] hi made.table ⟨length, items⟩ hread
        (Leaves.refl s)
      have hrestored := restoringTop_ends hr.machine hr.live hitems
      have hrest : Ends ((do
          return asSequence host (← restoringTop k (readItems readAt k i host 0 vs.length))) s)
          (fun v' t => (HostValue.sequence kind vs).levels ≤ depth + 1
            ∧ v'.canonical = (HostValue.sequence kind vs).canonical ∧ Keeping k [] s t)
          fun e t => (depth + 1 < (HostValue.sequence kind vs).levels ∧ e = tooDeep)
            ∧ Keeping k [] s t := by
        refine (hrestored.mono (fun _ _ h => h) ?_).bind ?_
        · rintro e t ⟨⟨hdeep, he⟩, ht⟩
          exact ⟨⟨Nat.succ_lt_succ hdeep, he⟩, ht⟩
        · rintro vs' t ⟨hlevels, hvs', ht⟩
          have hanswer : (HostValue.sequence kind vs').canonical
              = (HostValue.sequence kind vs).canonical := by
            rw [HostValue.canonical, HostValue.canonical, HostValue.canonicalItems_eq,
              HostValue.canonicalItems_eq, hvs']
          have hkept : asSequence host vs' = .sequence kind vs' := by
            unfold asSequence
            rw [horigin]
            cases kind with
            | deque => exact absurd rfl hkind
            | _ => rfl
          rw [hkept]
          exact ⟨Nat.succ_le_succ hlevels, hanswer, ht⟩
      unfold Reads readSequence
      rw [bind_ok hindex]
      dsimp only
      by_cases hcase : host.isFixedTuple = true
      · rw [if_pos hcase, ← hfixed hcase]
        exact hrest
      · have hsame : Keeping k [] s s := .refl s
        have hborder : Vm.rawLength i (s.vm k) = .ok vs.length (s.vm k) := by
          rw [Vm.rawLength_table (hi [] s hsame)]
          congr 1
          rw [← length, ← Table.length_numbered ws, ← made.table]
          rfl
        rw [if_neg hcase, bind_ok (onMachine_look hborder)]
        exact hrest

theorem readMapping_reads (hr : Coded enc k s) {w : Value} (hat : At k s index w)
    {kind : MappingKind} {es : List (HostValue × HostValue)}
    (hw : Holds enc s.heap 0 w (.mapping kind es)) {host : HostType} {fuel : Nat}
    (horigin : host.origin? = some (.mapping kind)) (hdiffer : KeysDiffer es)
    (hfuel : es.length < fuel)
    (hreadk : ∀ e ∈ es,
      ReadsPart enc k depth (readAt (-2) (orNatural host.entryTypes.1)) (-2) e.1)
    (hreadv : ∀ e ∈ es,
      ReadsPart enc k depth (readAt (-1) (orNatural host.entryTypes.2)) (-1) e.2) :
    Reads k (depth + 1) (readMapping readAt fuel k index host) (.mapping kind es) s := by
  cases hw with
  | @mapping _ id entries _ made length distinct normal keys values =>
      obtain ⟨i, hindex, hi⟩ := hat.abs
      have hkeys : HoldsEach enc s.heap 0 (entries.map (·.1.value)) (es.map (·.1)) :=
        ⟨by rw [List.length_map, List.length_map, length], keys⟩
      have hvalues : HoldsEach enc s.heap 0 (entries.map (·.2)) (es.map (·.2)) :=
        ⟨by rw [List.length_map, List.length_map, length], values⟩
      rcases htypes : host.entryTypes with ⟨keyType, valueType⟩
      rw [htypes] at hreadk hreadv
      have hentries := readEntries_reads hr [] [] hi made.table
        distinct normal hkeys hvalues hdiffer rfl hreadk hreadv (Table.next_first distinct)
        (by rw [length]; exact hfuel) (push_leaves hr.machine .nil)
      have hblock : (do
          push k .nil
          readEntries readAt k i (orNatural keyType) (orNatural valueType) fuel []) s
          = readEntries readAt k i (orNatural keyType) (orNatural valueType) fuel []
            (s.withSlots k ((s.machine k).slots ++ [.nil])) := bind_ok (push_eq s k .nil)
      rw [← hblock] at hentries
      have hrestored := restoringTop_ends hr.machine hr.live hentries
      unfold Reads readMapping
      rw [htypes]
      dsimp only
      rw [bind_ok hindex]
      refine (hrestored.mono (fun _ _ h => h) ?_).bind ?_
      · rintro e t ⟨⟨hdeep, he⟩, ht⟩
        exact ⟨⟨Nat.succ_lt_succ hdeep, he⟩, ht⟩
      · rintro es' t ⟨hlevels, hes', ht⟩
        have hanswer : (HostValue.mapping kind es').canonical
            = (HostValue.mapping kind es).canonical := by
          rw [HostValue.canonical, HostValue.canonical, HostValue.canonicalEntries_eq,
            HostValue.canonicalEntries_eq, hes', List.nil_append]
        rw [horigin]
        exact ⟨Nat.succ_le_succ hlevels, hanswer, ht⟩

end

-- ================================================================ instances

/-- Arguments that are the same but for zeros are found under the same names. -/
theorem find?_canonical {given fs : List (String × HostValue)} {name : String}
    (h : given.map (fun g => (g.1, g.2.canonical)) = fs.map fun f => (f.1, f.2.canonical)) :
    ((given.find? (·.1 == name)).map (·.2)).map HostValue.canonical
      = ((fs.find? (·.1 == name)).map (·.2)).map HostValue.canonical := by
  have hmap : ∀ gs : List (String × HostValue),
      ((gs.find? (·.1 == name)).map (·.2)).map HostValue.canonical
        = ((gs.map fun g => (g.1, g.2.canonical)).find? (·.1 == name)).map (·.2) := by
    intro gs
    rw [List.find?_map, Option.map_map, Option.map_map]
    rfl
  rw [hmap, hmap, h]

/-- Instances of arguments that are found alike are the same but for zeros. -/
theorem fieldValues_canonical {given given' : List (String × HostValue)} {fs : List FieldSpec}
    (h : ∀ f ∈ fs, ((given.find? (·.1 == f.name)).map (·.2)).map HostValue.canonical
      = ((given'.find? (·.1 == f.name)).map (·.2)).map HostValue.canonical) :
    (Classes.fieldValues given fs).map (fun g => (g.1, g.2.canonical))
      = (Classes.fieldValues given' fs).map fun g => (g.1, g.2.canonical) := by
  induction fs with
  | nil => rfl
  | cons f fs ih =>
      have hrest := ih fun g hg => h g (List.mem_cons_of_mem _ hg)
      have hhead := h f (List.mem_cons_self ..)
      unfold Classes.fieldValues
      by_cases hinit : f.init = true
      · simp only [hinit, if_true]
        cases hv : (given.find? (·.1 == f.name)).map (·.2) with
        | none =>
            rw [hv] at hhead
            rw [Option.map_eq_none_iff.mp hhead.symm]
            cases f.defaultValue? with
            | none => exact hrest
            | some d => exact congrArg (List.cons _) hrest
        | some v =>
            rw [hv] at hhead
            obtain ⟨v', hv', heq⟩ := Option.map_eq_some_iff.mp hhead.symm
            rw [hv']
            show (f.name, v.canonical) :: _ = (f.name, v'.canonical) :: _
            rw [heq, hrest]
      · simp only [if_neg hinit]
        cases f.defaultValue? with
        | none => exact hrest
        | some d => exact congrArg (List.cons _) hrest

/-- The fields of an instance are the arguments that they were given. -/
theorem fieldValues_named {given gs : List (String × HostValue)} {fs : List FieldSpec}
    (hdistinct : (given.map (·.1)).Nodup) (hsub : ∀ g ∈ gs, g ∈ given)
    (hnames : gs.map (·.1) = fs.map (·.name)) (hinit : ∀ f ∈ fs, f.init = true) :
    Classes.fieldValues given fs = gs := by
  induction fs generalizing gs with
  | nil =>
      cases gs with
      | nil => rfl
      | cons g gs => cases hnames
  | cons f fs ih =>
      cases gs with
      | nil => cases hnames
      | cons g gs =>
          obtain ⟨hhead, hnames⟩ := List.cons.inj hnames
          have hname : f.name = g.1 := hhead.symm
          have hargument : (given.find? (·.1 == f.name)).map (·.2) = some g.2 := by
            rw [hname]
            exact find?_named hdistinct (hsub g (List.mem_cons_self ..))
          have hrest := ih (fun d hd => hsub d (List.mem_cons_of_mem _ hd)) hnames
            fun d hd => hinit d (List.mem_cons_of_mem _ hd)
          unfold Classes.fieldValues
          rw [hinit f (List.mem_cons_self ..), hrest]
          simp only [if_true, hargument]
          rw [hname]
          rfl

/-- An instance can be made of a value for each field without a default. -/
theorem build_named {cs : Classes} {name : String} {given : List (String × HostValue)}
    (hrequired : ∀ f ∈ cs.fields name, f.hasDefault = true ∨ f.name ∈ given.map (·.1)) :
    cs.build name given
      = .ok (.record name (cs.isTuple name) (Classes.fieldValues given (cs.fields name))) := by
  have hmissing : (cs.parameters name).filter
      (fun f => !f.hasDefault && given.all (·.1 != f.name)) = [] := by
    refine List.filter_eq_nil_iff.mpr fun f hf => ?_
    rcases hrequired f (List.mem_filter.mp hf).1 with hdefault | hmem
    · rw [hdefault]
      exact Bool.false_ne_true
    · obtain ⟨g, hg, hname⟩ := List.mem_map.mp hmem
      have hall : given.all (·.1 != f.name) = false := by
        refine List.all_eq_false.mpr ⟨g, hg, ?_⟩
        simpa using hname
      rw [hall, Bool.and_false]
      exact Bool.false_ne_true
  unfold Classes.build
  simp only [hmissing]

/-- What a table has no value for has a default. -/
theorem Offers.required {cs : Classes} {h : Heap} {hinted : List (FieldSpec × TypeExpr)}
    {fs : List (String × HostValue)} (hoffers : Offers cs enc h id hinted fs) :
    ∀ q ∈ hinted, q.1.hasDefault = true ∨ q.1.name ∈ fs.map (·.1) := by
  induction hoffers with
  | nil => exact fun q hq => absurd hq List.not_mem_nil
  | @given q qs f fs name _ _ _ ih =>
      intro p hp
      rcases List.mem_cons.mp hp with rfl | hmem
      · exact Or.inr (by rw [name]; exact List.mem_cons_self ..)
      · exact (ih p hmem).imp_right fun h => List.mem_cons_of_mem _ h
  | @omitted q qs fs _ default _ ih =>
      intro p hp
      rcases List.mem_cons.mp hp with rfl | hmem
      · exact Or.inl default
      · exact ih p hmem

section

variable {readAt : Int → TypeExpr → Action HostValue} {R : String → Prop}

/-- Reading an instance from a table makes it of the fields that are there, but
for the signs of zeros. -/
theorem readRecord_offered (hr : Coded enc k s) (hat : At k s index (.table id)) {name : String}
    {fs : List (String × HostValue)} {hinted : List (FieldSpec × TypeExpr)} {host : HostType}
    (hhost : host.recordName = name) (hopen : Opens ctx.classes R name)
    (hhints : hintedFields ctx.classes name = .ok hinted)
    (hoffers : Offers ctx.classes enc s.heap id hinted fs)
    (hread : ∀ q ∈ hinted, ∀ f ∈ fs, Fits ctx.classes f.2 q.2 →
      ReadsPart enc k depth (readAt (-1) (orNatural q.2)) (-1) f.2) :
    Ends (readRecord ctx readAt k index host s)
      (fun v t => HostValue.levelsFields fs ≤ depth
        ∧ (∃ given : List (String × HostValue),
          given.map (fun g => (g.1, g.2.canonical)) = fs.map (fun f => (f.1, f.2.canonical))
          ∧ v = .record name (ctx.classes.isTuple name)
            (Classes.fieldValues given (ctx.classes.fields name)))
        ∧ Keeping k [] s t)
      fun e t => (depth < HostValue.levelsFields fs ∧ e = tooDeep) ∧ Keeping k [] s t := by
  have hfields := (hopen.hinted_fields hhints).1
  have hinit : ∀ q ∈ hinted, q.1.init = true := by
    intro q hq
    refine hopen.init q.1 ?_
    rw [← hfields]
    exact List.mem_map_of_mem hq
  obtain ⟨i, hindex, hi⟩ := hat.abs
  have hgiven := readFields_reads hr hi hoffers hinit hread (Leaves.refl s)
  have hopened : ofHost (hintedFields ctx.classes host.recordName) s = .ok hinted s := by
    rw [hhost, hhints]
    rfl
  have hblock : (do
      let fields ← ofHost (hintedFields ctx.classes host.recordName)
      readFields readAt k i fields) s = readFields readAt k i hinted s := bind_ok hopened
  rw [← hblock] at hgiven
  have hrestored := restoringTop_ends hr.machine hr.live hgiven
  unfold readRecord
  rw [bind_ok hindex]
  refine (hrestored.mono (fun _ _ h => h) fun _ _ h => h).bind ?_
  rintro given t ⟨hlevels, hgiven, ht⟩
  have hnames : given.map (·.1) = fs.map (·.1) := by
    have hmap := congrArg (List.map (·.1)) hgiven
    rwa [List.map_map, List.map_map] at hmap
  have hrequired : ∀ f ∈ ctx.classes.fields name,
      f.hasDefault = true ∨ f.name ∈ given.map (·.1) := by
    intro f hf
    rw [← hfields] at hf
    obtain ⟨q, hq, rfl⟩ := List.mem_map.mp hf
    rw [hnames]
    exact hoffers.required q hq
  rw [hhost, build_named hrequired]
  exact ⟨hlevels, ⟨given, hgiven, rfl⟩, ht⟩

theorem readRecord_reads (hr : Coded enc k s) {w : Value} (hat : At k s index w) {name : String}
    {fields : List (String × HostValue)} {hinted : List (FieldSpec × TypeExpr)}
    (hw : Holds enc s.heap 0 w (.record name (ctx.classes.isTuple name) fields)) {host : HostType}
    (hhost : host.recordName = name) (hopen : Opens ctx.classes R name)
    (hhints : hintedFields ctx.classes name = .ok hinted)
    (hnames : fields.map (·.1) = hinted.map (·.1.name))
    (hfits : ∀ p ∈ fields.zip hinted, Fits ctx.classes p.1.2 p.2.2)
    (hread : ∀ q ∈ hinted, ∀ f ∈ fields, Fits ctx.classes f.2 q.2 →
      ReadsPart enc k depth (readAt (-1) (orNatural q.2)) (-1) f.2) :
    Reads k (depth + 1) (readRecord ctx readAt k index host)
      (.record name (ctx.classes.isTuple name) fields) s := by
  have hdistinct := hopen.distinct_fields hhints hnames
  cases hw with
  | @record _ _ id ws _ made length values =>
      have hoffers := offers_record [] [] made.table rfl
        ⟨by rw [length, List.length_map], values⟩ hnames hdistinct hfits
      refine (readRecord_offered hr hat hhost hopen hhints hoffers hread).mono ?_ ?_
      · rintro v t ⟨hlevels, ⟨given, hgiven, rfl⟩, ht⟩
        have hgnames := congrArg (List.map (·.1)) hgiven
        rw [List.map_map, List.map_map] at hgnames
        have hall := hopen.names_fields hhints (hgnames.trans hnames)
        have hvalues : Classes.fieldValues given (ctx.classes.fields name) = given :=
          fieldValues_named (by rw [hall]; exact hopen.distinct) (fun _ hg => hg) hall hopen.init
        refine ⟨Nat.succ_le_succ hlevels, ?_, ht⟩
        rw [hvalues, HostValue.canonical, HostValue.canonical, HostValue.canonicalFields_eq,
          HostValue.canonicalFields_eq, hgiven]
      · rintro e t ⟨⟨hdeep, he⟩, ht⟩
        exact ⟨⟨Nat.succ_lt_succ hdeep, he⟩, ht⟩

end

end Bridge

end StackBridge
