import StackBridge.Proofs.Frames.Isolation
import StackBridge.Proofs.RoundTrip.Whole
import StackBridge.Proofs.Wrapper.Wrap

/-!
Records and mappings from names are views of one kind of table: a record is
pushed into a table that is read as a mapping from the names of its fields, and
a mapping from some of those names is read as the record of its values and the
defaults of the other fields (`record_views`).

Names are written in two ways. A record goes by the names of its fields in
UTF-8, a mapping by texts in the encoding of the session, so all of this is about
encodings in which the names are what they are in UTF-8.
-/

namespace StackBridge

open Bridge

-- ================================================================== names

/-- An encoding writes the names of the fields of a class as UTF-8 does. -/
def Classes.Names (cs : Classes) (enc : Encoding) (name : String) : Prop :=
  ∀ f ∈ cs.fields name, enc.encode f.name = .ok (utf8 f.name)

/-- The mapping from names to values. -/
def HostValue.named (kind : MappingKind) (given : List (String × HostValue)) : HostValue :=
  .mapping kind (given.map fun g => (.str g.1, g.2))

/-- Values for some fields of a record class, for all of those without a
default. -/
structure Supplies (cs : Classes) (hinted : List (FieldSpec × TypeExpr))
    (given : List (String × HostValue)) : Prop where
  distinct : (given.map (·.1)).Nodup
  fits : ∀ g ∈ given, ∃ q ∈ hinted, q.1.name = g.1 ∧ Fits cs g.2 q.2
  required : ∀ q ∈ hinted, q.1.hasDefault = true ∨ q.1.name ∈ given.map (·.1)

/-- The values that are given for fields, in the order of those. -/
def inOrder (given : List (String × HostValue)) (hinted : List (FieldSpec × TypeExpr)) :
    List (String × HostValue) :=
  hinted.filterMap fun q => given.find? (·.1 == q.1.name)

theorem mem_inOrder {given : List (String × HostValue)} {hinted : List (FieldSpec × TypeExpr)}
    {f : String × HostValue} (hf : f ∈ inOrder given hinted) : f ∈ given := by
  obtain ⟨q, _, hq⟩ := List.mem_filterMap.mp hf
  exact List.mem_of_find?_eq_some hq

/-- They are found under the same names. -/
theorem find?_inOrder {given : List (String × HostValue)} {hinted : List (FieldSpec × TypeExpr)}
    (hdistinct : (hinted.map (·.1.name)).Nodup) {q : FieldSpec × TypeExpr} (hq : q ∈ hinted) :
    (inOrder given hinted).find? (·.1 == q.1.name) = given.find? (·.1 == q.1.name) := by
  induction hinted with
  | nil => cases hq
  | cons p hinted ih =>
      obtain ⟨hnew, hdistinct⟩ := List.nodup_cons.mp hdistinct
      have hskip : ∀ f ∈ inOrder given hinted, f.1 ≠ p.1.name := by
        intro f hf heq
        obtain ⟨r, hr, hfound⟩ := List.mem_filterMap.mp hf
        have hname : f.1 = r.1.name := by simpa using List.find?_some hfound
        exact hnew (List.mem_map.mpr ⟨r, hr, hname.symm.trans heq⟩)
      unfold inOrder at ih hskip ⊢
      rw [List.filterMap_cons]
      rcases List.mem_cons.mp hq with rfl | hmem
      · cases hfound : given.find? (·.1 == q.1.name) with
        | none =>
            refine List.find?_eq_none.mpr fun f hf => ?_
            simpa using hskip f hf
        | some f =>
            have hname : f.1 = q.1.name := by simpa using List.find?_some hfound
            show List.find? (·.1 == q.1.name) (f :: _) = _
            rw [List.find?_cons, beq_iff_eq.mpr hname]
      · have hrest := ih hdistinct hmem
        cases hfound : given.find? (·.1 == p.1.name) with
        | none => exact hrest
        | some f =>
            have hname : f.1 = p.1.name := by simpa using List.find?_some hfound
            have hne : (f.1 == q.1.name) = false := by
              refine beq_false_of_ne fun heq => hnew ?_
              exact List.mem_map.mpr ⟨q, hmem, heq.symm.trans hname⟩
            show List.find? (·.1 == q.1.name) (f :: _) = _
            rw [List.find?_cons, hne]
            exact hrest

/-- The values of a mapping from names are all in order, and nothing else is. -/
theorem levels_inOrder {cs : Classes} {kind : MappingKind} {given : List (String × HostValue)}
    {hinted : List (FieldSpec × TypeExpr)} (hs : Supplies cs hinted given) :
    (HostValue.named kind given).levels
      = HostValue.levelsFields (inOrder given hinted) + 1 := by
  refine congrArg (· + 1) (Nat.le_antisymm ?_ ?_)
  · refine HostValue.levelsEntries_le fun e he => ?_
    obtain ⟨g, hg, rfl⟩ := List.mem_map.mp he
    obtain ⟨q, hq, hname, _⟩ := hs.fits g hg
    have hfound : given.find? (·.1 == q.1.name) = some g := by
      rw [hname]
      exact find?_self hs.distinct hg
    have hmem : g ∈ inOrder given hinted := List.mem_filterMap.mpr ⟨q, hq, hfound⟩
    have hlevels := HostValue.levels_le_levelsFields hmem
    exact ⟨Nat.le_trans (HostValue.levels_pos g.2) hlevels, hlevels⟩
  · refine HostValue.levelsFields_le fun f hf => ?_
    have hentry : ((.str f.1, f.2) : HostValue × HostValue)
        ∈ given.map fun g => (HostValue.str g.1, g.2) := List.mem_map_of_mem (mem_inOrder hf)
    exact (HostValue.levels_le_levelsEntries hentry).2

-- ============================================================== text keys

/-- Mappings from different names have different keys. -/
theorem keysDiffer_named {given : List (String × HostValue)} (h : (given.map (·.1)).Nodup) :
    KeysDiffer (given.map fun g => (HostValue.str g.1, g.2)) where
  hashable e he := by
    obtain ⟨g, _, rfl⟩ := List.mem_map.mp he
    rfl
  differ := by
    rw [List.map_map, List.pairwise_map]
    exact (List.pairwise_map.mp h).imp HostValue.sameKey_text

/-- A new name goes to the end. -/
theorem Dict.insert_name {rs : List (HostValue × HostValue)} {ns : List String} {n : String}
    {v : HostValue} (hrs : rs.map (·.1) = ns.map .str) (hn : n ∉ ns) :
    Dict.insert rs (.str n) v = .ok (rs ++ [(.str n, v)]) := by
  have hnew : ∀ r ∈ rs, r.1.sameKey (.str n) = false := by
    intro r hr
    have hmem := List.mem_map_of_mem (f := (·.1)) hr
    rw [hrs] at hmem
    obtain ⟨m, hm, heq⟩ := List.mem_map.mp hmem
    have hne : m ≠ n := fun h => hn (h ▸ hm)
    rw [← heq]
    exact HostValue.sameKey_text hne
  show Except.ok (Dict.put (.str n) v rs) = _
  rw [Dict.put_new hnew]

-- ============================================== from a mapping to a record

/-- Names stand for themselves in UTF-8. -/
theorem keys_named {enc : Encoding} {h : Heap} {lo : Nat} {entries : List (Key × Value)}
    {given : List (String × HostValue)}
    (hkeys : HoldsEach enc h lo (entries.map (·.1.value)) (given.map fun g => .str g.1))
    (hutf : ∀ g ∈ given, enc.encode g.1 = .ok (utf8 g.1)) :
    entries.map (·.1) = given.map fun g => .str (utf8 g.1) := by
  induction given generalizing entries with
  | nil =>
      have hlength := hkeys.length
      rw [List.length_map, List.map_nil, List.length_nil, List.length_eq_zero_iff] at hlength
      rw [hlength]
      rfl
  | cons g given ih =>
      cases entries with
      | nil => exact absurd hkeys.length (Nat.succ_ne_zero _).symm
      | cons e entries =>
          obtain ⟨key, value⟩ := e
          have hrest := ih hkeys.tail fun g' hg' => hutf g' (List.mem_cons_of_mem _ hg')
          have hencode := hutf g (List.mem_cons_self ..)
          have hhead : Holds enc h lo key.value (.str g.1) := hkeys.head
          have hkey : key = .str (utf8 g.1) := by
            generalize hw : key.value = w at hhead
            cases hhead with
            | @text _ b written =>
                obtain rfl : b = utf8 g.1 := Except.ok.inj (written.symm.trans hencode)
                cases key <;> cases hw
                rfl
          rw [List.map_cons, List.map_cons, hrest, hkey]

/-- A table with the values that are given, each under its name, offers them field by
field, whether a value is given or not. -/
theorem offers_inOrder {cs : Classes} {enc : Encoding} {h : Heap} {id : TableId}
    {given : List (String × HostValue)} {hinted : List (FieldSpec × TypeExpr)}
    (hs : Supplies cs hinted given) (hdistinct : (hinted.map (·.1.name)).Nodup)
    (hfound : ∀ g ∈ given, Holds enc h 0 ((h.table id).get (.str (utf8 g.1))) g.2)
    (hnone : ∀ n : String, n ∉ given.map (·.1) → (h.table id).get (.str (utf8 n)) = .nil)
    (qs : List (FieldSpec × TypeExpr)) (hqs : ∀ q ∈ qs, q ∈ hinted) :
    Offers cs enc h id qs (inOrder given qs) := by
  induction qs with
  | nil => exact .nil
  | cons q qs ih =>
      have hrest := ih fun p hp => hqs p (List.mem_cons_of_mem _ hp)
      have hq := hqs q (List.mem_cons_self ..)
      unfold inOrder at hrest ⊢
      rw [List.filterMap_cons]
      cases hfind : given.find? (·.1 == q.1.name) with
      | none =>
          have hout : q.1.name ∉ given.map (·.1) := by
            intro hmem
            obtain ⟨g, hg, hname⟩ := List.mem_map.mp hmem
            have hne := List.find?_eq_none.mp hfind g hg
            exact hne (beq_iff_eq.mpr hname)
          exact .omitted (hnone _ hout) ((hs.required q hq).resolve_right hout) hrest
      | some g =>
          have hg := List.mem_of_find?_eq_some hfind
          have hname : g.1 = q.1.name := by simpa using List.find?_some hfind
          obtain ⟨q', hq', hname', hfits⟩ := hs.fits g hg
          obtain rfl : q' = q :=
            List.inj_on_of_nodup_map hdistinct hq' hq (hname'.trans hname)
          refine .given hname.symm hfits ?_ hrest
          rw [← hname]
          exact hfound g hg

/-- What stands for a mapping from names has a value under each of them, and
under no other. -/
theorem offers_named {cs : Classes} {enc : Encoding} {h : Heap} {lo : Nat} {w : Value}
    {kind : MappingKind} {given : List (String × HostValue)}
    {hinted : List (FieldSpec × TypeExpr)} (hw : Holds enc h lo w (.named kind given))
    (hs : Supplies cs hinted given) (hdistinct : (hinted.map (·.1.name)).Nodup)
    (hnames : ∀ q ∈ hinted, enc.encode q.1.name = .ok (utf8 q.1.name)) :
    ∃ id, w = .table id ∧ Offers cs enc h id hinted (inOrder given hinted) := by
  unfold HostValue.named at hw
  cases hw with
  | @mapping _ id entries _ made length distinct normal keys values =>
  refine ⟨id, rfl, ?_⟩
  have hutf : ∀ g ∈ given, enc.encode g.1 = .ok (utf8 g.1) := by
    intro g hg
    obtain ⟨q, hq, hname, _⟩ := hs.fits g hg
    rw [← hname]
    exact hnames q hq
  rw [List.map_map] at keys values
  rw [List.length_map] at length
  have hkeys := keys_named
    ⟨by rw [List.length_map, List.length_map, length], keys⟩ hutf
  have hfound : ∀ g ∈ given, Holds enc h 0 ((h.table id).get (.str (utf8 g.1))) g.2 := by
    intro g hg
    obtain ⟨i, hi⟩ := List.mem_iff_getElem?.mp hg
    obtain ⟨e, he, _⟩ := exists_getElem?_zip length.symm hi
    have hkey : e.1 = .str (utf8 g.1) := by
      have hat := congrArg (·[i]?) hkeys
      simp only [List.getElem?_map, he, hi, Option.map_some] at hat
      exact Option.some.inj hat
    have hvalue : Holds enc h lo e.2 g.2 := by
      refine values (e.2, g.2) (List.mem_of_getElem? (i := i) ?_)
      rw [List.getElem?_zip_eq_some, List.getElem?_map, List.getElem?_map, he, hi]
      exact ⟨rfl, rfl⟩
    rw [made.table, Table.get_mem distinct (List.mem_of_getElem? he) (by rw [hkey]; rfl)]
    exact hvalue.mono (.refl _ _) (Nat.zero_le _)
  have hnone : ∀ n : String, n ∉ given.map (·.1) → (h.table id).get (.str (utf8 n)) = .nil := by
    intro n hn
    rw [made.table]
    refine Table.get_new rfl fun hmem => hn ?_
    rw [hkeys] at hmem
    obtain ⟨g, hg, heq⟩ := List.mem_map.mp hmem
    rw [← utf8_injective (Key.str.inj heq)]
    exact List.mem_map_of_mem hg
  exact offers_inOrder hs hdistinct hfound hnone hinted fun _ hq => hq

namespace Bridge

open Session

variable {enc : Encoding} {R : String → Prop} {ctx : Context} {k : MachineId} {s : Session}
  {index : Int} {w : Value} {kind : MappingKind} {name : String}
  {given : List (String × HostValue)} {hinted : List (FieldSpec × TypeExpr)}

/-- A mapping from names is pushed by its class if its values fit types that are
built. -/
theorem pushAs_named (hopens : ∀ name, R name → Opens ctx.classes R name) (limit : Nat)
    (hbuilt : ∀ q ∈ hinted, Built R q.2) (hs : Supplies ctx.classes hinted given)
    (hw : Written enc (.named kind given))
    (hlevels : (HostValue.named kind given).levels ≤ limit + 1) :
    Stores enc k (pushAs ctx k (limit + 1) (.named kind given) .none) (.named kind given) := by
  intro s hr
  have haccepts : Accepts (describeIn ctx.classes "push" (.cls (.mapping kind))) :=
    accepts_enrol rfl accepts_pure
  obtain ⟨noted, hpush⟩ := pushAs_of_shape (v := .named kind given) limit hr.live (if_pos rfl) rfl
    haccepts
  have hsame : Adds k [] s { s with described := noted } := Leaves.same rfl rfl rfl rfl rfl
  have hparts : ∀ g ∈ given, HostValue.levels (.str g.1) ≤ limit ∧ g.2.levels ≤ limit
      ∧ Written enc (.str g.1) ∧ Written enc g.2 := by
    intro g hg
    have hmem : ((.str g.1, g.2) : HostValue × HostValue)
        ∈ given.map fun g => (HostValue.str g.1, g.2) := List.mem_map_of_mem hg
    have hle := HostValue.levels_le_levelsEntries hmem
    have hlimit := Nat.le_of_succ_le_succ hlevels
    exact ⟨Nat.le_trans hle.1 hlimit, Nat.le_trans hle.2 hlimit, (hw.entry hmem).1,
      (hw.entry hmem).2⟩
  have hkeys : ∀ e ∈ given.map fun g => (HostValue.str g.1, g.2),
      Fits ctx.classes e.1 (.cls (.text .plain)) := by
    intro e he
    obtain ⟨g, _, rfl⟩ := List.mem_map.mp he
    exact .text g.1
  have hstores : Stores enc k (pushMapping (pushAs ctx k limit) k (.named kind given)
      ⟨.cls (.mapping kind), .mapping⟩) (.named kind given) := by
    refine stores_pushMapping (fun e he => ?_) (fun e he => ?_) (keysDiffer_named hs.distinct) hkeys
    all_goals obtain ⟨g, hg, rfl⟩ := List.mem_map.mp he
    · obtain ⟨hlevels, _, hw, _⟩ := hparts g hg
      exact pushAs_stores hopens limit .text (.text g.1) hw (Or.inl rfl) hlevels
    · obtain ⟨_, hlevels, _, hw⟩ := hparts g hg
      obtain ⟨q, hq, _, hfits⟩ := hs.fits g hg
      exact pushAs_stores hopens limit (hbuilt q hq) hfits hw (Or.inl rfl) hlevels
  obtain ⟨w, t, ht, hadds, hholds, hreports⟩ := hstores _ (hr.after hsame)
  exact ⟨w, t, hpush ht hadds, hsame.trans hadds, hholds, hreports⟩

/-- What stands for it is read as an instance of its values, with the defaults
of the other fields. -/
theorem readAs_named (hopens : ∀ name, R name → Opens ctx.classes R name) (hallowed : R name)
    (hhints : hintedFields ctx.classes name = .ok hinted) (hs : Supplies ctx.classes hinted given)
    (hnames : ctx.classes.Names enc name) (run : BlockId → Action Unit) {fuel : Nat}
    (handler : Handler) (depth : Nat) {lo : Nat}
    (hfuel : sizeOf (HostValue.named kind given) ≤ fuel) (hr : Coded enc k s)
    (hat : At k s index w) (hw : Holds enc s.heap lo w (.named kind given)) :
    Ends (readAs ctx run fuel k handler (depth + 1) index (.cls (.record name)) s)
      (fun v t => (HostValue.named kind given).levels ≤ depth + 1
        ∧ v.canonical = (HostValue.record name (ctx.classes.isTuple name)
          (Classes.fieldValues given (ctx.classes.fields name))).canonical ∧ Keeping k [] s t)
      fun e t => (depth + 1 < (HostValue.named kind given).levels ∧ e = tooDeep)
        ∧ Keeping k [] s t := by
  have hopen := hopens name hallowed
  obtain ⟨hfields, hbuilts⟩ := hopen.hinted_fields hhints
  have hmem : ∀ q ∈ hinted, q.1 ∈ ctx.classes.fields name := by
    intro q hq
    rw [← hfields]
    exact List.mem_map_of_mem hq
  have hdistinct : (hinted.map (·.1.name)).Nodup := by
    have h := hopen.distinct
    rw [← hfields, List.map_map] at h
    exact h
  obtain ⟨id, rfl, hoffers⟩ :=
    offers_named hw hs hdistinct fun q hq => hnames q.1 (hmem q hq)
  let host : HostType := ⟨.cls (.record name), .record⟩
  have hhost : (TypeExpr.cls (.record name)).hostType? = some host := rfl
  have hrecord : host.recordName = name := rfl
  obtain ⟨noted, heq⟩ := readAs_eq_readHost run fuel handler depth index hr.live hhost
    (accepts_describeIn hopens (.record hallowed))
  let s' : Session := { s with described := noted }
  have hsame : Keeping k [] s s' := Leaves.same rfl rfl rfl rfl rfl
  have hat' : At k s' index (.table id) := ⟨hat.place⟩
  have hparts : ∀ q ∈ hinted, ∀ f ∈ inOrder given hinted, Fits ctx.classes f.2 q.2 →
      ReadsPart enc k depth (readAs ctx run fuel k handler depth (-1) (orNatural q.2)) (-1) f.2 := by
    intro q hq f hf hfits
    have hentry : ((.str f.1, f.2) : HostValue × HostValue)
        ∈ given.map fun g => (HostValue.str g.1, g.2) := List.mem_map_of_mem (mem_inOrder hf)
    rw [orNatural_built (hbuilts q hq)]
    exact readAs_reads hopens depth (hbuilts q hq) hfits (HostValue.sizeOf_entry hentry hfuel).2
  have hslot : readHost ctx run (readAs ctx run fuel k handler depth) fuel k index host handler s'
      = readRecord ctx (readAs ctx run fuel k handler depth) k index host s' :=
    readHost_of_category hat'.value rfl Shape.noConfusion
  have hends := readRecord_offered (hr.during hsame) hat' hrecord hopen hhints hoffers hparts
  rw [← hslot] at hends
  rw [heq (hends.mono (fun _ _ h => h.2.2) fun _ _ h => h.2), levels_inOrder hs]
  refine hends.mono ?_ ?_
  · rintro v t ⟨hlevels, ⟨given', hgiven, rfl⟩, ht⟩
    refine ⟨Nat.succ_le_succ hlevels, ?_, hsame.trans ht⟩
    rw [HostValue.canonical, HostValue.canonical, HostValue.canonicalFields_eq,
      HostValue.canonicalFields_eq]
    refine congrArg _ (fieldValues_canonical fun f hf => ?_)
    rw [← hfields] at hf
    obtain ⟨q, hq, rfl⟩ := List.mem_map.mp hf
    rw [find?_canonical hgiven, find?_inOrder hdistinct hq]
  · rintro e t ⟨⟨hdeep, he⟩, ht⟩
    exact ⟨⟨Nat.succ_lt_succ hdeep, he⟩, hsame.trans ht⟩

-- ============================================== from a record to a mapping

section

variable {s₀ t : Session} {id : TableId}

/-- A slot that is not nil is read as a wrapper. -/
theorem readAs_wrapper (ctx : Context) (run : BlockId → Action Unit) (fuel : Nat)
    (handler : Handler) (depth : Nat) (hk : k < s.machines.size) (hl : (s.machine k).Live)
    (hreg : (s.machine k).Registered s.heap.tables.size)
    (hat : Vm.valueAt? index (s.vm k) = .ok (some w) (s.vm k)) (hw : w ≠ .nil) :
    ∃ id t, readAs ctx run fuel k handler (depth + 1) index (.cls (.wrapper false)) s
        = .ok (.wrapper id false) t
      ∧ Leaves (GainsEntries k) k [] s t ∧ Collects k s t := by
  have haccepts : Accepts (describeIn ctx.classes "read" (.cls (.wrapper false))) :=
    accepts_enrol rfl accepts_pure
  obtain ⟨noted, hread⟩ := readAs_of_host run fuel handler depth index hl rfl haccepts
  let s' : Session := { s with described := noted }
  have hsame : Leaves (GainsEntries k) k [] s s' := Leaves.same rfl rfl rfl rfl rfl
  have hsame' : Collects k s s' := .of_same rfl rfl rfl rfl rfl
  obtain ⟨t, _, hwrap, _, _, hleaves, hcollects⟩ := wrap_collects (s := s') hk hl hreg hat hw
  have hanswer : (wrap k index >>= fun id => pure (HostValue.wrapper id false)) s'
      = .ok (.wrapper s'.wrappers.size false) t := bind_ok hwrap
  exact ⟨_, t, hread hanswer hleaves, hsame.trans hleaves, hsame'.trans hcollects⟩

/-- A text is read as what it is. -/
theorem readAs_text (ctx : Context) (run : BlockId → Action Unit) (fuel : Nat)
    (handler : Handler) (depth : Nat) (hl : (s.machine k).Live) {b : Bytes} {x : String}
    (hat : At k s index (.str b)) (hx : s.encoding.encode x = .ok b) :
    ∃ t, readAs ctx run fuel k handler (depth + 1) index (.cls (.text .plain)) s = .ok (.str x) t
      ∧ Leaves (GainsEntries k) k [] s t ∧ Collects k s t := by
  have haccepts : Accepts (describeIn ctx.classes "read" (.cls (.text .plain))) :=
    accepts_enrol rfl accepts_pure
  obtain ⟨noted, hread⟩ := readAs_of_host run fuel handler depth index hl rfl haccepts
  let s' : Session := { s with described := noted }
  have hsame : Leaves (GainsEntries k) k [] s s' := Leaves.same rfl rfl rfl rfl rfl
  have hat' : At k s' index (.str b) := ⟨hat.place⟩
  have hsame' : Leaves (GainsEntries k) k [] s' s' := .refl s'
  refine ⟨s', hread ?_ hsame', hsame, .of_same rfl rfl rfl rfl rfl⟩
  exact (readHost_of_category hat'.value rfl Shape.noConfusion).trans (readText_eq hat' hx)

/-- The entries after the key on top, when those before it have been read: the
names in order, each with a wrapper. -/
theorem readEntries_names (ctx : Context) (run : BlockId → Action Unit) (fuel : Nat)
    (handler : Handler) (depth : Nat) (hk : k < s₀.machines.size) (hl : (s₀.machine k).Live)
    (hreg : (s₀.machine k).Registered s₀.heap.tables.size) (hid : id ≠ (s₀.machine k).registry)
    (hi : ∀ xs t, Leaves (GainsEntries k) k xs s₀ t →
      Vm.valueAt? index (t.vm k) = .ok (some (.table id)) (t.vm k))
    (done : List (Key × Value)) (ns : List String) {rest : List (Key × Value)}
    (htable : s₀.heap.table id = .ofEntries (done ++ rest))
    (hdistinct : ((done ++ rest).map (·.1)).Nodup) {names : List String}
    (hkeys : rest.map (·.1) = names.map fun n => .str (utf8 n))
    (hnames : ∀ n ∈ names, s₀.encoding.encode n = .ok (utf8 n))
    (hvalues : ∀ e ∈ rest, e.2 ≠ .nil) {rs : List (HostValue × HostValue)}
    (hrs : rs.map (·.1) = ns.map .str) (hnew : (ns ++ names).Nodup) {key : Value}
    (hnext : (Table.ofEntries (done ++ rest)).next key = .ok rest.head?) {count : Nat}
    (hcount : rest.length < count) (h : Leaves (GainsEntries k) k [key] s₀ s)
    (hc : Collects k s₀ s) :
    ∃ es t, readEntries (readAs ctx run fuel k handler (depth + 1)) k index
        (.cls (.text .plain)) (.cls (.wrapper false)) count rs s = .ok es t
      ∧ Leaves (GainsEntries k) k [] s₀ t
      ∧ es.map (·.1) = (ns ++ names).map .str := by
  induction count generalizing done rest names rs ns key s with
  | zero => exact absurd hcount (Nat.not_lt_zero _)
  | succ count ih =>
      have htid := Vm.tableAt_eq (hi _ s h)
      rw [← htable, ← hc.gains.table id hid] at hnext
      unfold readEntries
      cases rest with
      | nil =>
          cases names with
          | cons n names => cases hkeys
          | nil =>
              obtain ⟨hdone, hleft⟩ := h.next_done hk hl htid hnext
              rw [bind_ok hdone]
              exact ⟨rs, _, rfl, hleft, by rw [List.append_nil]; exact hrs⟩
      | cons e rest =>
          cases names with
          | nil => cases hkeys
          | cons n names =>
              obtain ⟨hkey, hkeys'⟩ := List.cons.inj hkeys
              obtain ⟨key', value⟩ := e
              obtain rfl : key' = .str (utf8 n) := hkey
              obtain ⟨hmore, ht⟩ := h.next_more hk hl htid hnext
              have hct := hc.trans (.slots s k ((s₀.machine k).slots ++ [.str (utf8 n), value]))
              obtain ⟨i, u, hu, hleaves, hcollects⟩ := readAs_wrapper ctx run fuel handler depth
                (by rw [ht.size]; exact hk) (ht.live hl) (hct.registered hreg)
                (at_top [.str (utf8 n)] hl ht).value (hvalues _ (List.mem_cons_self ..))
              have hku := ht.trans hleaves
              have hcu := hct.trans hcollects
              have hname : u.encoding.encode n = .ok (utf8 n) := by
                rw [hcu.encoding]
                exact hnames n (List.mem_cons_self ..)
              obtain ⟨x, hx, hleaves', hcollects'⟩ := readAs_text ctx run fuel handler depth
                (hku.live hl) (at_second hl hku) hname
              have hkx := hku.trans hleaves'
              have hpop := Leaves.pop_one [.str (utf8 n)] hkx hl
              have hinsert : ∀ y, ofHost (Dict.insert rs (.str n) (.wrapper i false)) y
                  = .ok (rs ++ [(.str n, .wrapper i false)]) y := by
                intro y
                have hnew' := (List.nodup_append.mp hnew).2.2
                rw [Dict.insert_name hrs fun hmem =>
                  hnew' n hmem n (List.mem_cons_self ..) rfl]
                rfl
              rw [bind_ok hmore, if_neg (by decide), bind_ok hu, bind_ok hx, bind_ok hpop,
                bind_ok (hinsert _)]
              have hnext' := Table.next_entry hdistinct (k := .str (utf8 n)) rfl
              rw [List.append_cons done] at htable hdistinct hnext'
              rw [List.append_cons ns] at hnew ⊢
              refine ih (done ++ [_]) (ns ++ [n]) htable hdistinct hkeys'
                (fun m hm => hnames m (List.mem_cons_of_mem _ hm))
                (fun e he => hvalues e (List.mem_cons_of_mem _ he)) ?_ hnew hnext'
                (Nat.lt_of_succ_lt_succ hcount) (hkx.withSlots hk [.str (utf8 n)])
                ((hcu.trans hcollects').trans (.slots x k _))
              rw [List.map_append, List.map_append, hrs]
              rfl

/-- The type of mappings from texts to wrappers. -/
abbrev namesType : TypeExpr :=
  .generic (.mapping .plain) [.cls (.text .plain), .cls (.wrapper false)]

/-- The table of a record is read as a mapping from the names of its fields. -/
theorem readAs_names (ctx : Context) (run : BlockId → Action Unit) {fuel : Nat}
    (handler : Handler) (depth : Nat) (hk : k < s.machines.size) (hl : (s.machine k).Live)
    (hreg : (s.machine k).Registered s.heap.tables.size) (hat : At k s index (.table id))
    (hid : id ≠ (s.machine k).registry) {fields : List (String × HostValue)} {ws : List Value}
    (htable : s.heap.table id = .ofEntries ((fieldKeys fields).zip ws))
    (hlength : ws.length = fields.length) (hvalues : ∀ w ∈ ws, w ≠ .nil)
    (hdistinct : (fields.map (·.1)).Nodup)
    (hnames : ∀ f ∈ fields, s.encoding.encode f.1 = .ok (utf8 f.1)) (hfuel : fields.length < fuel) :
    ∃ es t, readAs ctx run fuel k handler (depth + 2) index namesType s
        = .ok (.mapping .plain es) t
      ∧ Leaves (GainsEntries k) k [] s t
      ∧ es.map (·.1) = fields.map fun f => .str f.1 := by
  have haccepts : Accepts (describeIn ctx.classes "read" namesType) :=
    accepts_enrol rfl ((accepts_enrol rfl accepts_pure).bind
      ((accepts_enrol rfl accepts_pure).bind accepts_pure))
  obtain ⟨noted, hread⟩ := readAs_of_host run fuel handler (depth + 1) index hl rfl haccepts
  let s' : Session := { s with described := noted }
  have hsame : Leaves (GainsEntries k) k [] s s' := Leaves.same rfl rfl rfl rfl rfl
  have hat' : At k s' index (.table id) := ⟨hat.place⟩
  obtain ⟨i, hindex, hi⟩ := hat'.abs
  have hkeys : ((fieldKeys fields).zip ws).map (·.1)
      = (fields.map (·.1)).map fun n => Key.str (utf8 n) := by
    rw [List.map_fst_zip (by rw [hlength]; exact Nat.le_of_eq (List.length_map _)), List.map_map]
    rfl
  have hkeysDistinct : (((fieldKeys fields).zip ws).map (·.1)).Nodup := by
    rw [hkeys]
    exact hdistinct.map fun m n h => utf8_injective (Key.str.inj h)
  have hcount : ((fieldKeys fields).zip ws).length < fuel := by
    rw [← List.length_map (f := (·.1)), hkeys, List.length_map, List.length_map]
    exact hfuel
  have hlk : k < s'.machines.size := hk
  have hl' : (s'.machine k).Live := hl
  have hpushed : Leaves (GainsEntries k) k [.nil] s' _ := push_leaves hlk .nil
  obtain ⟨es, t, hentries, hleaves, hes⟩ := readEntries_names ctx run fuel handler depth hlk hl'
    hreg hid hi [] [] htable hkeysDistinct hkeys
    (fun n hn => by
      obtain ⟨f, hf, rfl⟩ := List.mem_map.mp hn
      exact hnames f hf)
    (fun e he => hvalues e.2 (List.of_mem_zip he).2) List.map_nil hdistinct
    (Table.next_first hkeysDistinct) hcount hpushed (.slots s' k _)
  refine ⟨es, t, hread ?_ hleaves, hsame.trans hleaves, ?_⟩
  · have hblock : (do
        push k .nil
        readEntries (readAs ctx run fuel k handler (depth + 1)) k i (.cls (.text .plain))
          (.cls (.wrapper false)) fuel []) s' = .ok es t := (bind_ok (push_eq s' k .nil)).trans hentries
    have hrestored := restoringTop_ok hl' hblock
    refine (readHost_of_category hat'.value rfl Shape.noConfusion).trans ?_
    show readMapping (readAs ctx run fuel k handler (depth + 1)) fuel k index
      ⟨namesType, .mapping⟩ s' = _
    have hindex' : onMachine k (Vm.absIndex index) s' = .ok i s' := hindex
    unfold readMapping
    refine (bind_ok hindex').trans ?_
    exact bind_ok hrestored
  · rw [hes, List.nil_append, List.map_map]
    rfl

end

-- ============================================================= both together

/-- Points have two coordinates, the second one with a default. -/
def points (y : String) : Context :=
  ⟨[.record "Point" false [⟨"x", some (.cls (.integer .plain)), .required, true⟩,
      ⟨y, some (.cls (.integer .plain)), .value (.int 7), true⟩]],
    ⟨[.record "Point" false [⟨"x", some (.cls (.integer .plain)), .required, true⟩,
      ⟨y, some (.cls (.integer .plain)), .value (.value (.int 7)), true⟩]], 1, true, #[], #[], 0⟩⟩

theorem fields_points (y : String) :
    (points y).classes.fields "Point" = [⟨"x", some (.cls (.integer .plain)), .required, true⟩,
      ⟨y, some (.cls (.integer .plain)), .value (.int 7), true⟩] := rfl

theorem hint_integer (cs : Classes) :
    cs.hint (.cls (.integer .plain)) = .ok (.cls (.integer .plain)) := rfl

theorem supports_points {y : String} (hy : "x" ≠ y) :
    (points y).classes.Supports (.cls (.record "Point")) := by
  refine ⟨(· = "Point"), fun name hname => ?_, .record rfl⟩
  subst hname
  refine ⟨?_, ?_, ?_⟩ <;> rw [fields_points]
  · simpa using hy
  · simp
  · simp only [List.mem_cons, List.not_mem_nil, or_false, forall_eq_or_imp, forall_eq]
    exact ⟨⟨_, _, rfl, hint_integer _, .integer⟩, _, _, rfl, hint_integer _, .integer⟩

/-- Both are integers. -/
def coordinates (y : String) : List (FieldSpec × TypeExpr) :=
  [(⟨"x", some (.cls (.integer .plain)), .required, true⟩, .cls (.integer .plain)),
    (⟨y, some (.cls (.integer .plain)), .value (.int 7), true⟩, .cls (.integer .plain))]

theorem hinted_points {y : String} (hy : "x" ≠ y) :
    hintedFields (points y).classes "Point" = .ok (coordinates y) := by
  have hne : ("x" == y) = false := beq_false_of_ne hy
  have hhints : (points y).classes.hints "Point"
      = .ok [("x", .cls (.integer .plain)), (y, .cls (.integer .plain))] := rfl
  unfold hintedFields
  rw [hhints, fields_points]
  simp [Except.map, hne, coordinates]

/-- Points where the encoding is Latin-1. -/
def inLatin (y : String) : Session := afterOps (points y) [.setEncoding (some "latin-1")]

/-- The texts among the keys of a mapping. -/
def textKeys : HostValue → List String
  | .mapping _ es => es.filterMap fun e => match e.1 with
    | .text _ x => some x
    | _ => none
  | _ => []

/-- The number of an integer. -/
def integer? : HostValue → Option Int
  | .integer _ n => some n
  | _ => none

/-- The mapping from the one field of a tree to a single subtree. -/
def branch (n : Nat) : HostValue := .named .plain [("kids", .list [tree n])]

theorem levels_branch (n : Nat) : (branch n).levels = 2 * n + 4 := by
  show max (max 1 (max (tree n).levels 0 + 1)) 0 + 1 = 2 * n + 4
  rw [levels_tree]
  omega

/-- A program that defines the class of trees. -/
def treeProgram : Context :=
  ⟨trees.classes, ⟨[.record "Tree" false [⟨"kids", some (.text "list[Tree]"), .required, true⟩]],
    1, true, #[], #[], 0⟩⟩

/-- A branch that nests more deeply than is read, but not more deeply than is
pushed, is not read as a tree. -/
theorem branch_tooDeep {n : Nat} (hdeep : readLimit < 2 * n + 4) (hpushes : 2 * n + 4 ≤ pushLimit) :
    ∃ s₁, pushValue treeProgram 0 (branch n) .none (.start 1 true) = .ok () s₁
      ∧ ∀ run fuel handler, sizeOf (branch n) ≤ fuel →
        ∃ s₂, readValue treeProgram run fuel 0 handler (-1) (.cls (.record "Tree")) s₁
          = .error tooDeep s₂ := by
  obtain ⟨R, hopens, hbuilt⟩ : treeProgram.classes.Supports (.cls (.record "Tree")) :=
    supports_trees
  have hfields := (hopens "Tree" hbuilt.allowed).hinted_fields hinted_trees
  have hr : Coded .utf8 0 (.start 1 true) := ⟨by decide, ⟨rfl, 0, [], rfl, by decide⟩, rfl⟩
  have hlist : Fits treeProgram.classes (.list [tree n])
      (.generic (.sequence .list) [.cls (.record "Tree")]) := by
    refine .list fun v hv => ?_
    rw [List.mem_singleton.mp hv]
    exact fits_tree n
  have hsupplies : Supplies treeProgram.classes
      [(⟨"kids", some (.text "list[Tree]"), .required, true⟩,
        .generic (.sequence .list) [.cls (.record "Tree")])] [("kids", .list [tree n])] := by
    refine ⟨List.nodup_singleton _, fun g hg => ?_, fun q hq => ?_⟩
    · rw [List.mem_singleton.mp hg]
      exact ⟨_, List.mem_singleton.mpr rfl, rfl, hlist⟩
    · rw [List.mem_singleton.mp hq]
      exact Or.inr (List.mem_cons_self ..)
  have hwritten : Written .utf8 (branch n) := by
    refine .mapping _ (fun e he => ?_) fun e he => ?_ <;> rw [List.mem_singleton.mp he]
    · exact .text rfl
    · exact hlist.written
  have hlevels := levels_branch n
  have hlimit : (branch n).levels ≤ 489 + 1 := by
    rw [hlevels]
    exact hpushes
  obtain ⟨w, s₁, hpush, hadds, hholds, _⟩ :=
    pushAs_named hopens 489 hfields.2 hsupplies hwritten hlimit _ hr
  refine ⟨s₁, hpush, fun run fuel handler hfuel => ?_⟩
  have hends := readAs_named hopens hbuilt.allowed hinted_trees hsupplies (fun f _ => rfl) run
    handler 244 hfuel (hr.after hadds) (at_top [] hr.live hadds) hholds
  cases hread : readAs treeProgram run fuel 0 handler (244 + 1) (-1) (.cls (.record "Tree")) s₁ with
  | ok v t =>
      rw [hread] at hends
      have hle : (branch n).levels ≤ readLimit := hends.1
      rw [hlevels] at hle
      exact absurd hle (Nat.not_le.mpr hdeep)
  | error e t =>
      rw [hread] at hends
      obtain ⟨⟨_, rfl⟩, _⟩ := hends
      exact ⟨t, hread⟩

end Bridge

end StackBridge
