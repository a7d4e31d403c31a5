import StackBridge.Bridge.Equality
import StackBridge.Proofs.Action
import StackBridge.Proofs.Host.Typed

/-!
Values that fit a type and differ in the signs of zeros at most are equal, and
comparing them leaves the session as it is. Tuples and lists are compared item
by item, records field by field, and the entries of one mapping are found in
the other by their keys.
-/

namespace StackBridge

namespace HostValue

-- ================================================================= depths

theorem depth_le_depthList {vs : List HostValue} {v : HostValue} (hv : v ∈ vs) :
    v.depth ≤ depthList vs := by
  induction vs with
  | nil => cases hv
  | cons w vs ih =>
      unfold depthList
      rcases List.mem_cons.mp hv with rfl | hmem
      · exact Nat.le_max_left ..
      · exact Nat.le_trans (ih hmem) (Nat.le_max_right ..)

theorem depthList_le {vs : List HostValue} {n : Nat} (h : ∀ v ∈ vs, v.depth ≤ n) :
    depthList vs ≤ n := by
  induction vs with
  | nil => exact Nat.zero_le n
  | cons v vs ih =>
      exact Nat.max_le.mpr ⟨h v (List.mem_cons_self ..),
        ih fun w hw => h w (List.mem_cons_of_mem _ hw)⟩

theorem depth_le_depthEntries {es : List (HostValue × HostValue)} {e : HostValue × HostValue}
    (he : e ∈ es) : e.1.depth ≤ depthEntries es ∧ e.2.depth ≤ depthEntries es := by
  induction es with
  | nil => cases he
  | cons f es ih =>
      unfold depthEntries
      rcases List.mem_cons.mp he with rfl | hmem
      · exact ⟨by omega, by omega⟩
      · have h := ih hmem
        exact ⟨by omega, by omega⟩

theorem depth_le_depthFields {fs : List (String × HostValue)} {f : String × HostValue}
    (hf : f ∈ fs) : f.2.depth ≤ depthFields fs := by
  induction fs with
  | nil => cases hf
  | cons g fs ih =>
      unfold depthFields
      rcases List.mem_cons.mp hf with rfl | hmem
      · exact Nat.le_max_left ..
      · exact Nat.le_trans (ih hmem) (Nat.le_max_right ..)

theorem depthList_values (fs : List (String × HostValue)) :
    depthList (fs.map (·.2)) = depthFields fs := by
  induction fs with
  | nil => rfl
  | cons f fs ih => rw [List.map_cons, depthList, depthFields, ih]

/-- A field's value, up to zeros. -/
theorem field?_canonical (v : HostValue) (name : String) :
    v.canonical.field? name = (v.field? name).map canonical := by
  cases v with
  | record c tuple fields =>
      show ((canonicalFields fields).find? (·.1 == name)).map (·.2)
        = ((fields.find? (·.1 == name)).map (·.2)).map canonical
      rw [canonicalFields_eq]
      induction fields with
      | nil => rfl
      | cons f fs ih =>
          rw [List.map_cons, List.find?_cons, List.find?_cons]
          cases f.1 == name with
          | true => rfl
          | false => exact ih
  | _ => rfl

end HostValue

-- ================================================================== parts

namespace Fits

open Bridge

variable {cs : Classes} {t : TypeExpr}

theorem item {kind : SequenceKind} {vs : List HostValue} (h : Fits cs (.sequence kind vs) t) :
    ∀ v ∈ vs, ∃ a, Fits cs v a := by
  intro v hv
  cases h with
  | list items => exact ⟨_, items v hv⟩
  | tuple items => exact ⟨_, items v hv⟩
  | fixedTuple length items =>
      obtain ⟨a, hp⟩ := mem_zip_of_mem length hv
      exact ⟨a, items _ hp⟩

theorem field {name : String} {tuple : Bool} {fields : List (String × HostValue)}
    (h : Fits cs (.record name tuple fields) t) :
    (∀ f ∈ fields, ∃ a, Fits cs f.2 a) ∧ fields.map (·.1) = (cs.fields name).map (·.name) := by
  cases h with
  | @record _ hinted _ hints names values =>
      have hlength := congrArg List.length names
      rw [List.length_map, List.length_map] at hlength
      refine ⟨fun f hf => ?_, ?_⟩
      · obtain ⟨p, hp⟩ := mem_zip_of_mem hlength hf
        exact ⟨p.2, values _ hp⟩
      · rw [names]
        unfold hintedFields at hints
        cases hh : cs.hints name with
        | error f =>
            rw [hh] at hints
            cases hints
        | ok hs =>
            rw [hh] at hints
            cases hints
            rw [List.map_map]
            rfl

end Fits

namespace Bridge

open Session

variable {cs : Classes} {s : Session} {same : HostValue → HostValue → Action Bool}

-- ================================================================== items

theorem sameInside_ok {v w : HostValue} (h : same v w s = .ok true s) :
    sameInside same v w s = .ok true s := by
  unfold sameInside
  split
  · rfl
  · exact h

/-- Lists whose partners are equal. -/
theorem sameItems_ok {vs ws : List HostValue} (hlength : vs.length = ws.length)
    (h : ∀ p ∈ vs.zip ws, same p.1 p.2 s = .ok true s) : sameItems same vs ws s = .ok true s := by
  induction vs generalizing ws with
  | nil =>
      cases ws with
      | nil => rfl
      | cons w ws => cases hlength
  | cons v vs ih =>
      cases ws with
      | nil => cases hlength
      | cons w ws =>
          unfold sameItems
          rw [bind_ok (sameInside_ok (h (v, w) (List.mem_cons_self ..))), if_pos rfl]
          exact ih (Nat.succ.inj hlength) fun p hp => h p (List.mem_cons_of_mem _ hp)

/-- The partners of lists with the same images. -/
theorem mem_zip_images {α γ : Type} {f : α → γ} {as bs : List α} (h : bs.map f = as.map f)
    {p : α × α} (hp : p ∈ as.zip bs) : p.1 ∈ as ∧ p.2 ∈ bs ∧ f p.2 = f p.1 := by
  refine ⟨(List.of_mem_zip hp).1, (List.of_mem_zip hp).2, ?_⟩
  induction as generalizing bs with
  | nil => cases hp
  | cons a as ih =>
      cases bs with
      | nil => cases hp
      | cons b bs =>
          obtain ⟨hhead, htail⟩ := List.cons.inj h
          rcases List.mem_cons.mp hp with rfl | hmem
          · exact hhead
          · exact ih htail hmem

-- ================================================================ entries

/-- An entry is found by any key that differs from its own in zeros at
most. -/
theorem find?_of_canonical {es : List (HostValue × HostValue)} (hkeys : KeysDiffer es)
    (hfits : ∀ e ∈ es, ∃ a, Fits cs e.1 a) {e : HostValue × HostValue} (he : e ∈ es)
    {k : HostValue} (hk : k.canonical = e.1.canonical) : Dict.find? es k = some e.2 := by
  have hsame : ∀ v : HostValue, v.sameKey k = v.sameKey e.1 := by
    intro v
    rw [← HostValue.sameKey_canonical, hk, HostValue.sameKey_canonical]
  unfold Dict.find?
  induction es with
  | nil => cases he
  | cons e' es ih =>
      obtain ⟨hhead, htail⟩ := List.pairwise_cons.mp hkeys.differ
      rw [List.find?_cons, hsame]
      rcases List.mem_cons.mp he with rfl | hmem
      · obtain ⟨a, ha⟩ := hfits e (List.mem_cons_self ..)
        rw [ha.sameKey_self (hkeys.hashable e (List.mem_cons_self ..))]
        rfl
      · rw [hhead e.1 (List.mem_map_of_mem hmem)]
        exact ih ⟨fun f hf => hkeys.hashable f (List.mem_cons_of_mem _ hf), htail⟩
          (fun f hf => hfits f (List.mem_cons_of_mem _ hf)) hmem

/-- Entries that are all found among others. -/
theorem sameEntries_ok {others es : List (HostValue × HostValue)}
    (h : ∀ e ∈ es, ∃ w, Dict.find? others e.1 = some w ∧ same w e.2 s = .ok true s) :
    sameEntries same others es s = .ok true s := by
  induction es with
  | nil => rfl
  | cons e es ih =>
      obtain ⟨w, hfind, hsame⟩ := h e (List.mem_cons_self ..)
      unfold sameEntries
      simp only [hfind]
      rw [bind_ok (sameInside_ok hsame), if_pos rfl]
      exact ih fun f hf => h f (List.mem_cons_of_mem _ hf)

/-- The keys of a mapping, one by one the same as those of a copy of it. -/
theorem sameKeys_of_canonical {es fs : List (HostValue × HostValue)} (hkeys : KeysDiffer es)
    (hfits : ∀ e ∈ es, ∃ a, Fits cs e.1 a)
    (heq : (fs.map (·.1)).map HostValue.canonical = (es.map (·.1)).map HostValue.canonical) :
    HostValue.sameKeys (es.map (·.1)) (fs.map (·.1)) = true := by
  rw [← HostValue.sameKeys_canonical, HostValue.canonicalItems_eq, HostValue.canonicalItems_eq,
    heq, ← HostValue.canonicalItems_eq, HostValue.sameKeys_canonical]
  refine HostValue.sameKeys_self fun k hk => ?_
  obtain ⟨e, he, rfl⟩ := List.mem_map.mp hk
  obtain ⟨a, ha⟩ := hfits e he
  exact ha.sameKey_self (hkeys.hashable e he)

-- ================================================================= fields

/-- The values of the fields of a record and of a copy of it. -/
theorem fieldValues_ok {v w : HostValue} (heq : w.canonical = v.canonical) {fs : List FieldSpec}
    (h : ∀ f ∈ fs, (v.field? f.name).isSome = true) :
    ∃ vs ws, fieldValues v fs = .ok vs ∧ fieldValues w fs = .ok ws
      ∧ ws.map HostValue.canonical = vs.map HostValue.canonical := by
  induction fs with
  | nil => exact ⟨[], [], rfl, rfl, rfl⟩
  | cons f fs ih =>
      obtain ⟨vs, ws, hvs, hws, hmap⟩ := ih fun g hg => h g (List.mem_cons_of_mem _ hg)
      obtain ⟨x, hx⟩ := Option.isSome_iff_exists.mp (h f (List.mem_cons_self ..))
      have hcopy := HostValue.field?_canonical w f.name
      rw [heq, HostValue.field?_canonical, hx] at hcopy
      cases hy : w.field? f.name with
      | none =>
          rw [hy] at hcopy
          cases hcopy
      | some y =>
          rw [hy] at hcopy
          have hxy : x.canonical = y.canonical := Option.some.inj hcopy
          refine ⟨x :: vs, y :: ws, ?_, ?_, ?_⟩
          · unfold fieldValues
            rw [hx, hvs]
            rfl
          · unfold fieldValues
            rw [hy, hws]
            rfl
          · rw [List.map_cons, List.map_cons, hmap, hxy]

/-- They are values of the record. -/
theorem fieldValues_mem {name : String} {tuple : Bool} {fields : List (String × HostValue)}
    {fs : List FieldSpec} {vs : List HostValue}
    (h : fieldValues (.record name tuple fields) fs = .ok vs) :
    ∀ x ∈ vs, ∃ g ∈ fields, g.2 = x := by
  induction fs generalizing vs with
  | nil =>
      cases h
      exact fun x hx => absurd hx List.not_mem_nil
  | cons f fs ih =>
      unfold fieldValues at h
      cases hf : (HostValue.record name tuple fields).field? f.name with
      | none =>
          rw [hf] at h
          cases h
      | some y =>
          rw [hf] at h
          cases hrest : fieldValues (.record name tuple fields) fs with
          | error e =>
              rw [hrest] at h
              cases h
          | ok ys =>
              rw [hrest] at h
              cases h
              intro x hx
              rcases List.mem_cons.mp hx with rfl | hmem
              · obtain ⟨g, hg, hgx⟩ := Option.map_eq_some_iff.mp hf
                exact ⟨g, List.mem_of_find?_eq_some hg, hgx⟩
              · exact ih hrest x hmem

-- ================================================================== values

/-- What is looked up in a record by the names of its class is there. -/
theorem isSome_field? {name : String} {tuple : Bool} {fields : List (String × HostValue)}
    {fs : List FieldSpec} (hnames : fields.map (·.1) = fs.map (·.name)) :
    ∀ f ∈ fs, ((HostValue.record name tuple fields).field? f.name).isSome = true := by
  intro f hf
  have hmem : f.name ∈ fields.map (·.1) := by
    rw [hnames]
    exact List.mem_map_of_mem hf
  obtain ⟨g, hg, hname⟩ := List.mem_map.mp hmem
  show ((fields.find? (·.1 == f.name)).map (·.2)).isSome = true
  rw [Option.isSome_map, List.find?_isSome]
  exact ⟨g, hg, by rw [hname]; exact beq_self_eq_true _⟩

section

variable {fuel : Nat} (hequal : ∀ {v w : HostValue} {t : TypeExpr}, Fits cs v t →
  w.canonical = v.canonical → v.depth ≤ fuel → w.depth ≤ fuel →
    equalWithin cs fuel v w s = .ok true s)

include hequal

/-- Lists of values that fit and their copies. -/
theorem equalItems {vs ws : List HostValue} (hfits : ∀ v ∈ vs, ∃ a, Fits cs v a)
    (heq : ws.map HostValue.canonical = vs.map HostValue.canonical)
    (hv : HostValue.depthList vs ≤ fuel) (hw : HostValue.depthList ws ≤ fuel) :
    sameItems (equalWithin cs fuel) vs ws s = .ok true s := by
  have hlength := congrArg List.length heq
  rw [List.length_map, List.length_map] at hlength
  refine sameItems_ok hlength.symm fun p hp => ?_
  obtain ⟨hp₁, hp₂, hcopy⟩ := mem_zip_images heq hp
  obtain ⟨a, ha⟩ := hfits p.1 hp₁
  exact hequal ha hcopy (Nat.le_trans (HostValue.depth_le_depthList hp₁) hv)
    (Nat.le_trans (HostValue.depth_le_depthList hp₂) hw)

/-- Entries whose keys and values fit and their copies. -/
theorem equalEntries {es fs : List (HostValue × HostValue)} (ordered : Bool)
    (hkeys : KeysDiffer es) (hkey : ∀ e ∈ es, ∃ a, Fits cs e.1 a)
    (hvalue : ∀ e ∈ es, ∃ a, Fits cs e.2 a)
    (heq : fs.map (fun e => (e.1.canonical, e.2.canonical))
      = es.map fun e => (e.1.canonical, e.2.canonical))
    (hv : HostValue.depthEntries es ≤ fuel) (hw : HostValue.depthEntries fs ≤ fuel) :
    sameMappings (equalWithin cs fuel) ordered es fs s = .ok true s := by
  have hlength := congrArg List.length heq
  rw [List.length_map, List.length_map] at hlength
  have hcopies := congrArg (List.map (·.1)) heq
  rw [List.map_map, List.map_map] at hcopies
  have hcopies' : (fs.map (·.1)).map HostValue.canonical
      = (es.map (·.1)).map HostValue.canonical := by
    rw [List.map_map, List.map_map]
    exact hcopies
  have hkeyCopy : ∀ f ∈ fs, ∃ a, Fits cs f.1 a := by
    intro f hf
    obtain ⟨e, he, hfe⟩ := exists_mem_of_map_eq heq hf
    obtain ⟨a, ha⟩ := hkey e he
    exact ⟨a, ha.of_canonical (Prod.mk.inj hfe).1⟩
  have hentries : sameEntries (equalWithin cs fuel) fs es s = .ok true s := by
    refine sameEntries_ok fun e he => ?_
    obtain ⟨f, hf, hef⟩ := exists_mem_of_map_eq heq.symm he
    obtain ⟨hk, hval⟩ := Prod.mk.inj hef
    obtain ⟨a, ha⟩ := hvalue e he
    refine ⟨f.2, find?_of_canonical (hkeys.of_canonical hcopies') hkeyCopy hf hk, ?_⟩
    exact hequal (ha.of_canonical hval.symm) hval
      (Nat.le_trans (HostValue.depth_le_depthEntries hf).2 hw)
      (Nat.le_trans (HostValue.depth_le_depthEntries he).2 hv)
  have hsame := sameKeys_of_canonical hkeys hkey hcopies'
  unfold sameMappings
  rw [if_neg (fun h => h hlength.symm), bind_ok hentries, if_pos rfl, hsame, Bool.or_true]
  rfl

/-- Lists or tuples that fit and their copies. -/
theorem equalSequence {vs : List HostValue} {kind : SequenceKind} {t : TypeExpr} {w : HostValue}
    (hkind : kind = .list ∨ kind = .tuple) (h : Fits cs (.sequence kind vs) t)
    (heq : w.canonical = (HostValue.sequence kind vs).canonical)
    (hv : (HostValue.sequence kind vs).depth ≤ fuel + 1) (hw : w.depth ≤ fuel + 1) :
    equalWithin cs (fuel + 1) (.sequence kind vs) w s = .ok true s := by
  obtain ⟨ws, rfl, hws⟩ := HostValue.sequence_of_canonical heq
  have hitems := equalItems hequal h.item hws (Nat.le_of_succ_le_succ hv)
    (Nat.le_of_succ_le_succ hw)
  have hlength := congrArg List.length hws
  rw [List.length_map, List.length_map] at hlength
  rcases hkind with rfl | rfl
  · show (if _ ∧ vs.length ≠ ws.length then pure false
      else sameItems (equalWithin cs fuel) vs ws) s = _
    rw [if_neg fun h => h.2 hlength.symm]
    exact hitems
  · exact hitems

/-- Records that fit and their copies: named tuples by their items, others by what is
under the names of their class. -/
theorem equalRecord {name : String} {tuple : Bool} {fields : List (String × HostValue)}
    {w : HostValue} (hfits : ∀ f ∈ fields, ∃ a, Fits cs f.2 a)
    (hnames : fields.map (·.1) = (cs.fields name).map (·.name))
    (heq : w.canonical = (HostValue.record name tuple fields).canonical)
    (hv : (HostValue.record name tuple fields).depth ≤ fuel + 1) (hw : w.depth ≤ fuel + 1) :
    equalWithin cs (fuel + 1) (.record name tuple fields) w s = .ok true s := by
  obtain ⟨gs, rfl, hgs⟩ := HostValue.record_of_canonical heq
  cases tuple with
  | true =>
      have hcopies := congrArg (List.map (·.2)) hgs
      rw [List.map_map, List.map_map] at hcopies
      show sameItems (equalWithin cs fuel) (fields.map (·.2)) (gs.map (·.2)) s = _
      refine equalItems hequal ?_ ?_ ?_ ?_
      · intro x hx
        obtain ⟨f, hf, rfl⟩ := List.mem_map.mp hx
        exact hfits f hf
      · rw [List.map_map, List.map_map]
        exact hcopies
      · rw [HostValue.depthList_values]
        exact Nat.le_of_succ_le_succ hv
      · rw [HostValue.depthList_values]
        exact Nat.le_of_succ_le_succ hw
  | false =>
      obtain ⟨vs, ws, hvs, hws, hcanonical⟩ := fieldValues_ok heq (isSome_field? hnames)
      have hopen : equalWithin cs (fuel + 1) (.record name false fields)
          (.record name false gs) s = sameItems (equalWithin cs fuel) vs ws s := by
        show (if name ≠ name then pure false
          else do
            let vs ← ofHost (fieldValues (.record name false fields) (cs.fields name))
            let ws ← ofHost (fieldValues (.record name false gs) (cs.fields name))
            sameItems (equalWithin cs fuel) vs ws : Action Bool) s = _
        rw [if_neg fun h => h rfl, hvs, hws]
        rfl
      rw [hopen]
      refine equalItems hequal (fun x hx => ?_) hcanonical
        (HostValue.depthList_le fun x hx => ?_) (HostValue.depthList_le fun x hx => ?_)
      · obtain ⟨f, hf, rfl⟩ := fieldValues_mem hvs x hx
        exact hfits f hf
      · obtain ⟨f, hf, rfl⟩ := fieldValues_mem hvs x hx
        exact Nat.le_trans (HostValue.depth_le_depthFields hf) (Nat.le_of_succ_le_succ hv)
      · obtain ⟨f, hf, rfl⟩ := fieldValues_mem hws x hx
        exact Nat.le_trans (HostValue.depth_le_depthFields hf) (Nat.le_of_succ_le_succ hw)

end

/-- What has no parts is equal to its copies. -/
theorem equalAtoms {v w : HostValue} {t : TypeExpr} (h : Fits cs v t)
    (heq : w.canonical = v.canonical) (hdepth : v.depth = 0) (fuel : Nat) :
    equalWithin cs fuel v w s = .ok true s := by
  -- comparing such values is comparing atoms, whatever the fuel
  cases h with
  | boolean b =>
      rw [HostValue.eq_of_canonical rfl heq]
      cases fuel <;> cases b <;> rfl
  | @integer n range =>
      rw [HostValue.eq_of_canonical rfl heq]
      have hsame : HostValue.sameAtom .exact (.int n) (.int n) = true :=
        HostValue.sameAtom_number rfl rfl fun h => Quantity.noConfusion h
      cases fuel <;> exact congrArg (EStateM.Result.ok · s) hsame
  | @enum e n range member =>
      rw [HostValue.eq_of_canonical rfl heq]
      have hsame : HostValue.sameAtom .exact (.integer (.enum e) n) (.integer (.enum e) n) = true :=
        HostValue.sameAtom_number rfl rfl fun h => Quantity.noConfusion h
      cases fuel <;> exact congrArg (EStateM.Result.ok · s) hsame
  | @float x number =>
      obtain ⟨y, rfl, hy⟩ := HostValue.float_of_canonical heq
      have hquantity : Quantity.ofFloat y = Quantity.ofFloat x := by
        rw [← HostValue.quantity_canonical, hy, HostValue.quantity_canonical]
      have hsame : HostValue.sameAtom .exact (.float .plain x) (.float .plain y) = true :=
        HostValue.sameAtom_number rfl (congrArg some hquantity) (HostValue.ofFloat_ne_nan number)
      cases fuel <;> exact congrArg (EStateM.Result.ok · s) hsame
  | text t =>
      rw [HostValue.eq_of_canonical rfl heq]
      have hsame : HostValue.sameAtom .exact (.str t) (.str t) = true := beq_self_eq_true t
      cases fuel <;> exact congrArg (EStateM.Result.ok · s) hsame
  | bytes b =>
      rw [HostValue.eq_of_canonical rfl heq]
      have hsame : HostValue.sameAtom .exact (.bytes .plain b) (.bytes .plain b) = true :=
        beq_self_eq_true b
      cases fuel <;> exact congrArg (EStateM.Result.ok · s) hsame
  | array b =>
      rw [HostValue.eq_of_canonical rfl heq]
      have hsame : HostValue.sameAtom .exact (.bytes .array b) (.bytes .array b) = true :=
        beq_self_eq_true b
      cases fuel <;> exact congrArg (EStateM.Result.ok · s) hsame
  | list items => cases hdepth
  | tuple items => cases hdepth
  | fixedTuple length items => cases hdepth
  | mapping keys values differ => cases hdepth
  | record hints names values => cases hdepth

/-- To any depth, and from either side. -/
theorem equalWithin_ok (cs : Classes) (s : Session) (fuel : Nat) {v w : HostValue} {t : TypeExpr}
    (h : Fits cs v t) (heq : w.canonical = v.canonical) (hv : v.depth ≤ fuel)
    (hw : w.depth ≤ fuel) : equalWithin cs fuel v w s = .ok true s := by
  induction fuel generalizing v w t with
  | zero => exact equalAtoms h heq (Nat.le_zero.mp hv) 0
  | succ fuel ih =>
      cases h with
      | list items => exact equalSequence ih (Or.inl rfl) (.list items) heq hv hw
      | tuple items => exact equalSequence ih (Or.inr rfl) (.tuple items) heq hv hw
      | fixedTuple length items =>
          exact equalSequence ih (Or.inr rfl) (.fixedTuple length items) heq hv hw
      | @mapping kind es a b keys values differ =>
          obtain ⟨fs, rfl, hfs⟩ := HostValue.mapping_of_canonical heq
          exact equalEntries ih _ differ (fun e he => ⟨a, keys e he⟩)
            (fun e he => ⟨b, values e he⟩) hfs (Nat.le_of_succ_le_succ hv)
            (Nat.le_of_succ_le_succ hw)
      | @record name hinted fields hints names values =>
          have hrecord : Fits cs (.record name (cs.isTuple name) fields) (.cls (.record name)) :=
            .record hints names values
          obtain ⟨hfits, hnames⟩ := hrecord.field
          exact equalRecord ih hfits hnames heq hv hw
      | boolean b => exact equalAtoms (.boolean b) heq rfl _
      | integer range => exact equalAtoms (.integer range) heq rfl _
      | enum range member => exact equalAtoms (.enum range member) heq rfl _
      | float number => exact equalAtoms (.float number) heq rfl _
      | text s => exact equalAtoms (.text s) heq rfl _
      | bytes b => exact equalAtoms (.bytes b) heq rfl _
      | array b => exact equalAtoms (.array b) heq rfl _

/-- A value that fits a type is equal to every copy that differs from it in
the signs of zeros at most. -/
theorem equal_ok {v w : HostValue} {t : TypeExpr} (h : Fits cs v t)
    (heq : w.canonical = v.canonical) (s : Session) : equal cs w v s = .ok true s :=
  equalWithin_ok cs s _ (h.of_canonical heq) heq.symm (Nat.le_add_right ..) (Nat.le_add_left ..)

end Bridge

end StackBridge
