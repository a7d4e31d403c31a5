import StackBridge.Host.Equality
import StackBridge.Proofs.Double.Exact

/-!
Host values up to the signs of their zeros. `HostValue.canonical` forgets them,
at any depth; what makes values keys, and which of them are one key, does not
depend on them.
-/

namespace StackBridge

namespace HostValue

-- ============================================================== canonical

mutual

/-- A value with no sign on any zero in it. -/
def canonical : HostValue → HostValue
  | .float k x => .float k x.canonical
  | .sequence k items => .sequence k (canonicalItems items)
  | .mapping k entries => .mapping k (canonicalEntries entries)
  | .record name tuple fields => .record name tuple (canonicalFields fields)
  | v => v

def canonicalItems : List HostValue → List HostValue
  | [] => []
  | v :: vs => canonical v :: canonicalItems vs

def canonicalEntries : List (HostValue × HostValue) → List (HostValue × HostValue)
  | [] => []
  | (k, v) :: es => (canonical k, canonical v) :: canonicalEntries es

def canonicalFields : List (String × HostValue) → List (String × HostValue)
  | [] => []
  | (n, v) :: fs => (n, canonical v) :: canonicalFields fs

end

theorem canonicalItems_eq (vs : List HostValue) : canonicalItems vs = vs.map canonical := by
  induction vs with
  | nil => rfl
  | cons v vs ih => rw [canonicalItems, ih, List.map_cons]

theorem canonicalEntries_eq (es : List (HostValue × HostValue)) :
    canonicalEntries es = es.map fun e => (e.1.canonical, e.2.canonical) := by
  induction es with
  | nil => rfl
  | cons e es ih => rw [canonicalEntries, ih, List.map_cons]

theorem canonicalFields_eq (fs : List (String × HostValue)) :
    canonicalFields fs = fs.map fun f => (f.1, f.2.canonical) := by
  induction fs with
  | nil => rfl
  | cons f fs ih => rw [canonicalFields, ih, List.map_cons]

/-- Whether a value is the only one that is the same up to zeros. -/
def isAtom : HostValue → Bool
  | .float _ _ | .sequence _ _ | .mapping _ _ | .record _ _ _ => false
  | _ => true

theorem eq_of_canonical {v w : HostValue} (hv : v.isAtom = true) (h : w.canonical = v.canonical) :
    w = v := by
  have hself : v.canonical = v := by cases v <;> first | rfl | cases hv
  rw [hself] at h
  subst h
  cases w <;> first | rfl | cases hv

/-- A copy of a sequence up to zeros. -/
theorem sequence_of_canonical {kind : SequenceKind} {vs : List HostValue} {w : HostValue}
    (h : w.canonical = (sequence kind vs).canonical) :
    ∃ ws, w = .sequence kind ws ∧ ws.map canonical = vs.map canonical := by
  cases w with
  | sequence kind' ws =>
      obtain ⟨rfl, hws⟩ := sequence.inj h
      rw [canonicalItems_eq, canonicalItems_eq] at hws
      exact ⟨ws, rfl, hws⟩
  | _ => cases h

/-- A copy of a mapping up to zeros. -/
theorem mapping_of_canonical {kind : MappingKind} {es : List (HostValue × HostValue)}
    {w : HostValue} (h : w.canonical = (mapping kind es).canonical) :
    ∃ fs, w = .mapping kind fs
      ∧ fs.map (fun e => (e.1.canonical, e.2.canonical))
        = es.map fun e => (e.1.canonical, e.2.canonical) := by
  cases w with
  | mapping kind' fs =>
      obtain ⟨rfl, hfs⟩ := mapping.inj h
      rw [canonicalEntries_eq, canonicalEntries_eq] at hfs
      exact ⟨fs, rfl, hfs⟩
  | _ => cases h

/-- A copy of a record up to zeros. -/
theorem record_of_canonical {name : String} {tuple : Bool} {fields : List (String × HostValue)}
    {w : HostValue} (h : w.canonical = (record name tuple fields).canonical) :
    ∃ gs, w = .record name tuple gs
      ∧ gs.map (fun f => (f.1, f.2.canonical)) = fields.map fun f => (f.1, f.2.canonical) := by
  cases w with
  | record name' tuple' gs =>
      obtain ⟨rfl, rfl, hgs⟩ := record.inj h
      rw [canonicalFields_eq, canonicalFields_eq] at hgs
      exact ⟨gs, rfl, hgs⟩
  | _ => cases h

/-- A copy of a float up to zeros. -/
theorem float_of_canonical {kind : FloatKind} {x : Double} {w : HostValue}
    (h : w.canonical = (float kind x).canonical) :
    ∃ y, w = .float kind y ∧ y.canonical = x.canonical := by
  cases w with
  | float kind' y =>
      obtain ⟨rfl, hy⟩ := float.inj h
      exact ⟨y, rfl, hy⟩
  | _ => cases h

-- ================================================================== atoms

/-- Zeros have one value. -/
theorem quantity_canonical (x : Double) : Quantity.ofFloat x.canonical = Quantity.ofFloat x := by
  by_cases hx : x.isNaN = true
  · rw [Double.canonical_nan hx]
  · have hx' := Bool.eq_false_iff.mpr hx
    by_cases hzero : x.magnitude = 0
    · rw [Double.canonical_zero hzero]
      have hinfinite : x.isInfinite = false := by
        unfold Double.isInfinite
        rw [hzero]
        decide
      have hunits : x.signedUnits = 0 := by
        unfold Double.signedUnits Double.units
        rw [hzero]
        cases x.negative <;> decide
      unfold Quantity.ofFloat
      rw [hx', hinfinite, hunits]
      rfl
    · rw [Double.canonical_other hx' hzero]
      rfl

theorem quantity?_canonical (v : HostValue) : v.canonical.quantity? = v.quantity? := by
  cases v with
  | float k x =>
      show some (Quantity.ofFloat x.canonical) = some (Quantity.ofFloat x)
      rw [quantity_canonical]
  | _ => rfl

theorem isSame_canonical (v w : HostValue) : v.canonical.isSame w.canonical = v.isSame w := by
  cases v with
  | float k x =>
      cases w with
      | float l y =>
          show (k = l && x.canonical.sameNaN y.canonical) = (k = l && x.sameNaN y)
          rw [Double.sameNaN_canonical]
      | _ => rfl
  | wrapper a custom => cases w <;> rfl
  | _ => rfl

theorem sameAtom_canonical (p : Precision) (v w : HostValue) :
    sameAtom p v.canonical w.canonical = sameAtom p v w := by
  have hnumber : v.canonical.sameNumber? p w.canonical = v.sameNumber? p w := by
    unfold sameNumber?
    rw [quantity?_canonical, quantity?_canonical]
  unfold sameAtom
  rw [hnumber]
  cases v.sameNumber? p w with
  | some b => rfl
  | none => cases v <;> cases w <;> rfl

/-- Numbers of one value are equal, unless they are NaNs. -/
theorem sameAtom_number {v w : HostValue} {q : Quantity} (hv : v.quantity? = some q)
    (hw : w.quantity? = some q) (hq : q ≠ .nan) : sameAtom .exact v w = true := by
  have hsame : q.same q = true := by
    cases q with
    | ratio n d => exact beq_self_eq_true _
    | infinite negative => exact beq_self_eq_true _
    | nan => exact absurd rfl hq
  unfold sameAtom sameNumber?
  rw [hv, hw]
  exact hsame

theorem ofFloat_ne_nan {x : Double} (hx : x.isNaN = false) : Quantity.ofFloat x ≠ .nan := by
  unfold Quantity.ofFloat
  rw [hx, if_neg (by decide)]
  split <;> exact Quantity.noConfusion

-- =================================================================== keys

mutual

/-- Whether a value can be a key does not depend on its zeros. -/
theorem unhashable?_canonical : ∀ v : HostValue, unhashable? v.canonical = unhashable? v
  | .sequence k items => by
      cases k with
      | tuple => exact unhashableIn?_canonical items
      | customTuple => exact unhashableIn?_canonical items
      | _ => rfl
  | .record name tuple fields => by
      cases tuple with
      | true => exact unhashableInFields?_canonical fields
      | false => rfl
  | .none | .nil | .boolean .. | .integer .. | .float .. | .fraction .. | .text .. | .range ..
  | .bytes .. | .mapping .. | .function .. | .builtin .. | .method .. | .type .. | .wrapper ..
  | .bound .. | .sealed .. => by rfl

theorem unhashableIn?_canonical : ∀ vs : List HostValue,
    unhashableIn? (canonicalItems vs) = unhashableIn? vs
  | [] => rfl
  | v :: vs => by
      rw [canonicalItems, unhashableIn?, unhashableIn?, unhashable?_canonical v,
        unhashableIn?_canonical vs]

theorem unhashableInFields?_canonical : ∀ fs : List (String × HostValue),
    unhashableInFields? (canonicalFields fs) = unhashableInFields? fs
  | [] => rfl
  | (n, v) :: fs => by
      rw [canonicalFields, unhashableInFields?, unhashableInFields?, unhashable?_canonical v,
        unhashableInFields?_canonical fs]

end

/-- The items of a tuple, up to zeros. -/
theorem tupleItems?_canonical (w : HostValue) :
    w.canonical.tupleItems? = w.tupleItems?.map canonicalItems := by
  cases w with
  | sequence k items => cases k <;> rfl
  | record name tuple fields =>
      cases tuple with
      | false => rfl
      | true =>
          show some ((canonicalFields fields).map (·.2)) = some (canonicalItems (fields.map (·.2)))
          rw [canonicalFields_eq, canonicalItems_eq, List.map_map, List.map_map]
          rfl
  | _ => rfl

/-- What is no tuple is compared as an atom. -/
theorem sameKey_atom {v : HostValue} (hv : v.tupleItems? = Option.none) (w : HostValue) :
    sameKey v w = (v.isSame w || sameAtom .exact v w) := by
  unfold sameKey
  split
  · cases hv
  · cases hv
  · cases hv
  · rfl

/-- Different texts are different keys. -/
theorem sameKey_text {x y : String} (h : x ≠ y) : (HostValue.str x).sameKey (.str y) = false := by
  rw [sameKey_atom rfl]
  show (false || x == y) = false
  rw [Bool.false_or, beq_false_of_ne h]

theorem sameKey_atom_canonical {v : HostValue} (hv : v.tupleItems? = Option.none)
    (w : HostValue) : sameKey v.canonical w.canonical = sameKey v w := by
  have hv' : v.canonical.tupleItems? = Option.none := by
    rw [tupleItems?_canonical, hv]
    rfl
  rw [sameKey_atom hv, sameKey_atom hv', isSame_canonical, sameAtom_canonical]

mutual

/-- Which values are one key does not depend on their zeros. -/
theorem sameKey_canonical : ∀ v w : HostValue, sameKey v.canonical w.canonical = sameKey v w
  | .sequence k items, w => by
      have htuple : (match w.canonical.tupleItems? with
          | some ys => sameKeys (canonicalItems items) ys
          | Option.none => false) = match w.tupleItems? with
          | some ys => sameKeys items ys
          | Option.none => false := by
        rw [tupleItems?_canonical]
        cases w.tupleItems? with
        | none => rfl
        | some ys => exact sameKeys_canonical items ys
      cases k with
      | tuple => exact htuple
      | customTuple => exact htuple
      | _ => exact sameKey_atom_canonical rfl w
  | .record name tuple fields, w => by
      cases tuple with
      | false => exact sameKey_atom_canonical rfl w
      | true =>
          show (match w.canonical.tupleItems? with
            | some ys => sameFieldKeys (canonicalFields fields) ys
            | Option.none => false) = match w.tupleItems? with
            | some ys => sameFieldKeys fields ys
            | Option.none => false
          rw [tupleItems?_canonical]
          cases w.tupleItems? with
          | none => rfl
          | some ys => exact sameFieldKeys_canonical fields ys
  | .none, w | .nil, w | .boolean .., w | .integer .., w | .float .., w | .fraction .., w
  | .text .., w | .range .., w | .bytes .., w | .mapping .., w | .function .., w | .builtin .., w
  | .method .., w | .type .., w | .wrapper .., w | .bound .., w | .sealed .., w => by
      exact sameKey_atom_canonical rfl w

theorem sameKeys_canonical : ∀ vs ws : List HostValue,
    sameKeys (canonicalItems vs) (canonicalItems ws) = sameKeys vs ws
  | [], ws => by cases ws <;> rfl
  | v :: vs, [] => rfl
  | v :: vs, w :: ws => by
      rw [canonicalItems, canonicalItems, sameKeys, sameKeys, sameKey_canonical v w,
        sameKeys_canonical vs ws]

theorem sameFieldKeys_canonical : ∀ (fs : List (String × HostValue)) (ws : List HostValue),
    sameFieldKeys (canonicalFields fs) (canonicalItems ws) = sameFieldKeys fs ws
  | [], ws => by cases ws <;> rfl
  | f :: fs, [] => rfl
  | (n, v) :: fs, w :: ws => by
      rw [canonicalFields, canonicalItems, sameFieldKeys, sameFieldKeys, sameKey_canonical v w,
        sameFieldKeys_canonical fs ws]

end

-- ========================================================== key by key

theorem unhashableIn?_none {vs : List HostValue} (h : unhashableIn? vs = Option.none) :
    ∀ v ∈ vs, v.unhashable? = Option.none := by
  induction vs with
  | nil => exact fun v hv => absurd hv List.not_mem_nil
  | cons v vs ih =>
      unfold unhashableIn? at h
      cases hv : v.unhashable? with
      | some n =>
          rw [hv] at h
          cases h
      | none =>
          rw [hv] at h
          intro w hw
          rcases List.mem_cons.mp hw with rfl | hmem
          · exact hv
          · exact ih h w hmem

theorem unhashableInFields?_none {fs : List (String × HostValue)}
    (h : unhashableInFields? fs = Option.none) : ∀ f ∈ fs, f.2.unhashable? = Option.none := by
  induction fs with
  | nil => exact fun f hf => absurd hf List.not_mem_nil
  | cons f fs ih =>
      unfold unhashableInFields? at h
      cases hv : f.2.unhashable? with
      | some n =>
          rw [hv] at h
          cases h
      | none =>
          rw [hv] at h
          intro g hg
          rcases List.mem_cons.mp hg with rfl | hmem
          · exact hv
          · exact ih h g hmem

theorem sameKeys_self {vs : List HostValue} (h : ∀ v ∈ vs, v.sameKey v = true) :
    sameKeys vs vs = true := by
  induction vs with
  | nil => rfl
  | cons v vs ih =>
      rw [sameKeys, h v (List.mem_cons_self ..), ih fun w hw => h w (List.mem_cons_of_mem _ hw)]
      rfl

theorem sameFieldKeys_self {fs : List (String × HostValue)}
    (h : ∀ f ∈ fs, f.2.sameKey f.2 = true) : sameFieldKeys fs (fs.map (·.2)) = true := by
  induction fs with
  | nil => rfl
  | cons f fs ih =>
      rw [List.map_cons, sameFieldKeys, h f (List.mem_cons_self ..),
        ih fun g hg => h g (List.mem_cons_of_mem _ hg)]
      rfl

end HostValue

end StackBridge
