import StackBridge.Bridge.Push
import StackBridge.Proofs.Host.Canonical

/-!
The types whose values come back from a machine as what they were, and the
values of exactly such a type.

Types are `Built` from the plain classes by lists, tuples, mappings and record
classes. A record class may lead back to itself, so which classes are allowed
is a set `R` that has to be closed under the hints of their fields
(`Classes.Supports`). A value `Fits` a type part by part.
-/

namespace StackBridge

open Bridge

-- ================================================================== types

/-- The types built from plain classes, containers, and records of classes in
`R`. -/
inductive Built (R : String → Prop) : TypeExpr → Prop where
  | boolean : Built R (.cls (.boolean false))
  | integer : Built R (.cls (.integer .plain))
  | enum (e : String) : Built R (.cls (.integer (.enum e)))
  | float : Built R (.cls (.float .plain))
  | text : Built R (.cls (.text .plain))
  | bytes : Built R (.cls (.bytes .plain))
  | array : Built R (.cls (.bytes .array))
  | list {a : TypeExpr} (item : Built R a) : Built R (.generic (.sequence .list) [a])
  | tuple {a : TypeExpr} (item : Built R a) :
      Built R (.generic (.sequence .tuple) [a, .ellipsis])
  | fixedTuple {as : List TypeExpr} (items : ∀ a ∈ as, Built R a) :
      Built R (.generic (.sequence .tuple) as)
  | mapping (kind : MappingKind) {a b : TypeExpr} (key : Built R a) (value : Built R b) :
      Built R (.generic (.mapping kind) [a, b])
  | record {name : String} (allowed : R name) : Built R (.cls (.record name))

/-- A record class whose fields have different names, are all arguments of the
constructor, and have hints that are built. -/
structure Opens (cs : Classes) (R : String → Prop) (name : String) : Prop where
  distinct : ((cs.fields name).map (·.name)).Nodup
  init : ∀ f ∈ cs.fields name, f.init = true
  hinted : ∀ f ∈ cs.fields name, ∃ a t, f.type = some a ∧ cs.hint a = .ok t ∧ Built R t

/-- A type built from plain classes, containers and record classes to any
depth, also around through record classes. -/
def Classes.Supports (cs : Classes) (t : TypeExpr) : Prop :=
  ∃ R : String → Prop, (∀ name, R name → Opens cs R name) ∧ Built R t

namespace Built

variable {R : String → Prop} {t a b : TypeExpr}

theorem ne_none (h : Built R t) : t ≠ .none := by
  intro hnone
  subst hnone
  cases h

theorem listItem (h : Built R (.generic (.sequence .list) [a])) : Built R a := by
  cases h with
  | list item => exact item

theorem tupleItem (h : Built R (.generic (.sequence .tuple) [a, .ellipsis])) : Built R a := by
  cases h with
  | tuple item => exact item
  | fixedTuple items => exact items a (List.mem_cons_self ..)

theorem entry {kind : MappingKind} (h : Built R (.generic (.mapping kind) [a, b])) :
    Built R a ∧ Built R b := by
  cases h with
  | mapping kind key value => exact ⟨key, value⟩

theorem allowed {name : String} (h : Built R (.cls (.record name))) : R name := by
  cases h with
  | record allowed => exact allowed

end Built

-- ================================================================== hints

namespace Opens

variable {cs : Classes} {R : String → Prop} {name : String}

/-- The hints of some fields that all have one with a property. -/
theorem hints_of_fields {P : TypeExpr → Prop} {fs : List FieldSpec}
    (h : ∀ f ∈ fs, ∃ a t, f.type = some a ∧ cs.hint a = .ok t ∧ P t) :
    ∃ ts : List TypeExpr, ts.length = fs.length ∧ (∀ t ∈ ts, P t)
      ∧ ((fs.filterMap fun f => f.type.map (f.name, ·)).mapM fun (n, a) => (cs.hint a).map (n, ·))
        = Except.ok ((fs.map (·.name)).zip ts) := by
  induction fs with
  | nil => exact ⟨[], rfl, fun t ht => absurd ht List.not_mem_nil, rfl⟩
  | cons f fs ih =>
      obtain ⟨ts, hlength, hbuilt, heq⟩ := ih fun g hg => h g (List.mem_cons_of_mem _ hg)
      obtain ⟨a, t, htype, hhint, ht⟩ := h f (List.mem_cons_self ..)
      refine ⟨t :: ts, by rw [List.length_cons, hlength, List.length_cons], ?_, ?_⟩
      · intro t' ht'
        rcases List.mem_cons.mp ht' with rfl | hmem
        · exact ht
        · exact hbuilt t' hmem
      · rw [List.filterMap_cons]
        simp only [htype, Option.map_some]
        rw [List.mapM_cons, heq]
        simp only [hhint]
        rfl

/-- Under different names each hint is found by its name. -/
theorem find?_zip_names {fs : List FieldSpec} {ts : List TypeExpr}
    (hdistinct : (fs.map (·.name)).Nodup) (hlength : ts.length = fs.length) :
    (fs.map fun f =>
        (f, ((((fs.map (·.name)).zip ts).find? (·.1 == f.name)).map (·.2)).getD .none))
      = fs.zip ts := by
  induction fs generalizing ts with
  | nil => rfl
  | cons f fs ih =>
      cases ts with
      | nil => cases hlength
      | cons t ts =>
          obtain ⟨hnew, hrest⟩ := List.nodup_cons.mp hdistinct
          rw [List.map_cons, List.map_cons, List.zip_cons_cons, List.zip_cons_cons,
            ← ih hrest (Nat.succ.inj hlength)]
          congr 1
          · simp
          · refine List.map_congr_left fun g hg => ?_
            have hne : (f.name == g.name) = false := by
              refine beq_false_of_ne fun heq => hnew ?_
              show f.name ∈ fs.map (·.name)
              rw [heq]
              exact List.mem_map_of_mem hg
            simp only [List.find?_cons, hne]

/-- The fields of a record class with their hints. -/
theorem hints (h : Opens cs R name) :
    ∃ ts : List TypeExpr, ts.length = (cs.fields name).length ∧ (∀ t ∈ ts, Built R t)
      ∧ cs.hints name = .ok (((cs.fields name).map (·.name)).zip ts)
      ∧ hintedFields cs name = .ok ((cs.fields name).zip ts) := by
  obtain ⟨ts, hlength, hbuilt, heq⟩ := hints_of_fields h.hinted
  have hhints : cs.hints name = .ok (((cs.fields name).map (·.name)).zip ts) := heq
  refine ⟨ts, hlength, hbuilt, hhints, ?_⟩
  unfold hintedFields
  rw [hhints]
  exact congrArg Except.ok (find?_zip_names h.distinct hlength)

variable {hinted : List (FieldSpec × TypeExpr)} {fields : List (String × HostValue)}

/-- The hints of its fields are built again. -/
theorem hinted_fields (h : Opens cs R name) (hhints : hintedFields cs name = .ok hinted) :
    hinted.map (·.1) = cs.fields name ∧ ∀ q ∈ hinted, Built R q.2 := by
  obtain ⟨ts, hlength, hbuilt, _, hhinted⟩ := h.hints
  obtain rfl : hinted = (cs.fields name).zip ts := Except.ok.inj (hhints.symm.trans hhinted)
  exact ⟨List.map_fst_zip (Nat.le_of_eq hlength.symm),
    fun q hq => hbuilt q.2 (List.of_mem_zip hq).2⟩

/-- Fields that are named like those of the class. -/
theorem names_fields (h : Opens cs R name) (hhints : hintedFields cs name = .ok hinted)
    (hnames : fields.map (·.1) = hinted.map (·.1.name)) :
    fields.map (·.1) = (cs.fields name).map (·.name) := by
  rw [hnames, ← (h.hinted_fields hhints).1, List.map_map]
  rfl

/-- They have different names. -/
theorem distinct_fields (h : Opens cs R name) (hhints : hintedFields cs name = .ok hinted)
    (hnames : fields.map (·.1) = hinted.map (·.1.name)) : (fields.map (·.1)).Nodup := by
  rw [h.names_fields hhints hnames]
  exact h.distinct

end Opens

-- ================================================================= values

/-- The keys of a mapping can be keys, and no two are the same. -/
structure KeysDiffer (es : List (HostValue × HostValue)) : Prop where
  hashable : ∀ e ∈ es, e.1.unhashable? = none
  differ : (es.map (·.1)).Pairwise fun k k' => k.sameKey k' = false

/-- The values of exactly a type, with integers of 64 bits and no NaN. -/
inductive Fits (cs : Classes) : HostValue → TypeExpr → Prop where
  | boolean (b : Bool) : Fits cs (.bool b) (.cls (.boolean false))
  | integer {n : Int} (range : inRange n = true) : Fits cs (.int n) (.cls (.integer .plain))
  | enum {e : String} {n : Int} (range : inRange n = true)
      (member : (cs.memberName e n).isSome = true) :
      Fits cs (.integer (.enum e) n) (.cls (.integer (.enum e)))
  | float {x : Double} (number : x.isNaN = false) :
      Fits cs (.float .plain x) (.cls (.float .plain))
  | text (s : String) : Fits cs (.str s) (.cls (.text .plain))
  | bytes (b : Bytes) : Fits cs (.bytes .plain b) (.cls (.bytes .plain))
  | array (b : Bytes) : Fits cs (.bytes .array b) (.cls (.bytes .array))
  | list {vs : List HostValue} {a : TypeExpr} (items : ∀ v ∈ vs, Fits cs v a) :
      Fits cs (.list vs) (.generic (.sequence .list) [a])
  | tuple {vs : List HostValue} {a : TypeExpr} (items : ∀ v ∈ vs, Fits cs v a) :
      Fits cs (.sequence .tuple vs) (.generic (.sequence .tuple) [a, .ellipsis])
  | fixedTuple {vs : List HostValue} {as : List TypeExpr} (length : vs.length = as.length)
      (items : ∀ p ∈ vs.zip as, Fits cs p.1 p.2) :
      Fits cs (.sequence .tuple vs) (.generic (.sequence .tuple) as)
  | mapping {kind : MappingKind} {es : List (HostValue × HostValue)} {a b : TypeExpr}
      (keys : ∀ e ∈ es, Fits cs e.1 a) (values : ∀ e ∈ es, Fits cs e.2 b)
      (differ : KeysDiffer es) : Fits cs (.mapping kind es) (.generic (.mapping kind) [a, b])
  | record {name : String} {hinted : List (FieldSpec × TypeExpr)}
      {fields : List (String × HostValue)} (hints : hintedFields cs name = .ok hinted)
      (names : fields.map (·.1) = hinted.map (·.1.name))
      (values : ∀ p ∈ fields.zip hinted, Fits cs p.1.2 p.2.2) :
      Fits cs (.record name (cs.isTuple name) fields) (.cls (.record name))

/-- An encoding can write every text in a value. -/
inductive Written (enc : Encoding) : HostValue → Prop where
  | boolean (b : Bool) : Written enc (.bool b)
  | integer (kind : IntegerKind) (n : Int) : Written enc (.integer kind n)
  | float (x : Double) : Written enc (.float .plain x)
  | text {s : String} {b : Bytes} (written : enc.encode s = .ok b) : Written enc (.str s)
  | bytes (kind : BytesKind) (b : Bytes) : Written enc (.bytes kind b)
  | sequence (kind : SequenceKind) {vs : List HostValue} (items : ∀ v ∈ vs, Written enc v) :
      Written enc (.sequence kind vs)
  | mapping (kind : MappingKind) {es : List (HostValue × HostValue)}
      (keys : ∀ e ∈ es, Written enc e.1) (values : ∀ e ∈ es, Written enc e.2) :
      Written enc (.mapping kind es)
  | record (name : String) (tuple : Bool) {fields : List (String × HostValue)}
      (values : ∀ f ∈ fields, Written enc f.2) : Written enc (.record name tuple fields)

namespace Written

variable {enc : Encoding} {v : HostValue}

theorem item {kind : SequenceKind} {vs : List HostValue} (h : Written enc (.sequence kind vs))
    (hv : v ∈ vs) : Written enc v := by
  cases h with
  | sequence _ items => exact items v hv

theorem entry {kind : MappingKind} {es : List (HostValue × HostValue)}
    (h : Written enc (.mapping kind es)) {e : HostValue × HostValue} (he : e ∈ es) :
    Written enc e.1 ∧ Written enc e.2 := by
  cases h with
  | mapping _ keys values => exact ⟨keys e he, values e he⟩

theorem field {name : String} {tuple : Bool} {fields : List (String × HostValue)}
    (h : Written enc (.record name tuple fields)) {f : String × HostValue} (hf : f ∈ fields) :
    Written enc f.2 := by
  cases h with
  | record _ _ values => exact values f hf

end Written

/-- Each member of a list has a partner in one of the same length. -/
theorem mem_zip_of_mem {α β : Type} {as : List α} {bs : List β} (h : as.length = bs.length)
    {a : α} (ha : a ∈ as) : ∃ b, (a, b) ∈ as.zip bs := by
  rw [← List.map_fst_zip (Nat.le_of_eq h)] at ha
  obtain ⟨p, hp, rfl⟩ := List.mem_map.mp ha
  exact ⟨p.2, hp⟩

/-- UTF-8 can write every text. -/
theorem Fits.written {cs : Classes} {v : HostValue} {t : TypeExpr} (h : Fits cs v t) :
    Written .utf8 v := by
  induction h with
  | boolean b => exact .boolean b
  | integer _ => exact .integer _ _
  | enum _ _ => exact .integer _ _
  | float _ => exact .float _
  | text s => exact .text rfl
  | bytes b => exact .bytes _ b
  | array b => exact .bytes _ b
  | list _ ih => exact .sequence _ ih
  | tuple _ ih => exact .sequence _ ih
  | fixedTuple length _ ih =>
      refine .sequence _ fun v hv => ?_
      obtain ⟨a, ha⟩ := mem_zip_of_mem length hv
      exact ih _ ha
  | mapping _ _ _ ihk ihv => exact .mapping _ ihk ihv
  | @record name hinted fields _ names _ ih =>
      have hlength := congrArg List.length names
      rw [List.length_map, List.length_map] at hlength
      refine .record _ _ fun f hf => ?_
      obtain ⟨q, hq⟩ := mem_zip_of_mem hlength hf
      exact ih _ hq

/-- Lists with the same images have members with the same image. -/
theorem exists_mem_of_map_eq {α γ : Type} {f : α → γ} {as as' : List α}
    (h : as'.map f = as.map f) {a' : α} (ha : a' ∈ as') : ∃ a ∈ as, f a' = f a := by
  have hmem : f a' ∈ as.map f := by
    rw [← h]
    exact List.mem_map_of_mem ha
  obtain ⟨a, ha, heq⟩ := List.mem_map.mp hmem
  exact ⟨a, ha, heq.symm⟩

/-- And so when they are paired with another list. -/
theorem mem_zip_of_map_eq {α β γ : Type} {f : α → γ} {as as' : List α} {bs : List β}
    (h : as'.map f = as.map f) {p : α × β} (hp : p ∈ as'.zip bs) :
    ∃ a, (a, p.2) ∈ as.zip bs ∧ f p.1 = f a := by
  induction as' generalizing as bs with
  | nil => cases hp
  | cons a' as' ih =>
      cases as with
      | nil => cases h
      | cons a as =>
          obtain ⟨hhead, htail⟩ := List.cons.inj h
          cases bs with
          | nil => cases hp
          | cons b bs =>
              rcases List.mem_cons.mp hp with rfl | hmem
              · exact ⟨a, List.mem_cons_self .., hhead⟩
              · obtain ⟨c, hc, heq⟩ := ih htail hmem
                exact ⟨c, List.mem_cons_of_mem _ hc, heq⟩

theorem KeysDiffer.before {ds es : List (HostValue × HostValue)} {d e : HostValue × HostValue}
    (h : KeysDiffer (ds ++ e :: es)) (hd : d ∈ ds) : d.1.sameKey e.1 = false := by
  have hpairs := h.differ
  rw [List.map_append] at hpairs
  exact (List.pairwise_append.mp hpairs).2.2 d.1 (List.mem_map_of_mem hd) e.1
    (List.mem_cons_self ..)

/-- Whether the keys of a mapping are any does not depend on their zeros. -/
theorem KeysDiffer.of_canonical {es es' : List (HostValue × HostValue)} (h : KeysDiffer es)
    (heq : (es'.map (·.1)).map HostValue.canonical = (es.map (·.1)).map HostValue.canonical) :
    KeysDiffer es' where
  hashable e he := by
    obtain ⟨k, hk, hcanonical⟩ := exists_mem_of_map_eq heq (List.mem_map_of_mem he)
    obtain ⟨e', he', rfl⟩ := List.mem_map.mp hk
    rw [← HostValue.unhashable?_canonical, hcanonical, HostValue.unhashable?_canonical]
    exact h.hashable e' he'
  differ := by
    have hmap : ∀ ks : List HostValue,
        (ks.map HostValue.canonical).Pairwise (fun k k' => k.sameKey k' = false)
          ↔ ks.Pairwise fun k k' => k.sameKey k' = false := by
      intro ks
      rw [List.pairwise_map]
      simp only [HostValue.sameKey_canonical]
    rw [← hmap, heq, hmap]
    exact h.differ

namespace Fits

variable {cs : Classes} {v w : HostValue} {t : TypeExpr}

/-- A value that can be a key is the same key as itself. -/
theorem sameKey_self (h : Fits cs v t) (hkey : v.unhashable? = none) :
    v.sameKey v = true := by
  induction h with
  | boolean b => cases b <;> rfl
  | integer range =>
      rw [HostValue.sameKey_atom rfl, HostValue.sameAtom_number rfl rfl Quantity.noConfusion,
        Bool.or_true]
  | enum range member =>
      rw [HostValue.sameKey_atom rfl, HostValue.sameAtom_number rfl rfl Quantity.noConfusion,
        Bool.or_true]
  | float number =>
      rw [HostValue.sameKey_atom rfl,
        HostValue.sameAtom_number rfl rfl (HostValue.ofFloat_ne_nan number), Bool.or_true]
  | text s => exact beq_self_eq_true s
  | bytes b => exact beq_self_eq_true b
  | array b => cases hkey
  | list items ih => cases hkey
  | tuple items ih =>
      have hnone := HostValue.unhashableIn?_none hkey
      exact HostValue.sameKeys_self fun v hv => ih v hv (hnone v hv)
  | @fixedTuple vs as length items ih =>
      have hnone := HostValue.unhashableIn?_none hkey
      refine HostValue.sameKeys_self fun v hv => ?_
      obtain ⟨a, hp⟩ := mem_zip_of_mem length hv
      exact ih _ hp (hnone v hv)
  | mapping keys values differ => cases hkey
  | @record name hinted fields hints names values ih =>
      cases htuple : cs.isTuple name with
      | false =>
          rw [htuple] at hkey
          cases hkey
      | true =>
          rw [htuple] at hkey
          have hnone := HostValue.unhashableInFields?_none hkey
          have hlength := congrArg List.length names
          rw [List.length_map, List.length_map] at hlength
          refine HostValue.sameFieldKeys_self fun f hf => ?_
          obtain ⟨p, hp⟩ := mem_zip_of_mem hlength hf
          exact ih _ hp (hnone f hf)

/-- What a value fits does not depend on the signs of its zeros. -/
theorem of_canonical (h : Fits cs v t) (heq : w.canonical = v.canonical) : Fits cs w t := by
  induction h generalizing w with
  | boolean b =>
      rw [HostValue.eq_of_canonical rfl heq]
      exact .boolean b
  | integer range =>
      rw [HostValue.eq_of_canonical rfl heq]
      exact .integer range
  | enum range member =>
      rw [HostValue.eq_of_canonical rfl heq]
      exact .enum range member
  | @float x number =>
      obtain ⟨y, rfl, hy⟩ := HostValue.float_of_canonical heq
      refine .float ?_
      rw [← Double.canonical_isNaN, hy, Double.canonical_isNaN]
      exact number
  | text s =>
      rw [HostValue.eq_of_canonical rfl heq]
      exact .text s
  | bytes b =>
      rw [HostValue.eq_of_canonical rfl heq]
      exact .bytes b
  | array b =>
      rw [HostValue.eq_of_canonical rfl heq]
      exact .array b
  | @list vs a items ih =>
      obtain ⟨ws, rfl, hws⟩ := HostValue.sequence_of_canonical heq
      refine .list fun w hw => ?_
      obtain ⟨v, hv, hvw⟩ := exists_mem_of_map_eq hws hw
      exact ih v hv hvw
  | @tuple vs a items ih =>
      obtain ⟨ws, rfl, hws⟩ := HostValue.sequence_of_canonical heq
      refine .tuple fun w hw => ?_
      obtain ⟨v, hv, hvw⟩ := exists_mem_of_map_eq hws hw
      exact ih v hv hvw
  | @fixedTuple vs as length items ih =>
      obtain ⟨ws, rfl, hws⟩ := HostValue.sequence_of_canonical heq
      have hlength := congrArg List.length hws
      rw [List.length_map, List.length_map] at hlength
      refine .fixedTuple (hlength.trans length) fun p hp => ?_
      obtain ⟨v, hv, hvw⟩ := mem_zip_of_map_eq hws hp
      exact ih _ hv hvw
  | @mapping kind es a b keys values differ ihk ihv =>
      obtain ⟨es', rfl, hes⟩ := HostValue.mapping_of_canonical heq
      refine .mapping (fun e' he' => ?_) (fun e' he' => ?_) (differ.of_canonical ?_)
      · obtain ⟨e, he, heq⟩ := exists_mem_of_map_eq hes he'
        exact ihk e he (Prod.mk.inj heq).1
      · obtain ⟨e, he, heq⟩ := exists_mem_of_map_eq hes he'
        exact ihv e he (Prod.mk.inj heq).2
      · have hkeys := congrArg (List.map (·.1)) hes
        rw [List.map_map, List.map_map] at hkeys ⊢
        exact hkeys
  | @record name hinted fields hints names values ih =>
      obtain ⟨fields', rfl, hfields⟩ := HostValue.record_of_canonical heq
      have hnames := congrArg (List.map (·.1)) hfields
      rw [List.map_map, List.map_map] at hnames
      refine .record hints (hnames.trans names) fun p hp => ?_
      obtain ⟨f, hf, heq⟩ := mem_zip_of_map_eq hfields hp
      exact ih _ hf (Prod.mk.inj heq).2

/-- The types of the items of a tuple that has one for each. -/
theorem built_items {R : String → Prop} {vs : List HostValue} {as : List TypeExpr}
    (hbuilt : Built R (.generic (.sequence .tuple) as)) (hlength : vs.length = as.length)
    (hitems : ∀ p ∈ vs.zip as, Fits cs p.1 p.2) : ∀ a ∈ as, Built R a := by
  cases hbuilt with
  | fixedTuple built => exact built
  | @tuple a item =>
      intro b hb
      rcases List.mem_cons.mp hb with rfl | hlast
      · exact item
      · -- no value fits an ellipsis
        rw [← List.map_snd_zip (Nat.le_of_eq hlength.symm)] at hb
        obtain ⟨⟨v, c⟩, hp, hc⟩ := List.mem_map.mp hb
        have hfits : Fits cs v c := hitems _ hp
        obtain rfl : c = .ellipsis := hc.trans (List.mem_singleton.mp hlast)
        cases hfits

end Fits

end StackBridge
