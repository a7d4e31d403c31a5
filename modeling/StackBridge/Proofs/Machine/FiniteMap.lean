import StackBridge.Proofs.Machine.Keys
import StackBridge.Proofs.Machine.Top
import StackBridge.Proofs.Machine.Traversal

/-!
Tables as finite maps. Whatever has been stored in a table, in whatever order and
however often its positions have been compacted, a value addresses what was
stored last under a raw equal one (`get_storedThrough`): storing under one key leaves
what the others address (`get_stored`), and equal values have one key
(`Value.rawEqual_iff`).

What is true of an empty table and kept by storing is true of every table
(`Table.Stable`); no table holds nil, and none has two entries for one key, so
that as many different values address something as there are entries.
-/

namespace StackBridge

-- ================================================================ invariants

/-- A property of tables that the empty one has and that storing keeps. -/
class Table.Stable (P : Table → Prop) : Prop where
  empty : P .empty
  set : ∀ {t t' : Table} {k v : Value}, P t → t.set k v = .ok t' → P t'

instance : Table.Stable Table.WellKept := ⟨Table.wellKept_empty, Table.WellKept.set⟩

/-- A table does not hold nil. -/
def Table.NilFree (t : Table) : Prop := ∀ e ∈ t.entries, e.2 ≠ .nil

instance : Table.Stable Table.NilFree where
  empty _ he := absurd he List.not_mem_nil
  set h hset e he := by
    rcases Table.mem_of_mem_set hset he with hmem | ⟨hv, k, _, rfl⟩
    · exact h e hmem
    · exact hv

theorem Table.NilFree.find? {t : Table} (h : t.NilFree) {k : Key} {v : Value}
    (hv : t.find? k = some v) : v ≠ .nil := by
  obtain ⟨e, he, rfl⟩ := Option.map_eq_some_iff.mp hv
  exact h e (List.mem_of_find?_eq_some he)

/-- A table has one entry for a key, and each key addresses itself as a value. -/
structure Table.Keyed (t : Table) : Prop where
  nodup : (t.entries.map (·.1)).Nodup
  normal : ∀ e ∈ t.entries, e.1.value.key = .ok e.1

namespace Table

variable {t t' : Table} {k : Key} {v w : Value}

/-- Storing under a key keeps the keys, and adds this one if it is new. -/
theorem putEntry_keys (k : Key) (v : Value) (es : List (Key × Value)) :
    (putEntry k v es).map (·.1)
      = if k ∈ es.map (·.1) then es.map (·.1) else es.map (·.1) ++ [k] := by
  induction es with
  | nil => rfl
  | cons e es ih =>
      unfold putEntry
      by_cases he : e.1 = k
      · rw [if_pos he, if_pos (by simp [he]), List.map_cons, List.map_cons, he]
      · rw [if_neg he, List.map_cons, ih, List.map_cons]
        by_cases hk : k ∈ es.map (·.1)
        · rw [if_pos hk, if_pos (List.mem_cons_of_mem _ hk)]
        · rw [if_neg hk, if_neg]
          · rfl
          · rw [List.mem_cons, not_or]
            exact ⟨Ne.symm he, hk⟩

instance : Stable Keyed where
  empty := ⟨List.nodup_nil, fun _ he => absurd he List.not_mem_nil⟩
  set {t t' w v} h hset := by
    refine ⟨?_, fun e he => ?_⟩
    · unfold Table.set at hset
      split at hset
      · cases hset
      · rename_i k hkey
        cases hset
        split
        · exact h.nodup.sublist (List.filter_sublist.map _)
        · show ((putEntry k v (t.position k).entries).map (·.1)).Nodup
          rw [position_entries, putEntry_keys]
          split
          · exact h.nodup
          · rename_i hnew
            exact List.nodup_append.mpr ⟨h.nodup, List.nodup_singleton k, fun a ha b hb hab => by
              rw [List.mem_singleton.mp hb] at hab
              exact hnew (hab ▸ ha)⟩
    · rcases mem_of_mem_set hset he with hmem | ⟨_, k, hkey, rfl⟩
      · exact h.normal e hmem
      · exact Key.value_key hkey

-- ================================================================== entries

/-- An entry is what is found under its key. -/
theorem find?_iff (hkeyed : t.Keyed) : t.find? k = some v ↔ (k, v) ∈ t.entries := by
  unfold find?
  rw [Option.map_eq_some_iff]
  constructor
  · rintro ⟨e, he, rfl⟩
    have hkey := List.find?_some he
    rw [← beq_iff_eq.mp hkey]
    exact List.mem_of_find?_eq_some he
  · intro hmem
    have hsome : (t.entries.find? (·.1 == k)).isSome := by
      rw [List.find?_isSome]
      exact ⟨(k, v), hmem, beq_self_eq_true k⟩
    obtain ⟨e, he⟩ := Option.isSome_iff_exists.mp hsome
    have hkey := List.find?_some he
    have hsame := List.inj_on_of_nodup_map hkeyed.nodup (List.mem_of_find?_eq_some he) hmem
      (beq_iff_eq.mp hkey)
    exact ⟨e, he, congrArg Prod.snd hsame⟩

theorem mem_traversal {e : Key × Value} (hw : t.WellKept) :
    e ∈ t.traversal ↔ t.find? e.1 = some e.2 := by
  unfold traversal
  rw [List.mem_filterMap]
  constructor
  · rintro ⟨k, _, hk⟩
    obtain ⟨v, hv, rfl⟩ := Option.map_eq_some_iff.mp hk
    exact hv
  · intro he
    exact ⟨e.1, hw.placed e.1 (has_of_find? he), by rw [he]; rfl⟩

/-- A traversal comes to each key once. -/
theorem traversal_nodup (hw : t.WellKept) : (t.traversal.map (·.1)).Nodup := by
  have hkeys : ∀ ks : List Key, ((t.along ks).map (·.1)).Sublist ks := by
    intro ks
    induction ks with
    | nil => exact .slnil
    | cons k ks ih =>
        unfold along
        rw [List.filterMap_cons]
        cases t.find? k with
        | none => exact ih.cons k
        | some v => exact ih.cons_cons k
  exact hw.nodup.sublist (hkeys t.order)

/-- In the order of traversal the entries are the same. -/
theorem traversal_perm (hw : t.WellKept) (hkeyed : t.Keyed) : t.traversal.Perm t.entries :=
  (List.perm_ext_iff_of_nodup (traversal_nodup hw).of_map hkeyed.nodup.of_map).mpr fun _ =>
    (mem_traversal hw).trans (find?_iff hkeyed)

-- ================================================================== storing

/-- A table after a value has been stored; what addresses no key is not stored
under. -/
def stored (t : Table) (w v : Value) : Table :=
  match t.set w v with
  | .ok t' => t'
  | .error _ => t

/-- A table after values have been stored one after the other, each under what it
comes with. -/
def storedThrough (t : Table) : List (Value × Value) → Table
  | [] => t
  | (w, v) :: sets => (t.stored w v).storedThrough sets

/-- What has been stored last under what is raw equal to a value; nil if nothing
has. -/
def lastStored (k : Value) (sets : List (Value × Value)) : Value :=
  ((sets.filter fun e => e.1.rawEqual k).getLast?.map (·.2)).getD .nil

theorem storedThrough_append (t : Table) (sets sets' : List (Value × Value)) :
    t.storedThrough (sets ++ sets') = (t.storedThrough sets).storedThrough sets' := by
  induction sets generalizing t with
  | nil => rfl
  | cons e sets ih => exact ih _

theorem Stable.storedThrough {P : Table → Prop} [Stable P] (ht : P t)
    (sets : List (Value × Value)) : P (t.storedThrough sets) := by
  induction sets generalizing t with
  | nil => exact ht
  | cons e sets ih =>
      refine ih ?_
      unfold stored
      split
      · rename_i t' hset
        exact Stable.set ht hset
      · exact ht

@[simp] theorem get_empty (x : Value) : empty.get x = .nil := by
  unfold get
  cases x.key <;> rfl

/-- What is addressed once a value has been stored: that value if it is raw equal
to what it has been stored under, and otherwise what was before. -/
theorem get_stored (t : Table) (w v : Value) {x : Value} (hx : x ≠ .nil) :
    (t.stored w v).get x = if w.rawEqual x then v else t.get x := by
  cases hw : w.key with
  | error f =>
      have hset : t.stored w v = t := by
        unfold stored set
        rw [hw]
      rw [hset, Value.rawEqual_keyless hw hx]
      rfl
  | ok k =>
      have hset : t.stored w v = if v = .nil then t.erase k else t.put k v := by
        unfold stored set
        rw [hw]
      rw [hset]
      cases hkey : x.key with
      | error f =>
          have hdiffer : w.rawEqual x = false := by
            refine Bool.eq_false_iff.mpr fun h => ?_
            cases hkey.symm.trans ((Value.rawEqual_iff hw).mp h)
          have hnone : ∀ t : Table, t.get x = .nil := fun t => by
            unfold get
            rw [hkey]
          rw [hdiffer, hnone, hnone]
          rfl
      | ok k' =>
          have hsame : w.rawEqual x = true ↔ k' = k := by
            rw [Value.rawEqual_iff hw, hkey]
            exact ⟨Except.ok.inj, congrArg _⟩
          have hget : ∀ t : Table, t.get x = (t.find? k').getD .nil := fun t => by
            unfold get
            rw [hkey]
          simp only [hsame, hget]
          by_cases hv : v = .nil
          · rw [if_pos hv, find?_erase, hv]
            split <;> rfl
          · rw [if_neg hv, find?_put]
            split <;> rfl

/-- What is addressed once values have been stored: what was stored last under a raw
equal value, if anything was. -/
theorem get_storedThrough_from (t : Table) (sets : List (Value × Value)) {x : Value}
    (hx : x ≠ .nil) : (t.storedThrough sets).get x
      = ((sets.filter fun e => e.1.rawEqual x).getLast?.map (·.2)).getD (t.get x) := by
  induction sets generalizing t with
  | nil => rfl
  | cons e sets ih =>
      obtain ⟨w, v⟩ := e
      show ((t.stored w v).storedThrough sets).get x = _
      rw [ih, get_stored t w v hx]
      rw [List.filter_cons]
      split
      · rw [List.getLast?_cons]
        cases (sets.filter fun e => e.1.rawEqual x).getLast? <;> rfl
      · rfl

-- ================================================================= counting

/-- The keys of a table as values: no two are raw equal, and a value addresses
something if and only if it is raw equal to one of them. -/
theorem keys_represent (hkeyed : t.Keyed) (hfull : t.NilFree) :
    (t.entries.map (·.1.value)).Pairwise (fun u u' => u.rawEqual u' = false)
      ∧ ∀ x, t.get x ≠ .nil ↔ ∃ u ∈ t.entries.map (·.1.value), u.rawEqual x = true := by
  constructor
  · refine List.pairwise_map.mpr ?_
    refine (List.pairwise_map.mp hkeyed.nodup).imp_of_mem fun {e e'} he he' hne => ?_
    refine Bool.eq_false_iff.mpr fun h => ?_
    have hkey := (Value.rawEqual_iff (hkeyed.normal e he)).mp h
    rw [hkeyed.normal e' he'] at hkey
    exact hne (Except.ok.inj hkey).symm
  · intro x
    constructor
    · intro hx
      unfold get at hx
      cases hkey : x.key with
      | error f =>
          rw [hkey] at hx
          exact absurd rfl hx
      | ok k =>
          rw [hkey] at hx
          cases hfind : t.find? k with
          | none =>
              simp only [hfind] at hx
              exact absurd rfl hx
          | some v =>
              obtain ⟨e, he, rfl⟩ := List.mem_map.mp (has_iff.mp (has_of_find? hfind))
              exact ⟨e.1.value, List.mem_map.mpr ⟨e, he, rfl⟩,
                (Value.rawEqual_iff (hkeyed.normal e he)).mpr hkey⟩
    · rintro ⟨u, hu, hsame⟩
      obtain ⟨e, he, rfl⟩ := List.mem_map.mp hu
      have hkey := (Value.rawEqual_iff (hkeyed.normal e he)).mp hsame
      have hhas : t.has e.1 = true := has_iff.mpr (List.mem_map_of_mem he)
      obtain ⟨v, hv⟩ := Option.isSome_iff_exists.mp hhas
      unfold get
      rw [hkey]
      simp only [hv]
      exact hfull.find? hv

-- ==================================================================== table

theorem key_of_number {x : Value} {d : Double} (hx : x.plain = .float d) :
    x.key = Key.ofFloat d := by
  rw [← Value.key_plain, hx]
  rfl

/-- Nil and NaN address no key. -/
theorem keyless {x : Value} (hx : x = .nil ∨ ∃ d, x.plain = .float d ∧ d.isNaN = true) :
    ∃ f, x.key = .error f := by
  rcases hx with rfl | ⟨d, hd, hnan⟩
  · exact ⟨.nil, rfl⟩
  · refine ⟨.nan, ?_⟩
    rw [key_of_number hd, Key.ofFloat, if_pos hnan]

/-- Every other value that the machine knows addresses one. -/
theorem addresses {x : Value} (hnil : x ≠ .nil)
    (hnumber : ∀ d, x.plain = .float d → d.isNaN = false) (hknown : x.category?.isSome) :
    ∃ k, x.key = .ok k := by
  cases x with
  | nil => exact absurd rfl hnil
  | float d => exact Key.ofFloat_ok (hnumber d rfl)
  | guest id role =>
      cases role with
      | float d => exact Key.ofFloat_ok (hnumber d rfl)
      | stray name => cases hknown
      | _ => exact ⟨_, rfl⟩
  | _ => exact ⟨_, rfl⟩

/-- A table that began empty is the finite map, from values up to raw equality,
that storing has made of it. A value addresses what was stored last under a raw
equal one; nil and NaN address nil, and storing under them is a misuse that leaves
the machine as it is, while storing under any other value succeeds; and as many
different values address something as the table has entries. -/
theorem get_storedThrough (sets : List (Value × Value)) :
    (∀ x, x ≠ .nil → (empty.storedThrough sets).get x = lastStored x sets)
      ∧ (∀ x, x = .nil ∨ (∃ d, x.plain = .float d ∧ d.isNaN = true) →
          (empty.storedThrough sets).get x = .nil
            ∧ ∃ f, ∀ v (vm : Vm) id, vm.heap.table id = empty.storedThrough sets →
              Vm.store id x v vm = .error (.misuse (.key f)) vm)
      ∧ (∀ x, x ≠ .nil → (∀ d, x.plain = .float d → d.isNaN = false) → x.category?.isSome →
          ∀ v, (empty.storedThrough sets).set x v = .ok (empty.storedThrough (sets ++ [(x, v)])))
      ∧ ∃ us : List Value, us.length = (empty.storedThrough sets).size
        ∧ us.Pairwise (fun u u' => u.rawEqual u' = false)
        ∧ ∀ x, (empty.storedThrough sets).get x ≠ .nil ↔ ∃ u ∈ us, u.rawEqual x = true := by
  have hkeyed : (empty.storedThrough sets).Keyed := Stable.storedThrough Stable.empty sets
  have hfull : (empty.storedThrough sets).NilFree := Stable.storedThrough Stable.empty sets
  refine ⟨fun x hx => ?_, fun x hx => ?_, fun x hnil hnumber hknown v => ?_, ?_⟩
  · rw [get_storedThrough_from empty sets hx, get_empty]
    rfl
  · obtain ⟨f, hf⟩ := keyless hx
    refine ⟨?_, f, fun v vm id hid => Vm.store_error ?_⟩
    · unfold get
      rw [hf]
    · rw [hid]
      unfold set
      rw [hf]
  · obtain ⟨k, hk⟩ := addresses hnil hnumber hknown
    have hset : ∃ t', (empty.storedThrough sets).set x v = .ok t' := by
      unfold set
      rw [hk]
      exact ⟨_, rfl⟩
    obtain ⟨t', ht'⟩ := hset
    have hstored : (empty.storedThrough sets).stored x v = t' := by
      unfold stored
      rw [ht']
    rw [ht', ← hstored, storedThrough_append]
    rfl
  · obtain ⟨hdiffer, hkeys⟩ := keys_represent hkeyed hfull
    exact ⟨_, by rw [List.length_map, size], hdiffer, hkeys⟩

/-- Stores under one as an integer and as a float, and under a truth value. -/
def mixed : List (Value × Value) :=
  [(.int 1, .str [97]), (.float (.ofInt 1), .str [98]), (.bool true, .str [99])]

/-- One is the same key as an integer and as a float, and no truth value is. -/
theorem get_storedThrough_mixed :
    (empty.storedThrough mixed).get (.int 1) = .str [98]
      ∧ (empty.storedThrough mixed).get (.bool true) = .str [99] := by
  obtain ⟨hget, -⟩ := get_storedThrough mixed
  exact ⟨(hget _ (by decide)).trans (by decide +kernel),
    (hget _ (by decide)).trans (by decide +kernel)⟩

/-- An integer is not the float that it would be rounded to. -/
example : Value.rawEqual (.int 9007199254740993) (.float (.ofInt 9007199254740993)) = false := by
  decide +kernel

end Table

end StackBridge
