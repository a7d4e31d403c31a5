import StackBridge.Machine.Layout
import StackBridge.Proofs.Machine.FiniteMap

/-!
The three structures that a table is kept in agree, whatever has been stored.

A store touches them one after the other: a key may come to the end of the order,
after the keys without an entry have been dropped and the others numbered anew, and
only then the entry follows. Each of these steps keeps `Layout.Kept`: `compact`,
`place`, which needs that the key is new, and the entry itself, which needs that its
key is placed. Behind them the table of `Machine.Table` is seen, with the same answers
(`table_stored`, `table_next`).
-/

namespace StackBridge

-- ================================================================ maps

namespace KeyMap

variable {α : Type} {d : KeyMap α} {k k' : Key} {a : α}

theorem lookup_cons (e : Key × α) (d : KeyMap α) (k : Key) :
    List.lookup k (e :: d) = if k = e.1 then some e.2 else d.lookup k := by
  rw [List.lookup_cons]
  by_cases h : k = e.1
  · rw [if_pos h, h, beq_self_eq_true]
  · rw [if_neg h, beq_false_of_ne h]

theorem lookup_insert (k k' : Key) (a : α) (d : KeyMap α) :
    (d.insert k a).lookup k' = if k' = k then some a else d.lookup k' := by
  induction d with
  | nil => exact lookup_cons (k, a) [] k'
  | cons e d ih =>
      unfold insert
      by_cases he : e.1 = k
      · rw [if_pos he, lookup_cons, lookup_cons, he]
        by_cases h : k' = k
        · simp [h]
        · simp [h]
      · rw [if_neg he, lookup_cons, lookup_cons, ih]
        by_cases h : k' = e.1
        · simp [h, he]
        · simp [h]

/-- A map in which every key stands once is the list of what is found in it. -/
theorem lookup_iff (hd : (d.map (·.1)).Nodup) : d.lookup k = some a ↔ (k, a) ∈ d := by
  induction d with
  | nil => simp
  | cons e d ih =>
      rw [List.map_cons, List.nodup_cons] at hd
      rw [lookup_cons, List.mem_cons]
      by_cases h : k = e.1
      · have hnew : (k, a) ∉ d := fun hmem => hd.1 (h ▸ List.mem_map_of_mem hmem)
        rw [if_pos h, Option.some.injEq, or_iff_left hnew, h, Prod.ext_iff]
        simp [eq_comm]
      · simp [h, ih hd.2, Prod.ext_iff]

theorem lookup_isSome : (d.lookup k).isSome = true ↔ k ∈ d.map (·.1) := by
  rw [List.lookup_isSome_iff]
  simp

theorem keys_insert (k : Key) (a : α) (d : KeyMap α) :
    (d.insert k a).map (·.1) = if k ∈ d.map (·.1) then d.map (·.1) else d.map (·.1) ++ [k] := by
  induction d with
  | nil => simp [insert]
  | cons e d ih =>
      unfold insert
      by_cases he : e.1 = k
      · simp [he]
      · rw [if_neg he, List.map_cons, ih]
        by_cases hk : k ∈ d.map (·.1)
        · rw [if_pos hk, if_pos (by simp at hk ⊢; exact Or.inr hk), List.map_cons]
        · rw [if_neg hk, if_neg (by simp at hk ⊢; exact ⟨Ne.symm he, hk⟩), List.map_cons,
            List.cons_append]

theorem insert_new (hk : k ∉ d.map (·.1)) : d.insert k a = d ++ [(k, a)] := by
  induction d with
  | nil => rfl
  | cons e d ih =>
      rw [List.map_cons, List.mem_cons, not_or] at hk
      unfold insert
      rw [if_neg (Ne.symm hk.1), ih hk.2, List.cons_append]

theorem nodup_insert (hd : (d.map (·.1)).Nodup) : ((d.insert k a).map (·.1)).Nodup := by
  rw [keys_insert]
  split
  · exact hd
  · rename_i hk
    rw [← List.concat_eq_append]
    exact hd.concat hk

/-- Keys that differ are numbered as they stand. -/
theorem indices_eq {ks : List Key} (h : ks.Nodup) : indices ks = ks.zipIdx := by
  have hfold : ∀ (ks : List Key) (n : Nat) (d : KeyMap Nat), (d.map (·.1) ++ ks).Nodup →
      (ks.zipIdx n).foldl (fun d e => insert e.1 e.2 d) d = d ++ ks.zipIdx n := by
    intro ks
    induction ks with
    | nil => intro n d _; simp
    | cons k ks ih =>
        intro n d hd
        have hnew : k ∉ d.map (·.1) := fun hk =>
          (List.nodup_append.mp hd).2.2 k hk k (List.mem_cons_self ..) rfl
        rw [List.zipIdx_cons, List.foldl_cons, insert_new hnew, ih, List.append_assoc]
        · rfl
        · rw [List.map_append, List.append_assoc]
          exact hd
  exact hfold ks 0 [] h

end KeyMap

-- ================================================================ keys

/-- What is kept for a key addresses the same key. -/
theorem Value.key_kept {w : Value} {k : Key} (h : w.key = .ok k) : w.kept.key = .ok k := by
  have hfloat : ∀ x : Double, x.isIntegral = true → Key.ofFloat x = .ok k →
      (Value.int x.truncate).key = .ok k := by
    intro x hx hk
    rw [Key.ofFloat_integral hx] at hk
    exact hk
  unfold kept
  split
  · split
    · exact hfloat _ (by assumption) h
    · exact h
  · split
    · exact hfloat _ (by assumption) h
    · exact h
  · exact h

/-- What is kept for a key is no integral float. -/
theorem Value.kept_fraction {w : Value} {x : Double} (h : w.kept.plain = .float x) :
    x.isIntegral = false := by
  unfold kept at h
  split at h
  · split at h
    · cases h
    · cases h
      exact Bool.eq_false_iff.mpr (by assumption)
  · split at h
    · cases h
    · cases h
      exact Bool.eq_false_iff.mpr (by assumption)
  · rename_i hfloat hguest
    cases w with
    | float y => exact absurd rfl (hfloat y)
    | guest id role =>
        cases role with
        | float y => exact absurd rfl (hguest id y)
        | _ => cases h
    | _ => cases h

-- ================================================================ invariant

namespace Layout

variable {l l' : Layout} {k : Key} {u v w : Value} {i : Nat}

/-- The three structures agree: no key stands twice in the order, the positions are
those of the keys there, and the key of every entry is among them. Under its key an
entry has a value, and the key as it was given, unless that was an integral float. -/
structure Kept (l : Layout) : Prop where
  nodup : l.keys.Nodup
  positions : ∀ k i, l.positions.lookup k = some i ↔ l.keys[i]? = some k
  numbered : (l.positions.map (·.1)).Nodup
  distinct : (l.entries.map (·.1)).Nodup
  placed : ∀ k u v, l.entries.lookup k = some (u, v) → ∃ i, l.positions.lookup k = some i
  entry : ∀ k u v, l.entries.lookup k = some (u, v) →
    v ≠ .nil ∧ u.key = .ok k ∧ ∀ x, u.plain = .float x → x.isIntegral = false

theorem kept_empty : Kept empty where
  nodup := List.nodup_nil
  positions k i := by simp [empty]
  numbered := List.nodup_nil
  distinct := List.nodup_nil
  placed k u v h := by simp [empty] at h
  entry k u v h := by simp [empty] at h

/-- A key has a position if and only if it stands in the order. -/
theorem Kept.position_iff (hl : Kept l) : (l.positions.lookup k).isSome = true ↔ k ∈ l.keys := by
  rw [Option.isSome_iff_exists, List.mem_iff_getElem?]
  exact exists_congr fun i => hl.positions k i

theorem Kept.keys_subset (hl : Kept l) : l.entries.map (·.1) ⊆ l.keys := by
  intro k hk
  obtain ⟨⟨u, v⟩, he⟩ := Option.isSome_iff_exists.mp (KeyMap.lookup_isSome.mpr hk)
  exact hl.position_iff.mp (Option.isSome_iff_exists.mpr (hl.placed k u v he))

theorem Kept.compact (hl : Kept l) : Kept l.compact := by
  have hnodup : l.compact.keys.Nodup := hl.nodup.filter _
  have hindices : l.compact.positions = l.compact.keys.zipIdx := KeyMap.indices_eq hnodup
  have hkeys : (l.compact.positions.map (·.1)) = l.compact.keys := by
    rw [hindices]
    simp
  have hpositions : ∀ k i, l.compact.positions.lookup k = some i ↔ l.compact.keys[i]? = some k := by
    intro k i
    rw [KeyMap.lookup_iff (by rw [hkeys]; exact hnodup), hindices]
    exact List.mk_mem_zipIdx_iff_getElem?
  refine ⟨hnodup, hpositions, by rw [hkeys]; exact hnodup, hl.distinct, fun k u v h => ?_, hl.entry⟩
  have hentry : l.entries.lookup k = some (u, v) := h
  have hmem : k ∈ l.compact.keys := by
    refine List.mem_filter.mpr ⟨?_, by rw [hentry]; rfl⟩
    exact hl.position_iff.mp (Option.isSome_iff_exists.mpr (hl.placed k u v hentry))
  obtain ⟨i, hi⟩ := List.mem_iff_getElem?.mp hmem
  exact ⟨i, (hpositions k i).mpr hi⟩

/-- After the keys without an entry have been dropped there are as many keys as
entries. -/
theorem Kept.compact_keys (hl : Kept l) : l.compact.keys.length ≤ l.entries.length := by
  have hsub : l.compact.keys ⊆ l.entries.map (·.1) := fun k hk =>
    KeyMap.lookup_isSome.mp (List.mem_filter.mp hk).2
  have hle := (hl.compact.nodup.subperm hsub).length_le
  rwa [List.length_map] at hle

/-- Where a new key is put, and what stands before it. -/
theorem place_cases (l : Layout) (k : Key) :
    ∃ l₀, (l₀ = l ∧ l.keys.length ≤ 2 * l.entries.length + 8 ∨ l₀ = l.compact)
      ∧ l.place k = ⟨l.entries, l₀.keys ++ [k], l₀.positions.insert k l₀.keys.length⟩ := by
  unfold place
  by_cases h : 2 * l.entries.length + 8 < l.keys.length
  · exact ⟨l.compact, Or.inr rfl, by simp only [if_pos h]; rfl⟩
  · exact ⟨l, Or.inl ⟨rfl, by omega⟩, by simp only [if_neg h]⟩

theorem Kept.append (hl : Kept l) (hk : k ∉ l.keys) :
    Kept ⟨l.entries, l.keys ++ [k], l.positions.insert k l.keys.length⟩ where
  nodup := by
    rw [← List.concat_eq_append]
    exact hl.nodup.concat hk
  positions x i := by
    show (l.positions.insert k l.keys.length).lookup x = some i ↔ (l.keys ++ [k])[i]? = some x
    rw [KeyMap.lookup_insert]
    by_cases hx : x = k
    · rw [if_pos hx, hx, Option.some.injEq]
      constructor
      · intro hi
        rw [← hi]
        simp
      · intro hi
        by_contra hne
        by_cases hlt : i < l.keys.length
        · rw [List.getElem?_append_left hlt] at hi
          exact hk (List.mem_of_getElem? hi)
        · rw [List.getElem?_eq_none (by simp; omega)] at hi
          cases hi
    · rw [if_neg hx, hl.positions]
      by_cases hlt : i < l.keys.length
      · rw [List.getElem?_append_left hlt]
      · rw [List.getElem?_append_right (by omega), List.getElem?_eq_none (by omega)]
        cases i - l.keys.length <;> simp [Ne.symm hx]
  numbered := KeyMap.nodup_insert hl.numbered
  distinct := hl.distinct
  placed x u v h := by
    obtain ⟨i, hi⟩ := hl.placed x u v h
    show ∃ i, (l.positions.insert k l.keys.length).lookup x = some i
    rw [KeyMap.lookup_insert]
    split
    · exact ⟨_, rfl⟩
    · exact ⟨i, hi⟩
  entry := hl.entry

theorem compact_keys_subset (l : Layout) : l.compact.keys ⊆ l.keys := List.filter_subset_self _

theorem Kept.place (hl : Kept l) (hk : k ∉ l.keys) : Kept (l.place k) := by
  obtain ⟨l₀, hl₀, hplace⟩ := place_cases l k
  rw [hplace]
  rcases hl₀ with ⟨rfl, _⟩ | rfl
  · exact hl.append hk
  · exact hl.compact.append fun h => hk (compact_keys_subset l h)

/-- An entry under a key that has a position. -/
theorem Kept.insert (hl : Kept l) (hk : k ∈ l.keys) (hw : w.key = .ok k) (hv : v ≠ .nil) :
    Kept { l with entries := l.entries.insert k (w.kept, v) } where
  nodup := hl.nodup
  positions := hl.positions
  numbered := hl.numbered
  distinct := KeyMap.nodup_insert hl.distinct
  placed x u z h := by
    have h' : (l.entries.insert k (w.kept, v)).lookup x = some (u, z) := h
    rw [KeyMap.lookup_insert] at h'
    split at h'
    · rename_i hx
      rw [hx]
      exact Option.isSome_iff_exists.mp (hl.position_iff.mpr hk)
    · exact hl.placed x u z h'
  entry x u z h := by
    have h' : (l.entries.insert k (w.kept, v)).lookup x = some (u, z) := h
    rw [KeyMap.lookup_insert] at h'
    split at h'
    · rename_i hx
      cases h'
      rw [hx]
      exact ⟨hv, Value.key_kept hw, fun _ => Value.kept_fraction⟩
    · exact hl.entry x u z h'

theorem Kept.erase (hl : Kept l) (k : Key) : Kept { l with entries := l.entries.erase k } := by
  have hdistinct : ((l.entries.erase k).map (·.1)).Nodup :=
    hl.distinct.sublist (List.filter_sublist.map _)
  have hfound : ∀ x e, (l.entries.erase k).lookup x = some e → l.entries.lookup x = some e := by
    intro x e h
    rw [KeyMap.lookup_iff hdistinct] at h
    exact (KeyMap.lookup_iff hl.distinct).mpr (List.mem_filter.mp h).1
  exact ⟨hl.nodup, hl.positions, hl.numbered, hdistinct,
    fun x u v h => hl.placed x u v (hfound x _ h), fun x u v h => hl.entry x u v (hfound x _ h)⟩

/-- What a store does: the entry goes, or takes its place under a key that has a
position, or under one that has been given one. -/
theorem set_cases (h : l.set w v = .ok l') : ∃ k, w.key = .ok k
    ∧ (v = .nil ∧ l' = { l with entries := l.entries.erase k }
      ∨ v ≠ .nil ∧ ∃ l₀, ((l.positions.lookup k).isSome = true ∧ l₀ = l
          ∨ l.positions.lookup k = none ∧ l₀ = l.place k)
        ∧ l' = { l₀ with entries := l₀.entries.insert k (w.kept, v) }) := by
  unfold set at h
  cases hkey : w.key with
  | error f =>
      rw [hkey] at h
      cases h
  | ok k =>
      rw [hkey] at h
      dsimp only at h
      refine ⟨k, rfl, ?_⟩
      by_cases hv : v = .nil
      · rw [if_pos hv] at h
        exact Or.inl ⟨hv, (Except.ok.inj h).symm⟩
      · rw [if_neg hv] at h
        refine Or.inr ⟨hv, _, ?_, (Except.ok.inj h).symm⟩
        by_cases hk : (l.positions.lookup k).isSome = true
        · exact Or.inl ⟨hk, if_pos hk⟩
        · exact Or.inr ⟨Option.not_isSome_iff_eq_none.mp hk, if_neg hk⟩

theorem mem_place (l : Layout) (k : Key) : k ∈ (l.place k).keys := by
  obtain ⟨l₀, -, hplace⟩ := place_cases l k
  rw [hplace]
  simp

theorem Kept.not_mem (hl : Kept l) (hk : l.positions.lookup k = none) : k ∉ l.keys := by
  intro hmem
  have hsome := hl.position_iff.mpr hmem
  rw [hk] at hsome
  cases hsome

/-- Each store keeps the structures in agreement. -/
theorem Kept.set (hl : Kept l) (h : l.set w v = .ok l') : Kept l' := by
  obtain ⟨k, hkey, ⟨-, rfl⟩ | ⟨hv, l₀, hcases, rfl⟩⟩ := set_cases h
  · exact hl.erase k
  · rcases hcases with ⟨hk, rfl⟩ | ⟨hk, rfl⟩
    · exact hl.insert (hl.position_iff.mp hk) hkey hv
    · exact (hl.place (hl.not_mem hk)).insert (mem_place l k) hkey hv

theorem Kept.stored (hl : Kept l) (w v : Value) : Kept (l.stored w v) := by
  unfold Layout.stored
  split
  · rename_i l' h
    exact hl.set h
  · exact hl

theorem Kept.storedThrough (hl : Kept l) (sets : List (Value × Value)) :
    Kept (l.storedThrough sets) := by
  induction sets generalizing l with
  | nil => exact hl
  | cons e sets ih => exact ih (hl.stored e.1 e.2)

/-- When a key has been given a position, there are not many more keys than twice the
entries. -/
theorem Kept.keys_length (hl : Kept l) (hkey : w.key = .ok k) (hv : v ≠ .nil)
    (hk : l.positions.lookup k = none) (h : l.set w v = .ok l') :
    l'.keys.length ≤ 2 * l'.entries.length + 7 := by
  obtain ⟨k', hkey', ⟨hnil, -⟩ | ⟨-, l₀, hcases, rfl⟩⟩ := set_cases h
  · exact absurd hnil hv
  · rw [hkey] at hkey'
    cases hkey'
    rw [hk] at hcases
    rcases hcases with ⟨hsome, -⟩ | ⟨-, rfl⟩
    · cases hsome
    · have hnew : k ∉ l.entries.map (·.1) := fun hmem => hl.not_mem hk (hl.keys_subset hmem)
      have hcompact := hl.compact_keys
      obtain ⟨l₁, hl₁, hplace⟩ := place_cases l k
      rw [hplace]
      show (l₁.keys ++ [k]).length ≤ 2 * (l.entries.insert k (w.kept, v)).length + 7
      rw [KeyMap.insert_new hnew, List.length_append, List.length_append]
      rcases hl₁ with ⟨rfl, hle⟩ | rfl
      · simp only [List.length_singleton]
        omega
      · simp only [List.length_singleton]
        omega

-- ============================================================== traversal

theorem next_at (l : Layout) (hkey : w.key = .ok k) :
    l.next w = match l.positions.lookup k with
      | none => .error .noPosition
      | some i => .ok (l.entryFrom (i + 1)) := by
  have hw : w ≠ .nil := by
    intro hw
    subst hw
    cases hkey
  cases hl : l.positions.lookup k <;> simp [next, hw, hkey, hl]

/-- What a traversal returns is an entry. -/
theorem next_mem (h : l.next w = .ok (some (u, v))) : ∃ k, l.entries.lookup k = some (u, v) := by
  have hfrom : ∀ i, l.entryFrom i = some (u, v) → ∃ k, l.entries.lookup k = some (u, v) := by
    intro i hi
    obtain ⟨k, -, hk⟩ := List.exists_of_findSome?_eq_some hi
    exact ⟨k, hk⟩
  by_cases hw : w = .nil
  · unfold next at h
    rw [if_pos hw] at h
    exact hfrom 0 (Except.ok.inj h)
  · cases hkey : w.key with
    | error f =>
        unfold next at h
        rw [if_neg hw, hkey] at h
        cases h
    | ok k =>
        rw [next_at l hkey] at h
        cases hk : l.positions.lookup k with
        | none =>
            rw [hk] at h
            cases h
        | some i =>
            rw [hk] at h
            exact hfrom _ (Except.ok.inj h)

-- ============================================================== the table

theorem find?_table (l : Layout) (k : Key) :
    l.table.find? k = (l.entries.lookup k).map (·.2) := by
  unfold Table.find? table
  dsimp only
  induction l.entries with
  | nil => rfl
  | cons e d ih =>
      rw [List.map_cons, List.find?_cons, KeyMap.lookup_cons]
      by_cases h : k = e.1
      · simp [h]
      · rw [if_neg h, ← ih, beq_false_of_ne (Ne.symm h)]

theorem has_table (l : Layout) (k : Key) : l.table.has k = (l.entries.lookup k).isSome := by
  unfold Table.has
  rw [find?_table, Option.isSome_map]

theorem table_insert (d : KeyMap (Value × Value)) (k : Key) (u v : Value) :
    (d.insert k (u, v)).map (fun e => (e.1, e.2.2))
      = Table.putEntry k v (d.map fun e => (e.1, e.2.2)) := by
  induction d with
  | nil => rfl
  | cons e d ih =>
      rw [List.map_cons]
      unfold KeyMap.insert Table.putEntry
      by_cases h : e.1 = k
      · rw [if_pos h, if_pos h, List.map_cons]
      · rw [if_neg h, if_neg h, List.map_cons, ih]

theorem table_compact (l : Layout) : l.compact.table = l.table.compact := by
  have horder : (l.keys.filter fun k => (l.entries.lookup k).isSome) = l.keys.filter l.table.has :=
    List.filter_congr fun k _ => (has_table l k).symm
  exact congrArg (Table.mk l.table.entries) horder

/-- A key that has a position keeps it, and a new one gets the same. -/
theorem table_position (hl : Kept l) (k : Key) : l.table.position k
    = (if (l.positions.lookup k).isSome then l else l.place k).table := by
  have hcontains : l.table.order.contains k = (l.positions.lookup k).isSome := by
    rw [Bool.eq_iff_iff, List.contains_iff_mem, hl.position_iff]
    rfl
  have hsize : l.table.size = l.entries.length := List.length_map ..
  unfold Table.position
  rw [hcontains, hsize]
  by_cases hk : (l.positions.lookup k).isSome = true
  · rw [if_pos hk, if_pos hk]
  · rw [if_neg hk, if_neg hk, ← table_compact]
    unfold place
    have horder : l.table.order = l.keys := rfl
    rw [horder]
    by_cases hlong : 2 * l.entries.length + 8 < l.keys.length
    · rw [if_pos hlong, if_pos hlong]
      rfl
    · rw [if_neg hlong, if_neg hlong]
      rfl

/-- Storing in the structures is storing in the table. -/
theorem table_stored (hl : Kept l) (w v : Value) : (l.stored w v).table = l.table.stored w v := by
  unfold stored Table.stored set Table.set
  cases w.key with
  | error f => rfl
  | ok k =>
      dsimp only
      by_cases hv : v = .nil
      · rw [if_pos hv, if_pos hv]
        unfold table Table.erase KeyMap.erase
        dsimp only
        rw [List.filter_map]
        rfl
      · rw [if_neg hv, if_neg hv]
        unfold Table.put
        rw [table_position hl k]
        exact congrArg (Table.mk · _) (table_insert _ k _ v)

theorem table_storedThrough (hl : Kept l) (sets : List (Value × Value)) :
    (l.storedThrough sets).table = l.table.storedThrough sets := by
  induction sets generalizing l with
  | nil => rfl
  | cons e sets ih =>
      unfold storedThrough Table.storedThrough
      rw [ih (hl.stored e.1 e.2), table_stored hl]

theorem firstEntry_table (hl : Kept l) (ks : List Key) :
    (ks.findSome? fun k => l.entries.lookup k).map (fun e => (e.1.key, e.2))
      = (l.table.firstEntry ks).map fun e => (.ok e.1, e.2) := by
  induction ks with
  | nil => rfl
  | cons k ks ih =>
      unfold Table.firstEntry
      rw [List.findSome?_cons, find?_table]
      cases hk : l.entries.lookup k with
      | none => exact ih
      | some e =>
          have hkey := (hl.entry k e.1 e.2 hk).2.1
          show some (e.1.key, e.2) = some (.ok k, e.2)
          rw [hkey]

theorem Kept.position_eq (hl : Kept l) (k : Key) : l.positions.lookup k = l.keys.idxOf? k := by
  by_cases hk : k ∈ l.keys
  · obtain ⟨p, q, hsplit⟩ := List.append_of_mem hk
    have hnew : k ∉ p := by
      intro hp
      have hnodup := hl.nodup
      rw [hsplit] at hnodup
      exact (List.nodup_append.mp hnodup).2.2 k hp k (List.mem_cons_self ..) rfl
    rw [hsplit, Table.idxOf?_new hnew, hl.positions, hsplit]
    simp
  · rw [List.idxOf?_eq_none_iff.mpr hk]
    exact Option.not_isSome_iff_eq_none.mp fun h => hk (hl.position_iff.mp h)

/-- Traversing the structures is traversing the table. -/
theorem table_next (hl : Kept l) (w : Value) :
    (l.next w).map (Option.map fun e => (e.1.key, e.2))
      = (l.table.next w).map (Option.map fun e => (.ok e.1, e.2)) := by
  by_cases hw : w = .nil
  · unfold next Table.next
    rw [if_pos hw, if_pos hw]
    exact congrArg Except.ok (firstEntry_table hl l.keys)
  · unfold next Table.next
    rw [if_neg hw, if_neg hw]
    cases w.key with
    | error f => rfl
    | ok k =>
        dsimp only
        rw [hl.position_eq k]
        show _ = Except.map _ (match l.keys.idxOf? k with
          | none => _
          | some i => _)
        cases l.keys.idxOf? k with
        | none => rfl
        | some i => exact congrArg Except.ok (firstEntry_table hl (l.keys.drop (i + 1)))

-- =============================================================== histories

/-- Whatever has been stored in an empty layout, and whether or not it could be, the
three structures agree. Every key that a traversal returns has a position, and the
traversal can go on from it after any further stores, as long as it has one. When a key
has been given a position there are at most `2 * n + 7` keys for `n` entries. And what
is kept so is the table that the same stores make of an empty one: a traversal answers
as there, with the key as it was given. -/
theorem kept_storedThrough (sets : List (Value × Value)) (l : Layout)
    (hl : l = empty.storedThrough sets) :
    Kept l
      ∧ (∀ w u v, l.next w = .ok (some (u, v)) → ∃ k, u.key = .ok k ∧ k ∈ l.keys
          ∧ ∀ later i, (l.storedThrough later).positions.lookup k = some i →
              (l.storedThrough later).next u = .ok ((l.storedThrough later).entryFrom (i + 1)))
      ∧ (∀ w v k l', w.key = .ok k → v ≠ .nil → l.positions.lookup k = none →
          l.set w v = .ok l' → l'.keys.length ≤ 2 * l'.entries.length + 7)
      ∧ l.table = Table.empty.storedThrough sets
      ∧ ∀ w, (l.next w).map (Option.map fun e => (e.1.key, e.2))
          = (l.table.next w).map (Option.map fun e => (.ok e.1, e.2)) := by
  have hkept : Kept l := by
    rw [hl]
    exact kept_empty.storedThrough sets
  refine ⟨hkept, fun w u v h => ?_, fun w v k l' => hkept.keys_length, ?_, table_next hkept⟩
  · obtain ⟨k, hentry⟩ := next_mem h
    obtain ⟨-, hkey, -⟩ := hkept.entry k u v hentry
    have hplaced := Option.isSome_iff_exists.mpr (hkept.placed k u v hentry)
    refine ⟨k, hkey, hkept.position_iff.mp hplaced, fun later i hi => ?_⟩
    rw [next_at _ hkey, hi]
  · rw [hl]
    exact table_storedThrough kept_empty sets

/-- Eight integer keys, taken away again as floats; what is stored under NaN and nil is
refused. -/
def emptied : List (Value × Value) :=
  (List.range 8).map (fun i => (.int i, .bool true))
    ++ (List.range 8).map (fun i => (.float (.ofInt i), .nil))
    ++ [(.float (.nan false), .bool true), (.nil, .bool true)]

/-- All eight keys keep their positions, and with a ninth there are as many keys as there
may be. -/
theorem kept_storedThrough_emptied :
    ((empty.storedThrough emptied).keys.length = 8
        ∧ (empty.storedThrough emptied).next .nil = .ok none)
      ∧ ∃ l', (empty.storedThrough emptied).set (.str [97]) (.bool true) = .ok l'
          ∧ 9 ≤ l'.keys.length ∧ l'.keys.length ≤ 2 * l'.entries.length + 7 := by
  obtain ⟨-, -, hlength, -⟩ := kept_storedThrough emptied _ rfl
  obtain ⟨l', hset, hkeys⟩ : ∃ l',
      (empty.storedThrough emptied).set (.str [97]) (.bool true) = .ok l' ∧ 9 ≤ l'.keys.length :=
    ⟨_, rfl, by decide +kernel⟩
  refine ⟨by decide +kernel, l', hset, hkeys, ?_⟩
  exact hlength _ _ _ l' rfl (by decide) (by decide +kernel) hset

end Layout

end StackBridge
