import StackBridge.Proofs.Machine.Entries

/-!
Traversing a table while it gains entries.

A traversal goes from key to key along the order of the table, and between two
steps new keys may have been stored. What keeps it on course is that the keys
with an entry stay in order (`live_sublist_put`): a new key takes a place of its
own, and dropping the positions of absent keys moves none of the others. So the
keys that are still ahead after a step are those that were, but for the one that
it has reached (`next_reaches`), and when a step reaches none, none is left out
(`next_ends`). That a key is behind another is said by the two of them being a
sublist of the keys.
-/

namespace StackBridge

/-- A key, as a value, addresses what it is the key of. -/
theorem Key.value_key {v : Value} {key : Key} (h : v.key = .ok key) :
    key.value.key = .ok key := by
  have hfloat : ∀ x : Double, Key.ofFloat x = .ok key → key.value.key = .ok key := by
    intro x hx
    have huntagged : Key.ofFloat x.untagged = Key.ofFloat x := rfl
    have hx' := hx
    unfold Key.ofFloat at hx'
    split at hx'
    · cases hx'
    · split at hx'
      · cases hx'
        rfl
      · cases hx'
        exact huntagged.trans hx
  cases v with
  | nil => cases h
  | float x => exact hfloat x h
  | guest id role =>
      cases role with
      | float x => exact hfloat x h
      | stray name => cases h
      | int n => cases h; rfl
      | str b => cases h; rfl
  | bool b => cases h; rfl
  | int n => cases h; rfl
  | str b => cases h; rfl
  | table id => cases h; rfl
  | function id => cases h; rfl
  | userdata id => cases h; rfl

namespace Table

variable {t t' : Table} {k key x : Key} {v : Value}

/-- The keys that have an entry, in the order of traversal. -/
def live (t : Table) : List Key := t.order.filter t.has

/-- Every key has one position, and as a value addresses itself. -/
structure WellKept (t : Table) : Prop where
  nodup : t.order.Nodup
  placed : ∀ k, t.has k = true → k ∈ t.order
  normal : ∀ k ∈ t.order, k.value.key = .ok k

theorem mem_live (hw : WellKept t) : k ∈ t.live ↔ t.has k = true := by
  unfold live
  rw [List.mem_filter]
  exact ⟨fun h => h.2, fun h => ⟨hw.placed k h, h⟩⟩

theorem live_nodup (hw : WellKept t) : t.live.Nodup := hw.nodup.filter _

theorem has_of_find? (h : t.find? k = some v) : t.has k = true := by
  unfold has
  rw [h]
  rfl

-- ================================================================= storing

theorem wellKept_empty : WellKept empty where
  nodup := List.nodup_nil
  placed _ hk := by cases hk
  normal _ hk := by cases hk

theorem has_put : (t.put k v).has x = true ↔ x = k ∨ t.has x = true := by
  unfold has
  rw [find?_put]
  by_cases h : x = k
  · simp [h]
  · simp [h]

theorem has_of_erase (h : (t.erase k).has x = true) : t.has x = true := by
  rw [has_iff] at h ⊢
  obtain ⟨e, he, hx⟩ := List.mem_map.mp h
  exact List.mem_map.mpr ⟨e, (List.mem_filter.mp he).1, hx⟩

/-- Where a key takes a place of its own, the others keep theirs, or at least
those that have an entry. -/
theorem put_order (t : Table) (k : Key) (v : Value) :
    (k ∈ t.order ∧ (t.put k v).order = t.order)
      ∨ k ∉ t.order ∧ ∃ ks, (ks = t.order ∨ ks = t.live) ∧ (t.put k v).order = ks ++ [k] := by
  have hput : (t.put k v).order = (t.position k).order := rfl
  rw [hput]
  unfold position
  by_cases hk : t.order.contains k = true
  · rw [if_pos hk]
    exact Or.inl ⟨List.contains_iff_mem.mp hk, rfl⟩
  · have hmem : k ∉ t.order := fun h => hk (List.contains_iff_mem.mpr h)
    rw [if_neg hk]
    right
    by_cases hlong : 2 * t.size + 8 < t.order.length
    · simp only [if_pos hlong]
      exact ⟨hmem, t.live, Or.inr rfl, rfl⟩
    · simp only [if_neg hlong]
      exact ⟨hmem, t.order, Or.inl rfl, rfl⟩

/-- The keys that have an entry stay in order. -/
theorem live_sublist_put (t : Table) (k : Key) (v : Value) :
    t.live.Sublist (t.put k v).live := by
  have hlive : t.live.Sublist (t.put k v).order := by
    have horder : t.live.Sublist t.order := List.filter_sublist
    rcases put_order t k v with ⟨_, hsame⟩ | ⟨_, ks, rfl | rfl, hnew⟩
    · rw [hsame]
      exact horder
    · rw [hnew]
      exact horder.trans (List.sublist_append_left ..)
    · rw [hnew]
      exact List.sublist_append_left ..
  have hkept : t.live.filter (t.put k v).has = t.live := by
    refine List.filter_eq_self.mpr fun x hx => ?_
    exact has_put.mpr (Or.inr (List.mem_filter.mp hx).2)
  rw [← hkept]
  exact hlive.filter _

theorem WellKept.put (hw : WellKept t) (hk : k.value.key = .ok k) (v : Value) :
    WellKept (t.put k v) := by
  rcases put_order t k v with ⟨hmem, hsame⟩ | ⟨hnew, ks, hks, horder⟩
  · refine ⟨by rw [hsame]; exact hw.nodup, fun x hx => ?_, by rw [hsame]; exact hw.normal⟩
    rw [hsame]
    rcases has_put.mp hx with rfl | hx
    · exact hmem
    · exact hw.placed x hx
  · have hsub : ks.Sublist t.order := by
      rcases hks with rfl | rfl
      · exact List.Sublist.refl _
      · exact List.filter_sublist
    have hplaced : ∀ x, t.has x = true → x ∈ ks := by
      intro x hx
      rcases hks with rfl | rfl
      · exact hw.placed x hx
      · exact (mem_live hw).mpr hx
    refine ⟨?_, fun x hx => ?_, fun x hx => ?_⟩
    · rw [horder, List.nodup_append]
      refine ⟨hw.nodup.sublist hsub, List.nodup_singleton k, fun a ha b hb => ?_⟩
      rw [List.mem_singleton.mp hb]
      rintro rfl
      exact hnew (hsub.subset ha)
    · rw [horder, List.mem_append, List.mem_singleton]
      rcases has_put.mp hx with rfl | hx
      · exact Or.inr rfl
      · exact Or.inl (hplaced x hx)
    · rw [horder, List.mem_append, List.mem_singleton] at hx
      rcases hx with hx | rfl
      · exact hw.normal x (hsub.subset hx)
      · exact hk

theorem WellKept.erase (hw : WellKept t) (k : Key) : WellKept (t.erase k) :=
  ⟨hw.nodup, fun x hx => hw.placed x (has_of_erase hx), hw.normal⟩

theorem WellKept.set {w : Value} (hw : WellKept t) (h : t.set w v = .ok t') : WellKept t' := by
  unfold Table.set at h
  cases hkey : w.key with
  | error f =>
      rw [hkey] at h
      cases h
  | ok k =>
      rw [hkey] at h
      dsimp only at h
      by_cases hv : v = .nil
      · rw [if_pos hv] at h
        cases h
        exact hw.erase k
      · rw [if_neg hv] at h
        cases h
        exact hw.put (Key.value_key hkey) v

-- =============================================================== traversal

theorem firstEntry_none {ks : List Key} (h : t.firstEntry ks = none) : ks.filter t.has = [] := by
  induction ks with
  | nil => rfl
  | cons k ks ih =>
      unfold firstEntry at h
      cases hk : t.find? k with
      | some v =>
          rw [hk] at h
          cases h
      | none =>
          rw [hk] at h
          have habsent : ¬ t.has k = true := by
            unfold has
            rw [hk]
            exact Bool.false_ne_true
          rw [List.filter_cons_of_neg habsent]
          exact ih h

theorem firstEntry_some {ks : List Key} (h : t.firstEntry ks = some (key, v)) :
    t.find? key = some v ∧ ∃ rest, ks.filter t.has = key :: rest := by
  induction ks with
  | nil => cases h
  | cons k ks ih =>
      unfold firstEntry at h
      cases hk : t.find? k with
      | some w =>
          rw [hk] at h
          cases h
          exact ⟨hk, ks.filter t.has, List.filter_cons_of_pos (has_of_find? hk)⟩
      | none =>
          rw [hk] at h
          obtain ⟨hfind, rest, hrest⟩ := ih h
          have habsent : ¬ t.has k = true := by
            unfold has
            rw [hk]
            exact Bool.false_ne_true
          rw [List.filter_cons_of_neg habsent]
          exact ⟨hfind, rest, hrest⟩

/-- The entries along a list of positions. -/
def along (t : Table) (ks : List Key) : List (Key × Value) :=
  ks.filterMap fun k => (t.find? k).map (k, ·)

theorem firstEntry_eq (t : Table) (ks : List Key) : t.firstEntry ks = (t.along ks).head? := by
  induction ks with
  | nil => rfl
  | cons k ks ih =>
      unfold firstEntry along
      rw [List.filterMap_cons]
      cases t.find? k with
      | some v => rfl
      | none => exact ih

/-- Behind the first entry along some positions come the others. -/
theorem along_cons {ks : List Key} {e : Key × Value} {es : List (Key × Value)}
    (h : t.along ks = e :: es) : ∃ p q, ks = p ++ e.1 :: q ∧ t.along q = es := by
  induction ks with
  | nil => cases h
  | cons k ks ih =>
      unfold along at h
      rw [List.filterMap_cons] at h
      cases hk : t.find? k with
      | some v =>
          rw [hk] at h
          cases h
          exact ⟨[], ks, rfl, rfl⟩
      | none =>
          rw [hk] at h
          obtain ⟨p, q, rfl, hq⟩ := ih h
          exact ⟨k :: p, q, rfl, hq⟩

/-- What stands behind a member of a list that has it once. -/
theorem mem_of_pair_sublist {p q : List Key} (hnodup : (p ++ k :: q).Nodup)
    (h : [k, x].Sublist (p ++ k :: q)) : x ∈ q := by
  induction p with
  | nil =>
      cases h with
      | cons _ h =>
          have hk : k ∈ q := h.subset (List.mem_cons_self ..)
          exact absurd hk (List.nodup_cons.mp hnodup).1
      | cons_cons _ h => exact List.singleton_sublist.mp h
  | cons a p ih =>
      have hnodup' := List.nodup_cons.mp hnodup
      cases h with
      | cons _ h => exact ih hnodup'.2 h
      | cons_cons _ _ => exact absurd (List.mem_append_right p (List.mem_cons_self ..)) hnodup'.1

/-- What stands before a member of a list that has it once. -/
theorem mem_of_sublist_pair {p q : List Key} (hnodup : (p ++ k :: q).Nodup)
    (h : [x, k].Sublist (p ++ k :: q)) : x ∈ p := by
  induction p with
  | nil =>
      have hk : k ∈ q := by
        cases h with
        | cons _ h => exact h.subset (by simp)
        | cons_cons _ h => exact List.singleton_sublist.mp h
      exact absurd hk (List.nodup_cons.mp hnodup).1
  | cons a p ih =>
      cases h with
      | cons _ h => exact List.mem_cons_of_mem a (ih (List.nodup_cons.mp hnodup).2 h)
      | cons_cons _ _ => exact List.mem_cons_self ..

/-- The value that a traversal goes on from: its last key, or nil before the
first one. -/
def cursor (last : Option Key) : Value := last.elim .nil Key.value

/-- A step looks along the positions behind the key that it goes on from, the first
one along all of them. -/
theorem next_split (hw : WellKept t) {last : Option Key} {p q : List Key}
    (hsplit : t.order = p ++ (last.toList ++ q)) (hp : last = none → p = []) :
    t.next (cursor last) = .ok (t.firstEntry q) := by
  cases last with
  | none =>
      rw [hp rfl] at hsplit
      show Except.ok (t.firstEntry t.order) = _
      rw [hsplit]
      rfl
  | some k =>
      have hsplit' : t.order = p ++ k :: q := hsplit
      have hnodup := hw.nodup
      rw [hsplit'] at hnodup
      have hnew : k ∉ p := fun h =>
        (List.nodup_append.mp hnodup).2.2 k h k (List.mem_cons_self ..) rfl
      have hmem : k ∈ t.order := by
        rw [hsplit']
        exact List.mem_append_right p (List.mem_cons_self ..)
      have hnil : k.value ≠ .nil := by cases k <;> exact Value.noConfusion
      have hdrop : (p ++ k :: q).drop (p.length + 1) = q := by
        rw [List.append_cons]
        exact List.drop_left' (by simp)
      show t.next k.value = _
      unfold next
      rw [if_neg hnil, hw.normal k hmem]
      dsimp only
      rw [hsplit', idxOf?_new hnew]
      dsimp only
      rw [hdrop]

/-- A key with a position has positions behind it. -/
theorem next_from (hw : WellKept t) {last : Option Key} (hlast : ∀ k ∈ last, k ∈ t.order) :
    ∃ p q, t.order = p ++ (last.toList ++ q) ∧ (last = none → p = [])
      ∧ t.next (cursor last) = .ok (t.firstEntry q) := by
  cases last with
  | none => exact ⟨[], t.order, rfl, fun _ => rfl, rfl⟩
  | some k =>
      obtain ⟨p, q, hsplit⟩ := List.append_of_mem (hlast k rfl)
      have hp : some k = none → p = [] := fun h => (Option.some_ne_none k h).elim
      have hsplit' : t.order = p ++ ((some k).toList ++ q) := hsplit
      exact ⟨p, q, hsplit, hp, next_split hw hsplit' hp⟩

/-- A step looks along positions that all keys are at that are still ahead. -/
theorem next_cursor (hw : WellKept t) {last : Option Key}
    (hlast : ∀ k ∈ last, t.has k = true) :
    ∃ ks, t.next (cursor last) = .ok (t.firstEntry ks) ∧ (ks.filter t.has).Sublist t.live
      ∧ ∀ x, (last.toList ++ [x]).Sublist t.live → x ∈ ks.filter t.has := by
  obtain ⟨p, q, hsplit, hp, hnext⟩ := next_from hw fun k hk => hw.placed k (hlast k hk)
  have hlive : t.live = p.filter t.has ++ (last.toList ++ q.filter t.has) := by
    have hkept : last.toList.filter t.has = last.toList :=
      List.filter_eq_self.mpr fun k hk => hlast k (Option.mem_toList.mp hk)
    unfold live
    rw [hsplit, List.filter_append, List.filter_append, hkept]
  refine ⟨q, hnext, ?_, fun x hx => ?_⟩
  · rw [hlive]
    exact (List.sublist_append_right ..).trans (List.sublist_append_right ..)
  · rw [hlive] at hx
    cases last with
    | none =>
        rw [hp rfl] at hx
        exact List.singleton_sublist.mp hx
    | some k =>
        have hnodup := live_nodup hw
        rw [hlive] at hnodup
        exact mem_of_pair_sublist hnodup hx

/-- When a traversal ends no key is ahead. -/
theorem next_ends (hw : WellKept t) {last : Option Key} (hlast : ∀ k ∈ last, t.has k = true)
    (h : t.next (cursor last) = .ok none) : ¬ (last.toList ++ [x]).Sublist t.live := by
  intro hx
  obtain ⟨ks, hnext, _, hahead⟩ := next_cursor hw hlast
  have hfirst : t.firstEntry ks = none := Except.ok.inj (hnext.symm.trans h)
  have hmem := hahead x hx
  rw [firstEntry_none hfirst] at hmem
  cases hmem

/-- A step reaches an entry, and the keys that were ahead are that entry's or
still ahead. -/
theorem next_reaches (hw : WellKept t) {last : Option Key} (hlast : ∀ k ∈ last, t.has k = true)
    (h : t.next (cursor last) = .ok (some (key, v))) :
    t.find? key = some v
      ∧ ∀ x, (last.toList ++ [x]).Sublist t.live → x = key ∨ [key, x].Sublist t.live := by
  obtain ⟨ks, hnext, hsub, hahead⟩ := next_cursor hw hlast
  have hfirst : t.firstEntry ks = some (key, v) := Except.ok.inj (hnext.symm.trans h)
  obtain ⟨hfind, rest, hrest⟩ := firstEntry_some hfirst
  refine ⟨hfind, fun x hx => ?_⟩
  have hmem := hahead x hx
  rw [hrest] at hsub hmem
  rcases List.mem_cons.mp hmem with hkey | hlater
  · exact Or.inl hkey
  · right
    have hpair : [key, x].Sublist (key :: rest) :=
      (List.singleton_sublist.mpr hlater).cons_cons key
    exact hpair.trans hsub

end Table

end StackBridge
