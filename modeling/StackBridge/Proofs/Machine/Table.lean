import Mathlib.Data.List.Perm.Subperm
import Mathlib.Data.List.Nodup
import StackBridge.Machine.Table

/-!
What tables hold: the entry under a key after one has been stored, whatever
happens to the positions meanwhile, and the border, whose successor is never
a key.
-/

namespace StackBridge

namespace Table

variable {t : Table} {k k' : Key} {v : Value}

-- ============================================================== storing

theorem find?_putEntry (es : List (Key × Value)) (k k' : Key) (v : Value) :
    ((putEntry k v es).find? (·.1 == k')).map (·.2) =
      if k' = k then some v else (es.find? (·.1 == k')).map (·.2) := by
  induction es with
  | nil =>
      by_cases h : k' = k
      · subst h
        simp [putEntry]
      · simp [putEntry, h, Ne.symm h]
  | cons e es ih =>
      unfold putEntry
      by_cases he : e.1 = k
      · rw [if_pos he]
        by_cases h : k' = k
        · subst h
          simp
        · have hk : (k == k') = false := beq_false_of_ne (Ne.symm h)
          have hek : (e.1 == k') = false := by rw [he]; exact hk
          simp only [List.find?_cons, hk, hek, if_neg h]
      · rw [if_neg he]
        by_cases h : e.1 = k'
        · have hk : k' ≠ k := fun hk => he (h.trans hk)
          simp [h, hk]
        · have hek : (e.1 == k') = false := beq_false_of_ne h
          simp only [List.find?_cons, hek, ih]

@[simp] theorem position_entries (t : Table) (k : Key) : (t.position k).entries = t.entries := by
  unfold position
  split
  · rfl
  · dsimp only
    split <;> rfl

/-- A stored value is found under its key; under the others nothing has
changed. -/
theorem find?_put (t : Table) (k k' : Key) (v : Value) :
    (t.put k v).find? k' = if k' = k then some v else t.find? k' := by
  unfold find? put
  dsimp only
  rw [position_entries]
  exact find?_putEntry t.entries k k' v

/-- A removed entry is not found any more; under the other keys nothing has
changed. -/
theorem find?_erase {x : Key} : (t.erase k).find? x = if x = k then none else t.find? x := by
  unfold find? erase
  dsimp only
  rw [List.find?_filter]
  by_cases hx : x = k
  · subst hx
    rw [if_pos rfl]
    simp
  · rw [if_neg hx]
    congr 2
    funext e
    by_cases he : e.1 = x
    · simp [he, hx]
    · simp [he]

theorem has_erase {x : Key} : (t.erase k).has x = true ↔ x ≠ k ∧ t.has x = true := by
  unfold has
  rw [find?_erase]
  by_cases hx : x = k <;> simp [hx]

theorem mem_of_mem_putEntry {es : List (Key × Value)} {k : Key} {v : Value} {e : Key × Value}
    (h : e ∈ putEntry k v es) : e = (k, v) ∨ e ∈ es := by
  induction es with
  | nil => exact Or.inl (List.mem_singleton.mp h)
  | cons d es ih =>
      unfold putEntry at h
      by_cases hd : d.1 = k
      · rw [if_pos hd] at h
        exact (List.mem_cons.mp h).imp_right (List.mem_cons_of_mem d)
      · rw [if_neg hd] at h
        rcases List.mem_cons.mp h with rfl | hmem
        · exact Or.inr (List.mem_cons_self ..)
        · exact (ih hmem).imp_right (List.mem_cons_of_mem d)

/-- Storing adds no entry but the one that is stored, and no nil. -/
theorem mem_of_mem_set {t t' : Table} {w v : Value} {e : Key × Value} (h : t.set w v = .ok t')
    (he : e ∈ t'.entries) : e ∈ t.entries ∨ v ≠ .nil ∧ ∃ k, w.key = .ok k ∧ e = (k, v) := by
  unfold set at h
  cases hkey : w.key with
  | error f =>
      rw [hkey] at h
      cases h
  | ok k =>
      rw [hkey] at h
      dsimp only at h
      by_cases hv : v = .nil
      · rw [if_pos hv] at h
        cases h
        exact Or.inl (List.mem_filter.mp he).1
      · rw [if_neg hv] at h
        cases h
        have he' : e ∈ putEntry k v (t.position k).entries := he
        rw [position_entries] at he'
        exact (mem_of_mem_putEntry he').symm.imp_right fun heq => ⟨hv, k, rfl, heq⟩

-- =============================================================== border

theorem has_iff : t.has k = true ↔ k ∈ t.entries.map (·.1) := by
  unfold has find?
  rw [Option.isSome_map, List.find?_isSome]
  simp

/-- The border search stops where the next number is no key, or has seen as
many keys as it had steps. -/
theorem borderFrom_spec (t : Table) (n fuel : Nat) :
    t.has (.int (t.borderFrom n fuel + 1)) = false
      ∨ t.borderFrom n fuel = n + fuel ∧ ∀ i, n < i → i ≤ n + fuel → t.has (.int i) = true := by
  induction fuel generalizing n with
  | zero => exact Or.inr ⟨rfl, fun i h h' => by omega⟩
  | succ fuel ih =>
      unfold borderFrom
      by_cases h : t.has (.int (n + 1)) = true
      · rw [if_pos h]
        rcases ih (n + 1) with hnone | ⟨heq, hall⟩
        · exact Or.inl hnone
        · refine Or.inr ⟨by omega, fun i hi hi' => ?_⟩
          by_cases hn : i = n + 1
          · rw [hn]
            exact h
          · exact hall i (by omega) (by omega)
      · rw [if_neg h]
        exact Or.inl (Bool.eq_false_iff.mpr h)

/-- Every number up to where the border search stops is a key. -/
theorem has_of_le_borderFrom {t : Table} {n fuel : Nat} {i : Int} (hn : n < i)
    (hi : i ≤ t.borderFrom n fuel) : t.has (.int i) = true := by
  induction fuel generalizing n with
  | zero =>
      unfold borderFrom at hi
      omega
  | succ fuel ih =>
      unfold borderFrom at hi
      by_cases h : t.has (.int (n + 1)) = true
      · rw [if_pos h] at hi
        by_cases heq : i = n + 1
        · rw [heq]
          exact h
        · exact ih (by omega) hi
      · rw [if_neg h] at hi
        omega

/-- The values under the numbers up to the border. -/
def elements (t : Table) : List Value :=
  (List.range t.length).map fun i : Nat => t.get (.int ((i : Int) + 1))

@[simp] theorem elements_length (t : Table) : t.elements.length = t.length := by
  simp [elements]

/-- There is an entry for each element. -/
theorem find?_element {t : Table} {i : Nat} {w : Value} (h : t.elements[i]? = some w) :
    t.find? (.int ((i : Int) + 1)) = some w := by
  obtain ⟨hi, heq⟩ := List.getElem?_eq_some_iff.mp h
  rw [elements_length] at hi
  have hborder : ((i : Int) + 1) ≤ t.borderFrom 0 t.size := Int.ofNat_lt.mpr hi
  have hhas : t.has (.int ((i : Int) + 1)) = true := has_of_le_borderFrom (by omega) hborder
  obtain ⟨v, hv⟩ := Option.isSome_iff_exists.mp hhas
  have hget : t.get (.int ((i : Int) + 1)) = v := by
    show (t.find? _).getD .nil = v
    rw [hv]
    rfl
  rw [hv, ← hget, ← heq]
  simp [elements]

/-- The successor of the border is no key: otherwise there would be more keys
than entries. -/
theorem has_length_succ (t : Table) : t.has (.int (t.length + 1)) = false := by
  rcases borderFrom_spec t 0 t.size with hnone | ⟨heq, hall⟩
  · exact hnone
  · by_contra hsome
    have hlast : t.has (.int (t.size + 1)) = true := by
      have h := Bool.of_not_eq_false hsome
      unfold length at h
      rw [heq, Nat.zero_add] at h
      exact h
    let keys : List Key := (List.range (t.size + 1)).map fun i : Nat => .int ((i : Int) + 1)
    have hnodup : keys.Nodup := by
      refine List.Nodup.map ?_ List.nodup_range
      intro i j hij
      have h : (i : Int) + 1 = (j : Int) + 1 := Key.int.inj hij
      omega
    have hsub : keys ⊆ t.entries.map (·.1) := by
      intro key hkey
      obtain ⟨i, hi, rfl⟩ := List.mem_map.mp hkey
      have hi' : i < t.size + 1 := List.mem_range.mp hi
      by_cases hn : i = t.size
      · subst hn
        exact has_iff.mp hlast
      · exact has_iff.mp (hall (i + 1) (by omega) (by omega))
    have hlen := hnodup.length_le_of_subset hsub
    simp only [keys, size, List.length_map, List.length_range] at hlen
    omega

end Table

end StackBridge
