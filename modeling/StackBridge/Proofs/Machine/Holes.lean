import Mathlib.Data.List.TakeWhile
import StackBridge.Proofs.Machine.Entries

/-!
Tables with holes. Storing nil under a new key leaves a table as it is, so when
values are stored in an empty table one after the other, each under a new key,
the ones that are nil leave nothing behind: the table has the entries that are
`present`. When the keys are the numbers from one on, the first value that is
missing is the border, whatever comes after it.
-/

namespace StackBridge

namespace Table

variable {t : Table} {es ps : List (Key × Value)} {ws : List Value} {k : Key} {key w : Value}

/-- Nil under a new key changes nothing. -/
theorem erase_new (hk : k ∉ es.map (·.1)) : (ofEntries es).erase k = ofEntries es := by
  have hall : ∀ e ∈ es, (e.1 != k) = true := by
    intro e he
    exact bne_iff_ne.mpr fun heq => hk (heq ▸ List.mem_map_of_mem he)
  have hkept : es.filter (·.1 != k) = es := List.filter_eq_self.mpr hall
  unfold erase
  rw [ofEntries_entries, hkept]
  rfl

/-- Under different keys, an entry is what is found under its key. -/
theorem find?_ofEntries (hkeys : (es.map (·.1)).Nodup) :
    (ofEntries es).find? k = some w ↔ (k, w) ∈ es := by
  constructor
  · intro h
    obtain ⟨e, he, rfl⟩ := Option.map_eq_some_iff.mp h
    have hkey := List.find?_some (l := es) (a := e) (p := (·.1 == k)) he
    rw [← eq_of_beq hkey]
    exact List.mem_of_find?_eq_some he
  · intro h
    obtain ⟨as, bs, rfl⟩ := List.append_of_mem h
    rw [List.map_append, List.map_cons] at hkeys
    refine find?_entry fun hmem => ?_
    exact (List.nodup_append.mp hkeys).2.2 k hmem k (List.mem_cons_self ..) rfl

-- =============================================================== present

/-- The entries that are there: nil is none. -/
def present (ps : List (Key × Value)) : List (Key × Value) := ps.filter (·.2 ≠ .nil)

theorem present_sublist (ps : List (Key × Value)) :
    ((present ps).map (·.1)).Sublist (ps.map (·.1)) :=
  List.filter_sublist.map _

theorem present_eq_self (h : ∀ p ∈ ps, p.2 ≠ .nil) : present ps = ps :=
  List.filter_eq_self.mpr fun p hp => decide_eq_true (h p hp)

/-- Storing under a new key, be it nil or not. -/
theorem set_present (hkey : key.key = .ok k) (hk : k ∉ ps.map (·.1)) (w : Value) :
    (ofEntries (present ps)).set key w = .ok (ofEntries (present (ps ++ [(k, w)]))) := by
  have hnew : k ∉ (present ps).map (·.1) := fun hmem => hk ((present_sublist ps).mem hmem)
  unfold set
  rw [hkey]
  dsimp only
  unfold present at hnew ⊢
  rw [List.filter_append]
  by_cases hw : w = .nil
  · rw [if_pos hw, erase_new hnew]
    simp [hw]
  · rw [if_neg hw, put_new hnew]
    simp [hw]

/-- Under different keys, what is found are the values that are there. -/
theorem find?_present (hkeys : (ps.map (·.1)).Nodup) :
    (ofEntries (present ps)).find? k = some w ↔ w ≠ .nil ∧ (k, w) ∈ ps := by
  rw [find?_ofEntries (hkeys.sublist (present_sublist ps))]
  unfold present
  rw [List.mem_filter, decide_eq_true_iff, and_comm]

/-- What is fetched under a key, be it nil or not. -/
theorem get_present (hkeys : (ps.map (·.1)).Nodup) (hkey : key.key = .ok k) (hmem : (k, w) ∈ ps) :
    (ofEntries (present ps)).get key = w := by
  have hget : (ofEntries (present ps)).get key = ((ofEntries (present ps)).find? k).getD .nil := by
    unfold get
    rw [hkey]
  rw [hget]
  cases hfind : (ofEntries (present ps)).find? k with
  | some v =>
      obtain ⟨_, hv⟩ := (find?_present hkeys).mp hfind
      exact congrArg Prod.snd (List.inj_on_of_nodup_map hkeys hv hmem rfl)
  | none =>
      by_contra hw
      have hfound := (find?_present hkeys).mpr ⟨Ne.symm hw, hmem⟩
      rw [hfind] at hfound
      cases hfound

-- ================================================================ border

/-- The border is the number up to which all are keys and whose successor is
none. -/
theorem length_eq {n : Nat} (hall : ∀ i : Nat, i < n → t.has (.int ((i : Int) + 1)) = true)
    (hnone : t.has (.int ((n : Int) + 1)) = false) : t.length = n := by
  have hsucc := has_length_succ t
  by_contra hne
  rcases Nat.lt_or_gt_of_ne hne with hlt | hgt
  · rw [hall t.length hlt] at hsucc
    cases hsucc
  · have hborder : (n : Int) + 1 ≤ t.borderFrom 0 t.size := Int.ofNat_lt.mpr hgt
    rw [has_of_le_borderFrom (by omega) hborder] at hnone
    cases hnone

-- ============================================================== numbered

theorem mem_numbered :
    (k, w) ∈ numbered ws ↔ ∃ i : Nat, k = .int ((i : Int) + 1) ∧ ws[i]? = some w := by
  unfold numbered
  rw [List.mem_map]
  constructor
  · rintro ⟨p, hp, heq⟩
    obtain ⟨rfl, rfl⟩ := Prod.mk.inj heq
    exact ⟨p.2, rfl, List.mem_zipIdx_iff_getElem?.mp hp⟩
  · rintro ⟨i, rfl, hi⟩
    exact ⟨(w, i), List.mk_mem_zipIdx_iff_getElem?.mpr hi, rfl⟩

theorem present_numbered (h : ∀ w ∈ ws, w ≠ .nil) : present (numbered ws) = numbered ws := by
  refine present_eq_self fun p hp => h p.2 ?_
  obtain ⟨i, _, hi⟩ := mem_numbered.mp hp
  exact List.mem_of_getElem? hi

/-- No number is there twice. -/
theorem nodup_numbered (ws : List Value) : ((numbered ws).map (·.1)).Nodup := by
  have hkeys : (numbered ws).map (·.1)
      = (List.range' 0 ws.length).map fun i : Nat => Key.int ((i : Int) + 1) := by
    unfold numbered
    rw [List.map_map, ← List.zipIdx_map_snd, List.map_map]
    rfl
  rw [hkeys]
  refine List.Nodup.map ?_ List.nodup_range'
  intro i j hij
  have h : (i : Int) + 1 = (j : Int) + 1 := Key.int.inj hij
  omega

/-- The value that a number is given is found under it, unless it is nil. -/
theorem find?_numbered :
    (ofEntries (present (numbered ws))).find? k = some w
      ↔ w ≠ .nil ∧ ∃ i : Nat, k = .int ((i : Int) + 1) ∧ ws[i]? = some w := by
  rw [find?_present (nodup_numbered ws), mem_numbered]

theorem has_numbered {i : Nat} :
    (ofEntries (present (numbered ws))).has (.int ((i : Int) + 1)) = true
      ↔ ∃ w, w ≠ .nil ∧ ws[i]? = some w := by
  unfold has
  rw [Option.isSome_iff_exists]
  refine exists_congr fun w => ?_
  rw [find?_numbered]
  refine and_congr_right fun _ => ⟨?_, fun hi => ⟨i, rfl, hi⟩⟩
  rintro ⟨j, hij, hj⟩
  have h : (i : Int) + 1 = (j : Int) + 1 := Key.int.inj hij
  obtain rfl : i = j := by omega
  exact hj

/-- The border is where the first value is missing. -/
theorem length_present (ws : List Value) :
    (ofEntries (present (numbered ws))).length = (ws.takeWhile (· ≠ .nil)).length := by
  have hsplit := (List.takeWhile_append_dropWhile (p := (· ≠ Value.nil)) (l := ws)).symm
  have hvalues := List.all_eq_true.mp (List.all_takeWhile (p := (· ≠ Value.nil)) (l := ws))
  have hstop := List.head?_dropWhile_not (· ≠ Value.nil) ws
  generalize ws.takeWhile (· ≠ .nil) = us at hsplit hvalues ⊢
  generalize ws.dropWhile (· ≠ .nil) = vs at hsplit hstop
  subst hsplit
  refine length_eq (fun i hi => has_numbered.mpr ?_) (Bool.eq_false_iff.mpr fun hhas => ?_)
  · refine ⟨us[i], of_decide_eq_true (hvalues _ (List.getElem_mem hi)), ?_⟩
    rw [List.getElem?_append_left hi]
    exact List.getElem?_eq_getElem hi
  · obtain ⟨w, hnil, hw⟩ := has_numbered.mp hhas
    rw [List.getElem?_append_right (Nat.le_refl _), Nat.sub_self, ← List.head?_eq_getElem?] at hw
    rw [hw] at hstop
    exact of_decide_eq_false hstop hnil

end Table

end StackBridge
