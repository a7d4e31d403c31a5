import StackBridge.Proofs.Machine.Table

/-!
Tables that have only gained entries. Such a table is the list of its entries:
a new key goes to its end, the entries numbered from one on have as many as
there are for their border, and traversing the table is walking along it.
-/

namespace StackBridge

namespace Table

variable {es es' : List (Key × Value)} {k : Key} {v : Value}

/-- The table that an empty one becomes when entries are stored one after the
other. -/
def ofEntries (es : List (Key × Value)) : Table := ⟨es, es.map (·.1)⟩

@[simp] theorem ofEntries_entries (es : List (Key × Value)) : (ofEntries es).entries = es := rfl

@[simp] theorem ofEntries_order (es : List (Key × Value)) :
    (ofEntries es).order = es.map (·.1) := rfl

-- ================================================================ storing

theorem putEntry_new (hk : k ∉ es.map (·.1)) : putEntry k v es = es ++ [(k, v)] := by
  induction es with
  | nil => rfl
  | cons e es ih =>
      rw [List.map_cons, List.mem_cons, not_or] at hk
      unfold putEntry
      rw [if_neg (Ne.symm hk.1), ih hk.2, List.cons_append]

/-- A new key goes to the end. -/
theorem put_new (hk : k ∉ es.map (·.1)) : (ofEntries es).put k v = ofEntries (es ++ [(k, v)]) := by
  have hposition : (ofEntries es).position k = ⟨es, es.map (·.1) ++ [k]⟩ := by
    unfold position
    rw [if_neg (by simpa using hk), if_neg (by simp [size]; omega)]
    rfl
  unfold put
  rw [hposition]
  show (⟨putEntry k v es, es.map (·.1) ++ [k]⟩ : Table) = ofEntries (es ++ [(k, v)])
  rw [putEntry_new hk]
  unfold ofEntries
  rw [List.map_append]
  rfl

/-- An entry is found under its key, if none before it has that key. -/
theorem find?_entry (hk : k ∉ es.map (·.1)) :
    (ofEntries (es ++ (k, v) :: es')).find? k = some v := by
  have hnone : es.find? (·.1 == k) = none := by
    rw [List.find?_eq_none]
    intro e he hek
    exact hk (eq_of_beq hek ▸ List.mem_map_of_mem he)
  unfold find?
  rw [ofEntries_entries, List.find?_append, hnone, Option.none_or, List.find?_cons_of_pos]
  · rfl
  · exact beq_self_eq_true k

/-- What a key addresses, for a value that addresses it. -/
theorem get_entry {w : Value} (hw : w.key = .ok k) (hk : k ∉ es.map (·.1)) :
    (ofEntries (es ++ (k, v) :: es')).get w = v := by
  unfold get
  rw [hw]
  show ((ofEntries (es ++ (k, v) :: es')).find? k).getD .nil = v
  rw [find?_entry hk]
  rfl

theorem get_mem {w : Value} {e : Key × Value} (hkeys : (es.map (·.1)).Nodup) (he : e ∈ es)
    (hw : w.key = .ok e.1) : (ofEntries es).get w = e.2 := by
  obtain ⟨as, bs, rfl⟩ := List.append_of_mem he
  rw [List.map_append, List.map_cons] at hkeys
  refine get_entry hw fun hmem => ?_
  exact (List.nodup_append.mp hkeys).2.2 e.1 hmem e.1 (List.mem_cons_self ..) rfl

/-- A key without an entry addresses nil. -/
theorem get_new {w : Value} (hw : w.key = .ok k) (hk : k ∉ es.map (·.1)) :
    (ofEntries es).get w = .nil := by
  have hnone : es.find? (·.1 == k) = none := by
    refine List.find?_eq_none.mpr fun e he hek => hk ?_
    rw [← eq_of_beq hek]
    exact List.mem_map_of_mem he
  unfold get find?
  rw [hw, ofEntries_entries]
  show ((es.find? (·.1 == k)).map (·.2)).getD .nil = .nil
  rw [hnone]
  rfl

-- =============================================================== numbered

/-- Values under the numbers from one on. -/
def numbered (ws : List Value) : List (Key × Value) :=
  ws.zipIdx.map fun p => (.int ((p.2 : Int) + 1), p.1)

@[simp] theorem numbered_length (ws : List Value) : (numbered ws).length = ws.length := by
  simp [numbered]

theorem numbered_append (ws us : List Value) :
    numbered (ws ++ us)
      = numbered ws ++ (us.zipIdx ws.length).map fun p => (.int ((p.2 : Int) + 1), p.1) := by
  unfold numbered
  rw [List.zipIdx_append, List.map_append, Nat.zero_add]

/-- One more value has the next number. -/
theorem numbered_concat (ws : List Value) (w : Value) :
    numbered (ws ++ [w]) = numbered ws ++ [(.int ((ws.length : Int) + 1), w)] :=
  numbered_append ws [w]

/-- The next number is none of those that are taken. -/
theorem not_mem_numbered (ws : List Value) :
    Key.int ((ws.length : Int) + 1) ∉ (numbered ws).map (·.1) := by
  intro hmem
  obtain ⟨e, he, hkey⟩ := List.mem_map.mp hmem
  obtain ⟨p, hp, rfl⟩ := List.mem_map.mp he
  have hlt : p.2 < ws.length := by simpa using List.snd_lt_of_mem_zipIdx hp
  have heq : (p.2 : Int) + 1 = (ws.length : Int) + 1 := Key.int.inj hkey
  omega

/-- The value under a number. -/
theorem get_numbered (ws us : List Value) (w : Value) :
    (ofEntries (numbered (ws ++ w :: us))).get (.int ((ws.length : Int) + 1)) = w := by
  rw [numbered_append, List.zipIdx_cons, List.map_cons]
  exact get_entry rfl (not_mem_numbered ws)

/-- The border search goes on as long as there are keys and steps. -/
theorem borderFrom_all {t : Table} {n fuel : Nat}
    (h : ∀ i : Nat, n ≤ i → i < n + fuel → t.has (.int ((i : Int) + 1)) = true) :
    t.borderFrom n fuel = n + fuel := by
  induction fuel generalizing n with
  | zero => rfl
  | succ fuel ih =>
      unfold borderFrom
      rw [if_pos (h n (Nat.le_refl n) (by omega)), ih fun i hi hi' => h i (by omega) (by omega)]
      omega

/-- The border of numbered values is their number. -/
theorem length_numbered (ws : List Value) : (ofEntries (numbered ws)).length = ws.length := by
  have hsize : (ofEntries (numbered ws)).size = ws.length := numbered_length ws
  unfold length
  rw [hsize, borderFrom_all, Nat.zero_add]
  intro i _ hi
  rw [Nat.zero_add] at hi
  refine has_iff.mpr (List.mem_map.mpr ⟨(.int ((i : Int) + 1), ws[i]), ?_, rfl⟩)
  refine List.mem_map.mpr ⟨(ws[i], i), ?_, rfl⟩
  rw [List.mk_mem_zipIdx_iff_getElem?]
  exact List.getElem?_eq_getElem hi

-- ============================================================== traversal

theorem firstEntry_ofEntries (hkeys : ((es ++ es').map (·.1)).Nodup) :
    (ofEntries (es ++ es')).firstEntry (es'.map (·.1)) = es'.head? := by
  cases es' with
  | nil => rfl
  | cons e es' =>
      rw [List.map_append, List.map_cons] at hkeys
      have hnew : e.1 ∉ es.map (·.1) := by
        intro hmem
        exact (List.nodup_append.mp hkeys).2.2 e.1 hmem e.1 (List.mem_cons_self ..) rfl
      rw [List.map_cons, firstEntry, find?_entry hnew]
      rfl

/-- A traversal begins with the first entry. -/
theorem next_first (hkeys : (es.map (·.1)).Nodup) :
    (ofEntries es).next .nil = .ok es.head? := by
  have hfirst : (ofEntries es).firstEntry (es.map (·.1)) = es.head? :=
    @firstEntry_ofEntries [] es hkeys
  unfold next
  rw [if_pos rfl, ofEntries_order]
  exact congrArg Except.ok hfirst

/-- The position of a key that is none of those before it. -/
theorem idxOf?_new {ks ks' : List Key} (hk : k ∉ ks) :
    (ks ++ k :: ks').idxOf? k = some ks.length := by
  induction ks with
  | nil => simp [List.idxOf?_cons]
  | cons k' ks ih =>
      rw [List.mem_cons, not_or] at hk
      rw [List.cons_append, List.idxOf?_cons, beq_false_of_ne (Ne.symm hk.1), ih hk.2]
      rfl

/-- After an entry comes the one behind it. -/
theorem next_entry (hkeys : ((es ++ (k, v) :: es').map (·.1)).Nodup)
    (hk : k.value.key = .ok k) :
    (ofEntries (es ++ (k, v) :: es')).next k.value = .ok es'.head? := by
  have hnil : k.value ≠ .nil := by cases k <;> exact Value.noConfusion
  have hsplit : es ++ (k, v) :: es' = (es ++ [(k, v)]) ++ es' := by rw [List.append_assoc]; rfl
  have hidx : ((es ++ (k, v) :: es').map (·.1)).idxOf? k = some es.length := by
    rw [List.map_append, List.map_cons] at hkeys ⊢
    have hnew : k ∉ es.map (·.1) := by
      intro hmem
      exact (List.nodup_append.mp hkeys).2.2 k hmem k (List.mem_cons_self ..) rfl
    rw [idxOf?_new hnew, List.length_map]
  have hdrop : ((es ++ (k, v) :: es').map (·.1)).drop (es.length + 1) = es'.map (·.1) := by
    rw [hsplit, List.map_append]
    exact List.drop_left' (by simp)
  have hfirst : (ofEntries (es ++ (k, v) :: es')).firstEntry (es'.map (·.1)) = es'.head? := by
    rw [hsplit] at hkeys ⊢
    exact firstEntry_ofEntries hkeys
  unfold next
  rw [if_neg hnil, hk]
  dsimp only
  rw [ofEntries_order, hidx]
  dsimp only
  rw [hdrop, hfirst]

end Table

end StackBridge
