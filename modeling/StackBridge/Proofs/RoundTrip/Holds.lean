import StackBridge.Machine.Basic
import StackBridge.Proofs.Host.Typed
import StackBridge.Proofs.Machine.Entries
import StackBridge.Proofs.Machine.Keys
import StackBridge.Proofs.Machine.Top
import StackBridge.Proofs.Text.Encoding

/-!
Host values on a machine. `Holds enc h lo w v` says that the machine value `w`
stands for the host value `v`, with texts in the encoding `enc`, with all its
tables in the heap `h` and none of them older than table `lo`.

Machine values are not faithful in one place: a table makes an integer of a
float key that is one. Both the float and the integer stand for the float then,
and up to the sign of a zero nothing is lost (`Holds.normal`). That no two keys
of a mapping become one on the machine is `Holds.canonical_of_key`: atoms have
different keys because they are different, tables because they are new.
-/

namespace StackBridge

-- ================================================================= heaps

namespace Heap

/-- The tables from `lo` on are in the other heap as they are in this one. -/
structure KeepsFrom (lo : Nat) (h h' : Heap) : Prop where
  size : h.tables.size ≤ h'.tables.size
  table : ∀ id, lo ≤ id → id < h.tables.size → h'.table id = h.table id

/-- One of the tables from `lo` on, with the entries that it was given. -/
structure Made (h : Heap) (lo : Nat) (id : TableId) (es : List (Key × Value)) : Prop where
  low : lo ≤ id
  high : id < h.tables.size
  table : h.table id = .ofEntries es

variable {lo lo' : Nat} {h h' h'' : Heap}

theorem KeepsFrom.trans (hk : KeepsFrom lo h h') (hk' : KeepsFrom lo h' h'') :
    KeepsFrom lo h h'' where
  size := Nat.le_trans hk.size hk'.size
  table id hlow hhigh := by
    rw [hk'.table id hlow (Nat.lt_of_lt_of_le hhigh hk.size), hk.table id hlow hhigh]

theorem KeepsFrom.refl (lo : Nat) (h : Heap) : KeepsFrom lo h h :=
  ⟨Nat.le_refl _, fun _ _ _ => rfl⟩

/-- Newer tables are among those that are kept. -/
theorem KeepsFrom.later (hk : KeepsFrom lo h h') (hlo : lo ≤ lo') : KeepsFrom lo' h h' :=
  ⟨hk.size, fun id hlow => hk.table id (Nat.le_trans hlo hlow)⟩

/-- Older tables do not count. -/
theorem KeepsFrom.setTable {id : TableId} (hid : id < lo) (t : Table) :
    KeepsFrom lo h (h.setTable id t) where
  size := Nat.le_of_eq (setTable_size h id t).symm
  table _ hlow _ := table_setTable_ne (Nat.ne_of_lt (Nat.lt_of_lt_of_le hid hlow)) t

theorem Made.mono {id : TableId} {es : List (Key × Value)} (hm : h.Made lo id es)
    (hk : KeepsFrom lo h h') (hlo : lo' ≤ lo) : h'.Made lo' id es where
  low := Nat.le_trans hlo hm.low
  high := Nat.lt_of_lt_of_le hm.high hk.size
  table := by rw [hk.table id hm.low hm.high, hm.table]

end Heap

-- ================================================================= holding

/-- The keys of the fields of a record. -/
def fieldKeys (fields : List (String × HostValue)) : List Key :=
  fields.map fun f => .str (utf8 f.1)

/-- What a host value is on a machine. -/
inductive Holds (enc : Encoding) (h : Heap) (lo : Nat) : Value → HostValue → Prop where
  | boolean (b : Bool) : Holds enc h lo (.bool b) (.bool b)
  | integer (kind : IntegerKind) (n : Int) : Holds enc h lo (.int n) (.integer kind n)
  | float {x y : Double} (number : x.isNaN = false) (same : y.canonical = x.canonical) :
      Holds enc h lo (.float y) (.float .plain x)
  | integral {x y : Double} (whole : y.isIntegral = true) (same : y.canonical = x.canonical) :
      Holds enc h lo (.int y.truncate) (.float .plain x)
  | text {s : String} {b : Bytes} (written : enc.encode s = .ok b) :
      Holds enc h lo (.str b) (.str s)
  | bytes (kind : BytesKind) (b : Bytes) : Holds enc h lo (.str b) (.bytes kind b)
  | sequence (kind : SequenceKind) {id : TableId} {ws : List Value} {vs : List HostValue}
      (made : h.Made lo id (Table.numbered ws)) (length : ws.length = vs.length)
      (items : ∀ p ∈ ws.zip vs, Holds enc h lo p.1 p.2) :
      Holds enc h lo (.table id) (.sequence kind vs)
  | mapping (kind : MappingKind) {id : TableId} {entries : List (Key × Value)}
      {es : List (HostValue × HostValue)} (made : h.Made lo id entries)
      (length : entries.length = es.length) (distinct : (entries.map (·.1)).Nodup)
      (normal : ∀ e ∈ entries, e.1.value.key = .ok e.1)
      (keys : ∀ p ∈ (entries.map (·.1.value)).zip (es.map (·.1)), Holds enc h lo p.1 p.2)
      (values : ∀ p ∈ (entries.map (·.2)).zip (es.map (·.2)), Holds enc h lo p.1 p.2) :
      Holds enc h lo (.table id) (.mapping kind es)
  | record (name : String) (tuple : Bool) {id : TableId} {ws : List Value}
      {fields : List (String × HostValue)}
      (made : h.Made lo id ((fieldKeys fields).zip ws))
      (length : ws.length = fields.length)
      (values : ∀ p ∈ ws.zip (fields.map (·.2)), Holds enc h lo p.1 p.2) :
      Holds enc h lo (.table id) (.record name tuple fields)

namespace Holds

variable {enc : Encoding} {h h' : Heap} {lo lo' : Nat} {w w' : Value} {v v' : HostValue}
  {id : TableId} {key : Key}

/-- Nothing is lost when tables come, and when those that change are older. -/
theorem mono (hw : Holds enc h lo w v) (hk : Heap.KeepsFrom lo h h') (hlo : lo' ≤ lo) :
    Holds enc h' lo' w v := by
  induction hw with
  | boolean b => exact .boolean b
  | integer kind n => exact .integer kind n
  | float number same => exact .float number same
  | integral whole same => exact .integral whole same
  | text written => exact .text written
  | bytes kind b => exact .bytes kind b
  | sequence kind made length items ih => exact .sequence kind (made.mono hk hlo) length ih
  | mapping kind made length distinct normal keys values ihk ihv =>
      exact .mapping kind (made.mono hk hlo) length distinct normal ihk ihv
  | record name tuple made length values ih =>
      exact .record name tuple (made.mono hk hlo) length ih

/-- A table that a value is held in is one of those from `lo` on. -/
theorem table_range (hw : Holds enc h lo (.table id) v) : lo ≤ id ∧ id < h.tables.size := by
  cases hw with
  | sequence kind made => exact ⟨made.low, made.high⟩
  | mapping kind made => exact ⟨made.low, made.high⟩
  | record name tuple made => exact ⟨made.low, made.high⟩

/-- What is held has a category, and is not nil. -/
theorem category (hw : Holds enc h lo w v) : ∃ c, w.category? = some c ∧ c ≠ .nil := by
  cases hw <;> exact ⟨_, rfl, Category.noConfusion⟩

theorem ne_nil (hw : Holds enc h lo w v) : w ≠ .nil := by
  cases hw <;> exact Value.noConfusion

-- =================================================================== keys

/-- A float goes by the key of the float that is held, however it is held. -/
theorem key_float {x : Double} (hw : Holds enc h lo w (.float .plain x)) :
    w.key = Key.ofFloat x := by
  cases hw with
  | @float _ y number same =>
      show Key.ofFloat y = _
      rw [← Key.ofFloat_canonical, same, Key.ofFloat_canonical]
  | @integral _ y whole same =>
      show Except.ok (Key.int y.truncate) = _
      rw [← Key.ofFloat_integral whole, ← Key.ofFloat_canonical, same, Key.ofFloat_canonical]

/-- What is held can be a key, and is held as that key too. -/
theorem normal (hw : Holds enc h lo w v) :
    ∃ key, w.key = .ok key ∧ Holds enc h lo key.value v ∧ key.value.key = .ok key := by
  cases hw with
  | boolean b => exact ⟨.bool b, rfl, .boolean b, rfl⟩
  | integer kind n => exact ⟨.int n, rfl, .integer kind n, rfl⟩
  | @float x y number same =>
      have hy : y.isNaN = false := by
        rw [← Double.canonical_isNaN, same, Double.canonical_isNaN]
        exact number
      by_cases hwhole : y.isIntegral = true
      · exact ⟨.int y.truncate, Key.ofFloat_integral hwhole, .integral hwhole same, rfl⟩
      · have hkey : Key.ofFloat y = .ok (.float y.untagged) := by
          unfold Key.ofFloat
          rw [hy, if_neg (by decide), if_neg hwhole]
        exact ⟨.float y.untagged, hkey,
          .float number ((Double.canonical_untagged hy).trans same), hkey⟩
  | @integral x y whole same => exact ⟨.int y.truncate, rfl, .integral whole same, rfl⟩
  | @text s b written => exact ⟨.str b, rfl, .text written, rfl⟩
  | bytes kind b => exact ⟨.str b, rfl, .bytes kind b, rfl⟩
  | @sequence kind id _ _ made length items =>
      exact ⟨.table id, rfl, .sequence kind made length items, rfl⟩
  | @mapping kind id _ _ made length distinct normal keys values =>
      exact ⟨.table id, rfl, .mapping kind made length distinct normal keys values, rfl⟩
  | @record name tuple id _ _ made length values =>
      exact ⟨.table id, rfl, .record name tuple made length values, rfl⟩

/-- Values of one type that are held under one key are the same up to zeros, or
are held in one table. -/
theorem canonical_of_key {cs : Classes} {t : TypeExpr} (hw : Holds enc h lo w v)
    (hw' : Holds enc h' lo' w' v') (hv : Fits cs v t) (hv' : Fits cs v' t) (hkey : w.key = .ok key)
    (hkey' : w'.key = .ok key) :
    v.canonical = v'.canonical ∨ ∃ id, w = .table id ∧ w' = .table id := by
  have htable : ∀ {i j : TableId}, w = .table i → w' = .table j →
      ∃ id, w = .table id ∧ w' = .table id := by
    intro i j hi hj
    rw [hi] at hkey
    rw [hj, ← hkey] at hkey'
    cases hkey'
    exact ⟨_, hi, hj⟩
  cases hv with
  | boolean b =>
      cases hv'
      cases hw
      cases hw'
      cases hkey
      cases hkey'
      exact Or.inl rfl
  | integer range =>
      cases hv'
      cases hw
      cases hw'
      cases hkey
      cases hkey'
      exact Or.inl rfl
  | enum range member =>
      cases hv'
      cases hw
      cases hw'
      cases hkey
      cases hkey'
      exact Or.inl rfl
  | float number =>
      cases hv'
      refine Or.inl (congrArg (HostValue.float .plain) ?_)
      exact Key.canonical_of_ofFloat (hw.key_float.symm.trans hkey) (hw'.key_float.symm.trans hkey')
  | text s =>
      cases hv' with
      | text s' =>
          cases hw with
          | text written =>
              cases hw' with
              | text written' =>
                  have hbytes := Key.str.inj (Except.ok.inj (hkey.trans hkey'.symm))
                  rw [← hbytes] at written'
                  rw [Encoding.encode_inj written written']
                  exact Or.inl rfl
  | bytes b =>
      cases hv'
      cases hw
      cases hw'
      cases hkey
      cases hkey'
      exact Or.inl rfl
  | array b =>
      cases hv'
      cases hw
      cases hw'
      cases hkey
      cases hkey'
      exact Or.inl rfl
  | list items =>
      cases hv'
      cases hw
      cases hw'
      exact Or.inr (htable rfl rfl)
  | tuple items =>
      cases hv' <;> cases hw <;> cases hw' <;> exact Or.inr (htable rfl rfl)
  | fixedTuple length items =>
      cases hv' <;> cases hw <;> cases hw' <;> exact Or.inr (htable rfl rfl)
  | mapping keys values differ =>
      cases hv'
      cases hw
      cases hw'
      exact Or.inr (htable rfl rfl)
  | record hints names values =>
      cases hv'
      cases hw
      cases hw'
      exact Or.inr (htable rfl rfl)

end Holds

theorem fieldKeys_zip_append {fs gs : List (String × HostValue)} {us ws : List Value}
    (h : us.length = gs.length) :
    (fieldKeys (gs ++ fs)).zip (us ++ ws) = (fieldKeys gs).zip us ++ (fieldKeys fs).zip ws := by
  unfold fieldKeys
  rw [List.map_append, List.zip_append ((List.length_map _).trans h.symm)]

/-- A field has a name of its own, and so a key of its own. -/
theorem fieldKey_new {fs gs : List (String × HostValue)} {f : String × HostValue}
    {ws : List Value} (hdistinct : ((gs ++ f :: fs).map (·.1)).Nodup)
    (hlength : ws.length = gs.length) :
    Key.str (utf8 f.1) ∉ ((fieldKeys gs).zip ws).map (·.1) := by
  have hle : (fieldKeys gs).length ≤ ws.length := by
    rw [hlength]
    exact Nat.le_of_eq (List.length_map _)
  rw [List.map_fst_zip hle]
  intro hmem
  obtain ⟨g, hg, heq⟩ := List.mem_map.mp hmem
  have hsame : g.1 = f.1 := utf8_injective (Key.str.inj heq)
  rw [List.map_append, List.map_cons] at hdistinct
  exact (List.nodup_append.mp hdistinct).2.2 g.1 (List.mem_map_of_mem hg) f.1
    (List.mem_cons_self ..) hsame

-- =============================================================== in parallel

/-- Host values and what stands for each of them. -/
structure HoldsEach (enc : Encoding) (h : Heap) (lo : Nat) (ws : List Value) (vs : List HostValue) : Prop where
  length : ws.length = vs.length
  each : ∀ p ∈ ws.zip vs, Holds enc h lo p.1 p.2

namespace HoldsEach

variable {enc : Encoding} {h h' : Heap} {lo : Nat} {ws : List Value} {vs : List HostValue} {w : Value}
  {v : HostValue}

theorem nil (h : Heap) (lo : Nat) : HoldsEach enc h lo [] [] :=
  ⟨rfl, fun _ hp => absurd hp List.not_mem_nil⟩

theorem mono (hw : HoldsEach enc h lo ws vs) (hk : Heap.KeepsFrom lo h h') :
    HoldsEach enc h' lo ws vs :=
  ⟨hw.length, fun p hp => (hw.each p hp).mono hk (Nat.le_refl lo)⟩

/-- One more on both sides. -/
theorem concat (hws : HoldsEach enc h lo ws vs) (hw : Holds enc h lo w v) :
    HoldsEach enc h lo (ws ++ [w]) (vs ++ [v]) where
  length := by rw [List.length_append, List.length_append, hws.length]; rfl
  each p hp := by
    rw [List.zip_append hws.length, List.mem_append] at hp
    rcases hp with hmem | hlast
    · exact hws.each p hmem
    · rw [List.mem_singleton.mp hlast]
      exact hw

end HoldsEach

/-- The keys of a mapping and what stands for each of them, one under each key of
a table. -/
structure HoldsKeys (enc : Encoding) (h : Heap) (lo : Nat) (ks : List Key) (vs : List HostValue) :
    Prop where
  distinct : ks.Nodup
  normal : ∀ key ∈ ks, key.value.key = .ok key
  each : HoldsEach enc h lo (ks.map Key.value) vs

namespace HoldsKeys

variable {enc : Encoding} {h h' : Heap} {lo lo' : Nat} {ks : List Key} {vs : List HostValue}
  {key : Key} {v : HostValue}

theorem nil (h : Heap) (lo : Nat) : HoldsKeys enc h lo [] [] :=
  ⟨List.nodup_nil, fun _ hk => absurd hk List.not_mem_nil, .nil h lo⟩

theorem mono (hk : HoldsKeys enc h lo ks vs) (hkeep : Heap.KeepsFrom lo h h') (hlo : lo' ≤ lo) :
    HoldsKeys enc h' lo' ks vs :=
  ⟨hk.distinct, hk.normal, hk.each.length, fun p hp => (hk.each.each p hp).mono hkeep hlo⟩

/-- One more key, and a new one. -/
theorem concat (hk : HoldsKeys enc h lo ks vs) (hnew : key ∉ ks) (hnormal : key.value.key = .ok key)
    (hkey : Holds enc h lo key.value v) : HoldsKeys enc h lo (ks ++ [key]) (vs ++ [v]) where
  distinct := by
    refine List.nodup_append.mpr ⟨hk.distinct, List.nodup_singleton key, ?_⟩
    intro k hmem k' hk' heq
    rw [heq, List.mem_singleton.mp hk'] at hmem
    exact hnew hmem
  normal k hmem := by
    rcases List.mem_append.mp hmem with hmem | hlast
    · exact hk.normal k hmem
    · rw [List.mem_singleton.mp hlast]
      exact hnormal
  each := by
    rw [List.map_append]
    exact hk.each.concat hkey

/-- A key that differs from all that are there is held under a new key, if what
it is held in is newer. -/
theorem key_new {cs : Classes} {t : TypeExpr} {w : Value} (hk : HoldsKeys enc h lo ks vs)
    (hw : Holds enc h' h.tables.size w v) (hkey : w.key = .ok key) (hv : Fits cs v t)
    (hfits : ∀ u ∈ vs, Fits cs u t) (hhashable : ∀ u ∈ vs, u.unhashable? = none)
    (hdiffer : ∀ u ∈ vs, u.sameKey v = false) : key ∉ ks := by
  intro hmem
  obtain ⟨u, hu⟩ := mem_zip_of_mem hk.each.length (List.mem_map_of_mem hmem)
  have huv := (List.of_mem_zip hu).2
  have hheld := hk.each.each _ hu
  rcases hheld.canonical_of_key hw (hfits u huv) hv (hk.normal key hmem) hkey with
    heq | ⟨id, hid, hid'⟩
  · have hsame : u.sameKey v = true := by
      rw [← HostValue.sameKey_canonical, ← heq, HostValue.sameKey_canonical]
      exact (hfits u huv).sameKey_self (hhashable u huv)
    rw [hdiffer u huv] at hsame
    cases hsame
  · rw [hid] at hheld
    rw [hid'] at hw
    exact absurd hheld.table_range.2 (Nat.not_lt.mpr hw.table_range.1)

end HoldsKeys

end StackBridge
