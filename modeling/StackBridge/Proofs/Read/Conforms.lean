import StackBridge.Bridge.Read
import StackBridge.Proofs.Machine.Table

/-!
Conforming to a type: what a slot has to hold, down to every part of it that the
type speaks of. It is said of values and tables alone, and of no way to read
them, so that it can be compared with what a read lets through.

A value conforms with regard to what its tables are found to hold (`found`),
which is one content for each table if nothing changes meanwhile. A part is held
against the type that is declared for it, and one without may be anything.
-/

namespace StackBridge

namespace HostType

/-- The type that is declared for an element. -/
def declaredItem (h : HostType) (i : Nat) : Option TypeExpr :=
  if h.isFixedTuple then h.args[i]? else h.args.head?

/-- The types that are declared for keys and for values. -/
def declaredEntry (h : HostType) : Option TypeExpr × Option TypeExpr :=
  match h.args with
  | [k, v] => (some k, some v)
  | _ => (none, none)

/-- How many elements a sequence has in a table. -/
def itemCount (h : HostType) (t : Table) : Nat :=
  if h.isFixedTuple then h.args.length else t.length

end HostType

/-- The tables that a value leads to, itself if it is one. -/
inductive Heap.LeadsTo (h : Heap) : Value → TableId → Prop where
  | self (id : TableId) : LeadsTo h (.table id) id
  | key {id id' : TableId} {e : Key × Value} (entry : e ∈ (h.table id).entries)
      (inside : LeadsTo h e.1.value id') : LeadsTo h (.table id) id'
  | value {id id' : TableId} {e : Key × Value} (entry : e ∈ (h.table id).entries)
      (inside : LeadsTo h e.2 id') : LeadsTo h (.table id) id'

namespace Bridge

/-- What a part has to conform to. `ofNone` is what it means to declare the
missing type for a part. -/
def demanded (ofNone : TypeExpr) : Option TypeExpr → TypeExpr
  | none => .any
  | some .none => ofNone
  | some t => t

/-- A value conforms to a type. -/
inductive Conforms (cs : Classes) (ofNone : TypeExpr) (found : TableId → Table → Prop) :
    Option Value → TypeExpr → Prop where
  /-- Anything at all. -/
  | dynamic {v : Option Value} {t : TypeExpr} {host : HostType}
      (described : t.hostType? = some host) (shape : host.shape = .dynamic) :
      Conforms cs ofNone found v t
  /-- A value of the category of its type, which is none of tables. -/
  | plain {v : Value} {t : TypeExpr} {host : HostType} (described : t.hostType? = some host)
      (shape : host.category ≠ .table) (category : v.category? = some host.category) :
      Conforms cs ofNone found (some v) t
  /-- A table whose elements conform, as many as it has up to its border or as
  their types are. -/
  | sequence {id : TableId} {t : TypeExpr} {host : HostType} (whole : Table) (part : Nat → Value)
      (described : t.hostType? = some host) (shape : host.shape = .sequence)
      (counted : found id whole)
      (read : ∀ i < host.itemCount whole, ∃ u, found id u ∧ u.get (.int ((i : Int) + 1)) = part i)
      (items : ∀ i < host.itemCount whole,
        Conforms cs ofNone found (some (part i)) (demanded ofNone (host.declaredItem i))) :
      Conforms cs ofNone found (some (.table id)) t
  /-- A table all of whose keys and values conform. -/
  | mapping {id : TableId} {t : TypeExpr} {host : HostType} (whole : Table) (part : Key → Value)
      (described : t.hostType? = some host) (shape : host.shape = .mapping)
      (listed : found id whole)
      (read : ∀ key, whole.has key = true → ∃ u, found id u ∧ u.find? key = some (part key))
      (keys : ∀ key, whole.has key = true →
        Conforms cs ofNone found (some key.value) (demanded ofNone host.declaredEntry.1))
      (values : ∀ key, whole.has key = true →
        Conforms cs ofNone found (some (part key)) (demanded ofNone host.declaredEntry.2)) :
      Conforms cs ofNone found (some (.table id)) t
  /-- A table with a conforming value for each field that a constructor takes,
  or nil where there is a default. -/
  | record {id : TableId} {t : TypeExpr} {host : HostType} (fields : List (FieldSpec × TypeExpr))
      (part : FieldSpec × TypeExpr → Value)
      (described : t.hostType? = some host) (shape : host.shape = .record)
      (hinted : hintedFields cs host.recordName = .ok fields)
      (read : ∀ p ∈ fields, p.1.init = true →
        ∃ u, found id u ∧ u.get (.str (utf8 p.1.name)) = part p)
      (given : ∀ p ∈ fields, p.1.init = true → ¬ (part p = .nil ∧ p.1.hasDefault = true) →
        Conforms cs ofNone found (some (part p)) (orNatural p.2)) :
      Conforms cs ofNone found (some (.table id)) t

variable {cs : Classes} {ofNone : TypeExpr} {found found' : TableId → Table → Prop}
  {v : Option Value} {t : TypeExpr}

/-- What is found at some moments is found whenever else one may look. -/
theorem Conforms.mono (h : Conforms cs ofNone found v t)
    (hfound : ∀ id u, found id u → found' id u) : Conforms cs ofNone found' v t := by
  induction h with
  | dynamic described shape => exact .dynamic described shape
  | plain described shape category => exact .plain described shape category
  | sequence whole part described shape counted read items ih =>
      refine .sequence whole part described shape (hfound _ _ counted) (fun i hi => ?_) ih
      obtain ⟨u, hu, hpart⟩ := read i hi
      exact ⟨u, hfound _ _ hu, hpart⟩
  | mapping whole part described shape listed read keys values ihk ihv =>
      refine .mapping whole part described shape (hfound _ _ listed) (fun key hkey => ?_) ihk ihv
      obtain ⟨u, hu, hpart⟩ := read key hkey
      exact ⟨u, hfound _ _ hu, hpart⟩
  | record fields part described shape hinted read given ih =>
      refine .record fields part described shape hinted (fun p hp hinit => ?_) ih
      obtain ⟨u, hu, hpart⟩ := read p hp hinit
      exact ⟨u, hfound _ _ hu, hpart⟩

/-- Only nil conforms to the missing type. -/
theorem Conforms.nil_of_none (h : Conforms cs ofNone found v .none) : v = some .nil := by
  have hhost : TypeExpr.none.hostType? = some ⟨.cls .none, .absent⟩ := rfl
  cases h with
  | dynamic described shape =>
      cases hhost.symm.trans described
      cases shape
  | @plain v _ _ described shape category =>
      cases hhost.symm.trans described
      cases v with
      | nil => rfl
      | guest id role => cases role <;> cases category
      | _ => cases category
  | sequence whole part described shape =>
      cases hhost.symm.trans described
      cases shape
  | mapping whole part described shape =>
      cases hhost.symm.trans described
      cases shape
  | record fields part described shape =>
      cases hhost.symm.trans described
      cases shape

/-- What conforms to a list of some type is a table, and each element conforms
to what is demanded of it. -/
theorem Conforms.items_of_list {a : TypeExpr}
    (h : Conforms cs ofNone found v (.generic (.sequence .list) [a])) :
    ∃ id whole, v = some (.table id) ∧ found id whole ∧ ∀ i < whole.length, ∃ w,
      (∃ u, found id u ∧ u.get (.int ((i : Int) + 1)) = w)
        ∧ Conforms cs ofNone found (some w) (demanded ofNone (some a)) := by
  have hhost : (TypeExpr.generic (.sequence .list) [a]).hostType?
      = some ⟨.generic (.sequence .list) [a], .sequence⟩ := rfl
  cases h with
  | dynamic described shape =>
      cases hhost.symm.trans described
      cases shape
  | plain described shape =>
      cases hhost.symm.trans described
      exact absurd rfl shape
  | @sequence id _ _ whole part described shape counted read items =>
      cases hhost.symm.trans described
      exact ⟨id, whole, rfl, counted, fun i hi => ⟨part i, read i hi, items i hi⟩⟩
  | mapping whole part described shape =>
      cases hhost.symm.trans described
      cases shape
  | record fields part described shape =>
      cases hhost.symm.trans described
      cases shape

-- ============================================================= in one heap

/-- What a value addresses is nil, or kept under some key. -/
theorem get_nil_or_kept (u : Table) (w : Value) :
    u.get w = .nil ∨ ∃ key, u.find? key = some (u.get w) := by
  unfold Table.get
  cases w.key with
  | error f => exact Or.inl rfl
  | ok key =>
      dsimp only
      cases hfind : u.find? key with
      | none => exact Or.inl rfl
      | some x => exact Or.inr ⟨key, hfind⟩

variable {h : Heap}

/-- Where a value under a key leads to, the table does. -/
theorem leadsTo_find? {id id' : TableId} {key : Key} {w : Value}
    (hfind : (h.table id).find? key = some w) (hw : h.LeadsTo w id') :
    h.LeadsTo (.table id) id' := by
  unfold Table.find? at hfind
  obtain ⟨e, he, rfl⟩ := Option.map_eq_some_iff.mp hfind
  exact .value (List.mem_of_find?_eq_some he) hw

theorem leadsTo_get {id id' : TableId} {w : Value}
    (hw : h.LeadsTo ((h.table id).get w) id') : h.LeadsTo (.table id) id' := by
  rcases get_nil_or_kept (h.table id) w with hnil | ⟨key, hfind⟩
  · rw [hnil] at hw
    cases hw
  · exact leadsTo_find? hfind hw

theorem leadsTo_key {id id' : TableId} {key : Key} (hkey : (h.table id).has key = true)
    (hw : h.LeadsTo key.value id') : h.LeadsTo (.table id) id' := by
  obtain ⟨e, he, rfl⟩ := List.mem_map.mp (Table.has_iff.mp hkey)
  exact .key he hw

/-- Where the tables that a value leads to are found to hold what a heap has
there, the value conforms in that heap. -/
theorem Conforms.inHeap (hconforms : Conforms cs ofNone found v t)
    (hfound : ∀ w, v = some w → ∀ id, h.LeadsTo w id → ∀ u, found id u → u = h.table id) :
    Conforms cs ofNone (fun id u => u = h.table id) v t := by
  induction hconforms with
  | dynamic described shape => exact .dynamic described shape
  | plain described shape category => exact .plain described shape category
  | @sequence id _ host whole part described shape counted read items ih =>
      have hsame : ∀ u, found id u → u = h.table id := hfound _ rfl id (.self id)
      have hread : ∀ i < host.itemCount whole,
          (h.table id).get (.int ((i : Int) + 1)) = part i := by
        intro i hi
        obtain ⟨u, hu, hpart⟩ := read i hi
        rw [← hsame u hu]
        exact hpart
      refine .sequence whole part described shape (hsame _ counted)
        (fun i hi => ⟨_, rfl, hread i hi⟩) fun i hi => ih i hi ?_
      rintro w ⟨rfl⟩ id' hw
      rw [← hread i hi] at hw
      exact hfound _ rfl id' (leadsTo_get hw)
  | @mapping id _ host whole part described shape listed read keys values ihk ihv =>
      have hsame : ∀ u, found id u → u = h.table id := hfound _ rfl id (.self id)
      have hread : ∀ key, whole.has key = true → (h.table id).find? key = some (part key) := by
        intro key hkey
        obtain ⟨u, hu, hpart⟩ := read key hkey
        rw [← hsame u hu]
        exact hpart
      refine .mapping whole part described shape (hsame _ listed)
        (fun key hkey => ⟨_, rfl, hread key hkey⟩) (fun key hkey => ihk key hkey ?_)
        fun key hkey => ihv key hkey ?_
      · rintro w ⟨rfl⟩ id' hw
        rw [hsame whole listed] at hkey
        exact hfound _ rfl id' (leadsTo_key hkey hw)
      · rintro w ⟨rfl⟩ id' hw
        exact hfound _ rfl id' (leadsTo_find? (hread key hkey) hw)
  | @record id _ host fields part described shape hinted read given ih =>
      have hsame : ∀ u, found id u → u = h.table id := hfound _ rfl id (.self id)
      have hread : ∀ p ∈ fields, p.1.init = true →
          (h.table id).get (.str (utf8 p.1.name)) = part p := by
        intro p hp hinit
        obtain ⟨u, hu, hpart⟩ := read p hp hinit
        rw [← hsame u hu]
        exact hpart
      refine .record fields part described shape hinted
        (fun p hp hinit => ⟨_, rfl, hread p hp hinit⟩) fun p hp hinit hgiven =>
          ih p hp hinit hgiven ?_
      rintro w ⟨rfl⟩ id' hw
      rw [← hread p hp hinit] at hw
      exact hfound _ rfl id' (leadsTo_get hw)

end Bridge

end StackBridge
