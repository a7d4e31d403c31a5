import StackBridge.Proofs.Machine.FiniteMap
import StackBridge.Proofs.Session.OnHeap

/-!
What is true of every table wherever a program comes to: what is true of an
empty one and kept by storing, because nothing else is done to tables
(`Reachable.throughout`). So all tables are well kept, and none holds nil.
-/

namespace StackBridge

-- =================================================================== heaps

/-- All tables of a heap have a property. -/
def Heap.Throughout (P : Table → Prop) (h : Heap) : Prop := ∀ id, P (h.table id)

/-- All tables of a heap are well kept. -/
def Heap.WellKept (h : Heap) : Prop := ∀ id, (h.table id).WellKept

variable {P : Table → Prop}

theorem Heap.throughout_empty [Table.Stable P] {h : Heap} (hnone : h.tables = #[]) :
    h.Throughout P := by
  intro id
  have htable : h.table id = .empty := by
    unfold Heap.table
    rw [hnone]
    rfl
  rw [htable]
  exact Table.Stable.empty

theorem Heap.Throughout.setTable {h : Heap} {id : TableId} {t : Table} (hw : h.Throughout P)
    (ht : P t) : (h.setTable id t).Throughout P := by
  intro id'
  by_cases hid : id < h.tables.size
  · by_cases hsame : id = id'
    · subst hsame
      rw [Heap.table_setTable hid]
      exact ht
    · rw [Heap.table_setTable_ne hsame]
      exact hw id'
  · rw [Heap.setTable_none hid]
    exact hw id'

theorem Heap.Throughout.push {h h' : Heap} (hw : h.Throughout P)
    (htables : h'.tables = h.tables.push .empty) : h'.Throughout P := by
  intro id
  rw [Heap.table_push_empty htables]
  exact hw id

/-- From a heap of which all tables have a property comes one of which they do. -/
def Heap.Stays (P : Table → Prop) (h h' : Heap) : Prop := h.Throughout P → h'.Throughout P

theorem Heap.Stays.of_tables {h h' : Heap} (htables : h'.tables = h.tables) :
    h.Stays P h' := by
  intro hw id
  unfold Heap.table
  rw [htables]
  exact hw id

instance [Table.Stable P] : Heap.Evolves (Heap.Stays P) where
  refl _ := id
  trans _ _ _ h h' := h' ∘ h
  others htables _ := .of_tables htables
  newTable htables _ hw := hw.push htables
  store id _ _ _ hset hw := hw.setTable (Table.Stable.set (hw id) hset)

-- ================================================================== sessions

namespace Session

variable {ctx : Context} {s : Session}

/-- A session begins with the empty registries of its machines. -/
theorem start_throughout [Table.Stable P] (machines : Nat) (checks : Bool) :
    (Session.start machines checks).heap.Throughout P := by
  induction machines with
  | zero => exact Heap.throughout_empty rfl
  | succ n ih =>
      rw [start_succ]
      exact ih.push rfl

theorem Reachable.throughout [Table.Stable P] (hs : Reachable ctx s) : s.heap.Throughout P :=
  hs.kept (OnHeap (Heap.Stays P)) (start_throughout _ _)

theorem Reachable.wellKept (hs : Reachable ctx s) : s.heap.WellKept :=
  hs.throughout

end Session

end StackBridge
