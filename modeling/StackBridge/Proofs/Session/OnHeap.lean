import StackBridge.Proofs.Session.Reachable

/-!
What is true of a heap through a run. All that is done to a heap is making
objects and storing into tables, so a relation between heaps that these keep
(`Heap.Evolves`) is kept by every operation, and through every run: nothing else
needs to be said of frames, wrappers or blocks.

The first such relation is that functions stay what they are.
-/

namespace StackBridge

/-- A relation between heaps that is kept by new objects, tables or others, and
by storing under a key. -/
class Heap.Evolves (H : Heap → Heap → Prop) : Prop extends Std.Refl H, IsTrans Heap H where
  others : ∀ {h h' : Heap}, h'.tables = h.tables → h.KeepsFunctions h' → H h h'
  newTable : ∀ {h h' : Heap}, h'.tables = h.tables.push .empty → h'.functions = h.functions →
    H h h'
  store : ∀ {h : Heap} (id : TableId) {k v : Value} {t : Table},
    (h.table id).set k v = .ok t → H h (h.setTable id t)

instance : Heap.Evolves Heap.KeepsFunctions where
  refl h := .refl h
  trans _ _ _ h h' := h.trans h'
  others _ h := h
  newTable _ hfunctions id f hf := by
    unfold Heap.function?
    rw [hfunctions]
    exact hf
  store _ _ _ _ _ := .refl _

variable {H : Heap → Heap → Prop} [Heap.Evolves H]

-- ============================================================== one machine

namespace Vm

/-- A relation between the heaps before and after. -/
def OnHeap (H : Heap → Heap → Prop) (vm vm' : Vm) : Prop := H vm.heap vm'.heap

instance : Std.Refl (OnHeap H) := ⟨fun vm => Std.Refl.refl vm.heap⟩

instance : IsTrans Vm (OnHeap H) := ⟨fun _ _ _ h h' => IsTrans.trans (r := H) _ _ _ h h'⟩

instance : Lasts (OnHeap H) where
  steady h := Heap.Evolves.others h.tables h.functions
  store hset := Heap.Evolves.store _ hset
  setFree vm _ _ := Std.Refl.refl vm.heap

end Vm

-- ================================================================= sessions

namespace Session

variable {ctx : Context} {s : Session}

/-- A relation between the heaps before and after. -/
def OnHeap (H : Heap → Heap → Prop) (s t : Session) : Prop := H s.heap t.heap

omit [Heap.Evolves H] in
theorem onHeap_onMachine {α : Type} {a : Vm.Action α} (k : MachineId)
    (ha : Keeps (Vm.OnHeap H) a) : Keeps (OnHeap H) (onMachine k a) := by
  intro s
  rw [onMachine_final]
  exact ha (s.vm k)

theorem onHeap_same {t : Session} (h : t.heap = s.heap) : OnHeap H s t := by
  unfold OnHeap
  rw [h]
  exact Std.Refl.refl s.heap

instance : Calm (OnHeap H) where
  refl s := Std.Refl.refl s.heap
  trans _ _ _ h h' := IsTrans.trans (r := H) _ _ _ h h'
  unseen hheap _ _ _ := onHeap_same hheap

instance : Writes (OnHeap H) where
  steady k ha := onHeap_onMachine k (Vm.keeps_steady ha)
  pushTable k := onHeap_onMachine k fun _ => Heap.Evolves.newTable rfl rfl
  close k := onHeap_onMachine k fun _ => Heap.Evolves.newTable rfl rfl
  rewrapped hheap _ _ := onHeap_same hheap
  rawSet k index := onHeap_onMachine k (Vm.keeps_rawSet index)
  setKey k index key := onHeap_onMachine k (Vm.keeps_setKey index key)
  ref k index := onHeap_onMachine k (Vm.keeps_ref index)
  unref k index r := onHeap_onMachine k (Vm.keeps_unref index r)

instance : Describes ctx (OnHeap H) :=
  describes_of_blind ctx fun hheap _ _ => onHeap_same hheap

instance : FrameBlind (OnHeap H) := ⟨fun s _ _ _ => Std.Refl.refl s.heap⟩

end Session

end StackBridge
