import StackBridge.Machine.Fields
import StackBridge.Proofs.Action

/-!
Machine actions on the topmost slots, as equations. Each says what an action
answers and what it leaves when the slots that it looks at are known to be
there: the slots are some `l` with the known ones behind it, and the running
frame begins within `l`, at its base `b`.

`Vm.withSlots` is how all of them change the stack; everything else of the
machine stays.
-/

namespace StackBridge

-- ================================================================= the heap

namespace Heap

theorem table_push_lt {h : Heap} {id : TableId} (hid : id < h.tables.size) (t : Table) :
    ({ h with tables := h.tables.push t } : Heap).table id = h.table id := by
  simp [table, Array.getD_eq_getD_getElem?, Array.getElem?_push, Nat.ne_of_lt hid]

/-- A new table is like one that is not there, and it is no other's concern. -/
theorem table_push_empty {h h' : Heap} (htables : h'.tables = h.tables.push .empty)
    (id : TableId) : h'.table id = h.table id := by
  unfold table
  rw [htables]
  by_cases hid : id = h.tables.size
  · simp [hid, Array.getD_eq_getD_getElem?]
  · simp [Array.getD_eq_getD_getElem?, Array.getElem?_push, hid]

theorem table_setTable_ne {h : Heap} {id id' : TableId} (hne : id ≠ id') (t : Table) :
    (h.setTable id t).table id' = h.table id' := by
  simp [table, setTable, Array.getD_eq_getD_getElem?, hne]

theorem table_setTable {h : Heap} {id : TableId} (hid : id < h.tables.size) (t : Table) :
    (h.setTable id t).table id = t := by
  simp [table, setTable, Array.getD_eq_getD_getElem?, hid]

/-- There is nothing to replace where no table is. -/
theorem setTable_none {h : Heap} {id : TableId} (hid : ¬ id < h.tables.size) (t : Table) :
    h.setTable id t = h := by
  unfold setTable
  rw [Array.setIfInBounds_eq_of_size_le (Nat.le_of_not_lt hid)]

theorem setTable_size (h : Heap) (id : TableId) (t : Table) :
    (h.setTable id t).tables.size = h.tables.size := by
  simp [setTable]

end Heap

namespace Vm

/-- A machine with other slots. -/
def withSlots (vm : Vm) (slots : List Value) : Vm :=
  { vm with machine := { vm.machine with slots } }

@[simp] theorem withSlots_slots (vm : Vm) (l : List Value) :
    (vm.withSlots l).machine.slots = l := rfl

@[simp] theorem withSlots_frames (vm : Vm) (l : List Value) :
    (vm.withSlots l).machine.frames = vm.machine.frames := rfl

@[simp] theorem withSlots_registry (vm : Vm) (l : List Value) :
    (vm.withSlots l).machine.registry = vm.machine.registry := rfl

@[simp] theorem withSlots_freeRefs (vm : Vm) (l : List Value) :
    (vm.withSlots l).machine.freeRefs = vm.machine.freeRefs := rfl

@[simp] theorem withSlots_closed (vm : Vm) (l : List Value) :
    (vm.withSlots l).machine.closed = vm.machine.closed := rfl

@[simp] theorem withSlots_heap (vm : Vm) (l : List Value) : (vm.withSlots l).heap = vm.heap := rfl

@[simp] theorem withSlots_withSlots (vm : Vm) (l l' : List Value) :
    (vm.withSlots l).withSlots l' = vm.withSlots l' := rfl

theorem withSlots_self (vm : Vm) : vm.withSlots vm.machine.slots = vm := rfl

variable {vm : Vm} {b : Nat} {fs : List Nat} {l r : List Value} {u v w : Value}

-- ============================================================== the frame

theorem base_eq (hf : vm.machine.frames = b :: fs) : base vm = .ok b vm := by
  unfold base
  rw [bind_ok (get_apply vm), hf]
  rfl

theorem getTop_eq (hf : vm.machine.frames = b :: fs) :
    getTop vm = .ok ((vm.machine.slots.length : Int) - b) vm := by
  unfold getTop
  rw [bind_ok (base_eq hf)]
  rfl

theorem push_eq (vm : Vm) (v : Value) :
    push v vm = .ok () (vm.withSlots (vm.machine.slots ++ [v])) := rfl

theorem take_eq (hf : vm.machine.frames = b :: fs) (hs : vm.machine.slots = l ++ [v])
    (hb : b ≤ l.length) : take vm = .ok v (vm.withSlots l) := by
  have hlen : ¬ vm.machine.slots.length ≤ b := by
    rw [hs, List.length_append, List.length_singleton]
    omega
  have hlast : vm.machine.slots.getLast? = some v := by rw [hs, List.getLast?_concat]
  have hinit : vm.machine.slots.dropLast = l := by rw [hs, List.dropLast_concat]
  unfold take
  rw [bind_ok (base_eq hf)]
  simp only [getMachine, bind_apply, get_apply, pure_apply]
  rw [if_neg hlen, hlast]
  simp only [modifyMachine, bind_apply, modify_apply, pure_apply, hinit]
  rfl

-- ================================================================ the top

/-- A top within the slots drops those above it. -/
theorem setTop_within {index : Int} (hf : vm.machine.frames = b :: fs)
    (hs : vm.machine.slots = l ++ r) (hb : b ≤ l.length)
    (htarget : (if 0 ≤ index then (b : Int) + index else (vm.machine.slots.length : Int) + index + 1)
      = l.length) : setTop index vm = .ok () (vm.withSlots l) := by
  unfold setTop
  rw [bind_ok (base_eq hf)]
  simp only [getMachine, bind_apply, get_apply, pure_apply, htarget]
  rw [if_neg (by omega : ¬ (l.length : Int) < b)]
  simp only [modifyMachine, modify_apply, hs, Int.toNat_natCast, List.take_left,
    List.length_append]
  rw [show l.length - (l.length + r.length) = 0 by omega, List.replicate_zero, List.append_nil]
  rfl

/-- Going back to an earlier height drops what has come on top since. -/
theorem setTop_back (hf : vm.machine.frames = b :: fs) (hs : vm.machine.slots = l ++ r)
    (hb : b ≤ l.length) : setTop ((l.length : Int) - b) vm = .ok () (vm.withSlots l) := by
  refine setTop_within hf hs hb ?_
  rw [if_pos (by omega)]
  omega

/-- Dropping the slots behind `l`. -/
theorem pop_eq (hf : vm.machine.frames = b :: fs) (hs : vm.machine.slots = l ++ r)
    (hb : b ≤ l.length) : pop r.length vm = .ok () (vm.withSlots l) := by
  have hlen : vm.machine.slots.length = l.length + r.length := by rw [hs, List.length_append]
  unfold pop
  rw [bind_ok (getTop_eq hf), if_neg (by omega)]
  refine setTop_within hf hs hb ?_
  rw [if_neg (by omega), hlen]
  omega

theorem pop_one (hf : vm.machine.frames = b :: fs) (hs : vm.machine.slots = l ++ [v])
    (hb : b ≤ l.length) : pop 1 vm = .ok () (vm.withSlots l) :=
  pop_eq hf hs hb

/-- More than the frame has cannot be dropped. -/
theorem pop_short (hf : vm.machine.frames = b :: fs) {n : Int}
    (hn : (vm.machine.slots.length : Int) - b < n) :
    pop n vm = .error (.misuse (.cannotPop n ((vm.machine.slots.length : Int) - b))) vm := by
  unfold pop
  rw [bind_ok (getTop_eq hf), if_pos hn]
  rfl

-- =============================================================== indices

theorem valueAt?_registry (vm : Vm) :
    valueAt? registryIndex vm = .ok (some (.table vm.machine.registry)) vm := rfl

theorem valueAt?_pos (hf : vm.machine.frames = b :: fs) {i : Int} (hi : 0 < i) :
    valueAt? i vm = .ok vm.machine.slots[b + (i - 1).toNat]? vm := by
  unfold valueAt?
  rw [if_neg (by unfold registryIndex; omega), if_pos hi, bind_ok (base_eq hf)]
  rfl

/-- The value with some slots above it, by its index from the top. -/
theorem valueAt?_behind (hf : vm.machine.frames = b :: fs) (hs : vm.machine.slots = l ++ v :: r)
    (hb : b ≤ l.length) (hr : r.length < 1000999) :
    valueAt? (-(r.length : Int) - 1) vm = .ok (some v) vm := by
  have hlen : vm.machine.slots.length = l.length + (r.length + 1) := by
    rw [hs, List.length_append, List.length_cons]
  have hslot : slot (-(r.length : Int) - 1) vm = .ok l.length vm := by
    unfold slot
    rw [if_neg (by omega), if_pos (by unfold registryIndex; omega)]
    simp only [getMachine, bind_apply, get_apply, pure_apply, base_eq hf, hlen]
    rw [if_neg (by omega)]
    simp only [pure_apply]
    rw [show (((l.length + (r.length + 1) : Nat) : Int) + (-(r.length : Int) - 1)).toNat = l.length
      by omega]
  unfold valueAt?
  rw [if_neg (by unfold registryIndex; omega), if_neg (by omega), bind_ok hslot]
  simp only [getMachine, bind_apply, get_apply, pure_apply, hs]
  rw [List.getElem?_append_right (Nat.le_refl _), Nat.sub_self, List.getElem?_cons_zero]

/-- The index of that value that does not depend on what is above it. -/
theorem absIndex_behind (hf : vm.machine.frames = b :: fs)
    (hs : vm.machine.slots = l ++ v :: r) (hr : r.length < 1000999) :
    absIndex (-(r.length : Int) - 1) vm = .ok ((l.length : Int) - b + 1) vm := by
  have hlen : vm.machine.slots.length = l.length + (r.length + 1) := by
    rw [hs, List.length_append, List.length_cons]
  unfold absIndex
  rw [if_neg (by unfold registryIndex; omega), bind_ok (base_eq hf)]
  simp only [getMachine, bind_apply, get_apply, pure_apply, hlen]
  congr 1
  omega

/-- And what it says, whatever is above the value. -/
theorem valueAt?_abs (hf : vm.machine.frames = b :: fs) (hs : vm.machine.slots = l ++ v :: r)
    (hb : b ≤ l.length) : valueAt? ((l.length : Int) - b + 1) vm = .ok (some v) vm := by
  rw [valueAt?_pos hf (by omega), hs,
    show b + ((l.length : Int) - b + 1 - 1).toNat = l.length by omega,
    List.getElem?_append_right (Nat.le_refl _), Nat.sub_self, List.getElem?_cons_zero]

theorem valueAt?_second (hf : vm.machine.frames = b :: fs) (hs : vm.machine.slots = l ++ [v, w])
    (hb : b ≤ l.length) : valueAt? (-2) vm = .ok (some v) vm :=
  valueAt?_behind (r := [w]) hf hs hb (by simp)

theorem valueAt?_third (hf : vm.machine.frames = b :: fs)
    (hs : vm.machine.slots = l ++ [u, v, w]) (hb : b ≤ l.length) :
    valueAt? (-3) vm = .ok (some u) vm :=
  valueAt?_behind (r := [v, w]) hf hs hb (by simp)

theorem categoryOf_eq {c : Category} (hv : v.category? = some c) (vm : Vm) :
    categoryOf v vm = .ok c vm := by
  unfold categoryOf
  rw [hv]
  rfl

theorem categoryOf_stray (hv : v.category? = none) (vm : Vm) :
    categoryOf v vm = .error (.misuse (.cannotLive v.strayName)) vm := by
  unfold categoryOf
  rw [hv]
  rfl

theorem categoryAt_eq {i : Int} {c : Category} (hi : valueAt? i vm = .ok (some v) vm)
    (hv : v.category? = some c) : categoryAt i vm = .ok c vm := by
  unfold categoryAt
  rw [bind_ok hi]
  exact categoryOf_eq hv vm

theorem tableAt_eq {i : Int} {id : TableId} (hi : valueAt? i vm = .ok (some (.table id)) vm) :
    tableAt i vm = .ok id vm := by
  unfold tableAt
  rw [bind_ok hi]
  rfl

-- ================================================================= tables

/-- A heap with a table in place of another one, and other slots. -/
theorem store_eq {id : TableId} {k : Value} {t : Table} (hk : (vm.heap.table id).set k v = .ok t) :
    store id k v vm = .ok () { vm with heap := vm.heap.setTable id t } := by
  unfold store
  simp only [getHeap, bind_apply, get_apply, pure_apply, hk]
  rfl

theorem store_error {id : TableId} {k : Value} {f : KeyFault}
    (hk : (vm.heap.table id).set k v = .error f) :
    store id k v vm = .error (.misuse (.key f)) vm := by
  unfold store
  simp only [getHeap, bind_apply, get_apply, pure_apply, hk]
  rfl

/-- Storing the top under a key: the top goes first. -/
theorem setKey_apply {i : Int} {id : TableId} {k : Value} (hf : vm.machine.frames = b :: fs)
    (hs : vm.machine.slots = l ++ [v]) (hb : b ≤ l.length)
    (hi : valueAt? i vm = .ok (some (.table id)) vm) :
    setKey i k vm = store id k v (vm.withSlots l) := by
  unfold setKey
  rw [bind_ok (tableAt_eq hi), bind_ok (take_eq hf hs hb)]

/-- Storing the top under the key below it: both go first. -/
theorem rawSet_apply {i : Int} {id : TableId} (hf : vm.machine.frames = b :: fs)
    (hs : vm.machine.slots = l ++ [v, w]) (hb : b ≤ l.length)
    (hi : valueAt? i vm = .ok (some (.table id)) vm) :
    rawSet i vm = store id v w (vm.withSlots l) := by
  have hs' : vm.machine.slots = (l ++ [v]) ++ [w] := by rw [hs, List.append_assoc]; rfl
  have hb' : b ≤ (l ++ [v]).length := by rw [List.length_append]; omega
  have htake : take (vm.withSlots (l ++ [v])) = .ok v (vm.withSlots l) :=
    take_eq hf rfl hb
  unfold rawSet
  rw [bind_ok (tableAt_eq hi), bind_ok (take_eq hf hs' hb'), bind_ok htake]

theorem pushTable_eq (vm : Vm) :
    pushTable vm =
      .ok () { vm.withSlots (vm.machine.slots ++ [.table vm.heap.tables.size]) with
        heap := { vm.heap with tables := vm.heap.tables.push .empty } } := rfl

theorem pushFunction_eq (f : FunctionObject) (vm : Vm) :
    pushFunction f vm =
      .ok () { vm.withSlots (vm.machine.slots ++ [.function vm.heap.functions.size]) with
        heap := { vm.heap with functions := vm.heap.functions.push f } } := rfl

/-- The value under a key comes on top; its category is the answer. -/
theorem fetch_eq {id : TableId} {k : Value} {c c' : Category} (hk : k.category? = some c')
    (hv : ((vm.heap.table id).get k).category? = some c) :
    fetch id k vm =
      .ok c (vm.withSlots (vm.machine.slots ++ [(vm.heap.table id).get k])) := by
  unfold fetch
  rw [bind_ok (categoryOf_eq hk vm)]
  simp only [getHeap, bind_apply, get_apply, pure_apply, push_eq]
  exact categoryOf_eq hv _

/-- A stray under a key comes on top too, but has no category to answer. -/
theorem fetch_stray {id : TableId} {k : Value} {c' : Category} (hk : k.category? = some c')
    (hv : ((vm.heap.table id).get k).category? = none) :
    fetch id k vm =
      .error (.misuse (.cannotLive ((vm.heap.table id).get k).strayName))
        (vm.withSlots (vm.machine.slots ++ [(vm.heap.table id).get k])) := by
  unfold fetch
  rw [bind_ok (categoryOf_eq hk vm)]
  simp only [getHeap, bind_apply, get_apply, pure_apply, push_eq]
  exact categoryOf_stray hv _

theorem rawLength_table {i : Int} {id : TableId} (hi : valueAt? i vm = .ok (some (.table id)) vm) :
    rawLength i vm = .ok (vm.heap.table id).length vm := by
  unfold rawLength
  rw [bind_ok hi]
  rfl

/-- A traversal takes the key on top and looks at what comes after it. -/
theorem next_apply {i : Int} {id : TableId} (hf : vm.machine.frames = b :: fs)
    (hs : vm.machine.slots = l ++ [v]) (hb : b ≤ l.length) (hid : tableAt i vm = .ok id vm) :
    next i vm =
      (match (vm.heap.table id).next v with
      | .error (.key f) => fail (.key f)
      | .error .noPosition => fail .invalidNextKey
      | .ok none => return false
      | .ok (some (key, w)) => do
        push key.value
        push w
        return true) (vm.withSlots l) := by
  unfold next
  rw [bind_ok hid, bind_ok (take_eq hf hs hb)]
  rfl

/-- After the last entry nothing comes. -/
theorem next_done {i : Int} {id : TableId} (hf : vm.machine.frames = b :: fs)
    (hs : vm.machine.slots = l ++ [v]) (hb : b ≤ l.length) (hid : tableAt i vm = .ok id vm)
    (hnext : (vm.heap.table id).next v = .ok none) : next i vm = .ok false (vm.withSlots l) := by
  rw [next_apply hf hs hb hid, hnext]
  rfl

/-- Otherwise the next entry takes the place of the key. -/
theorem next_more {i : Int} {id : TableId} {e : Key × Value} (hf : vm.machine.frames = b :: fs)
    (hs : vm.machine.slots = l ++ [v]) (hb : b ≤ l.length) (hid : tableAt i vm = .ok id vm)
    (hnext : (vm.heap.table id).next v = .ok (some e)) :
    next i vm = .ok true (vm.withSlots (l ++ [e.1.value, e.2])) := by
  rw [next_apply hf hs hb hid, hnext]
  simp only [bind_apply, push_eq, pure_apply, withSlots_slots, withSlots_withSlots,
    List.append_assoc, List.cons_append, List.nil_append]

theorem getKey_apply {i : Int} {id : TableId} {k : Value}
    (hi : valueAt? i vm = .ok (some (.table id)) vm) : getKey i k vm = fetch id k vm := by
  unfold getKey
  rw [bind_ok (tableAt_eq hi)]

end Vm

end StackBridge
