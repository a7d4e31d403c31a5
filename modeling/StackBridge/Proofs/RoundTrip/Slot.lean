import StackBridge.Bridge.Read
import StackBridge.Proofs.RoundTrip.Push

/-!
Reading the slot that stands for a value. `At` says which value is at an index,
and `Reads` what is expected of reading it: the value up to the signs of zeros
if it nests less deeply than is read, and otherwise the fault of nesting too
deeply. Values without parts are read here.
-/

namespace StackBridge

-- ============================================================== known slots

namespace Vm

variable {vm : Vm} {i : Int} {v : Value}

theorem isInteger_int {n : Int} (hi : valueAt? i vm = .ok (some (.int n)) vm) :
    isInteger i vm = .ok true vm :=
  isInteger_eq hi

theorem toInteger_int {n : Int} (hi : valueAt? i vm = .ok (some (.int n)) vm) :
    toInteger i vm = .ok n vm :=
  toInteger_plain hi rfl

theorem toNumber_float {x : Double} (hi : valueAt? i vm = .ok (some (.float x)) vm) :
    toNumber i vm = .ok x vm :=
  toNumber_plain hi rfl

theorem toNumber_int {n : Int} {x : Double} (hi : valueAt? i vm = .ok (some (.int n)) vm)
    (hx : Double.ofInt? n = some x) : toNumber i vm = .ok x vm := by
  unfold toNumber
  rw [bind_ok hi]
  have hnumeral : numeralOf? (some (.int n)) = some (.int n) := rfl
  simp only [hnumeral, hx]
  rfl

theorem toBytes?_str {b : Bytes} (hi : valueAt? i vm = .ok (some (.str b)) vm) :
    toBytes? i vm = .ok (some b) vm :=
  toBytes?_plain hi rfl

/-- What is no guest has no host value of its own. -/
theorem guestAt?_none (hi : valueAt? i vm = .ok (some v) vm)
    (hv : vm.heap.hostValue? v = none) : guestAt? i vm = .ok none vm := by
  unfold guestAt?
  rw [bind_ok hi]
  show EStateM.Result.ok (vm.heap.hostValue? v) vm = _
  rw [hv]

end Vm

namespace Session

variable {enc : Encoding} {k : MachineId} {s t u : Session} {xs : List Value} {index : Int} {w : Value}

/-- The heap, the encoding and the report are as they were, and no reference has
been given out or given back. -/
structure Untouched (k : MachineId) (s t : Session) : Prop where
  heap : t.heap = s.heap
  encoding : t.encoding = s.encoding
  reports : t.reports = s.reports
  freeRefs : (t.machine k).freeRefs = (s.machine k).freeRefs

instance (k : MachineId) : SeesMemory k (Untouched k) where
  same he hr hh _ hf := ⟨hh, he, hr, hf⟩
  trans h h' :=
    ⟨h'.heap.trans h.heap, h'.encoding.trans h.encoding, h'.reports.trans h.reports,
      h'.freeRefs.trans h.freeRefs⟩

/-- Nothing has changed but for the values `xs` that have come on top. -/
abbrev Keeping (k : MachineId) : List Value → Session → Session → Prop := Leaves (Untouched k) k

theorem Keeping.adds (h : Keeping k xs s t) : Adds k xs s t :=
  ⟨h.slots, h.frames, h.registry, h.closed, h.size, h.rest.encoding,
    Nat.le_of_eq (by rw [h.rest.heap]), fun id _ => by rw [h.rest.heap], h.rest.freeRefs⟩

theorem Coded.during (hr : Coded enc k s) (h : Keeping k xs s t) : Coded enc k t :=
  ⟨by rw [h.size]; exact hr.machine, h.live hr.live, h.rest.encoding.trans hr.encoding⟩

theorem Ready.during (hr : Ready k s) (h : Keeping k xs s t) : Ready k t :=
  ⟨(hr.coded.during h).machine, (hr.coded.during h).live, (hr.coded.during h).encoding⟩

-- ================================================================= indices

/-- The value at an index of the running frame, counted from its base or, near
the top, from there. -/
structure At (k : MachineId) (s : Session) (index : Int) (w : Value) : Prop where
  place : ∃ l r b fs, (s.machine k).slots = l ++ w :: r ∧ (s.machine k).frames = b :: fs
    ∧ b ≤ l.length ∧ (index = (l.length : Int) - b + 1
      ∨ r.length < 1000999 ∧ index = -(r.length : Int) - 1)

theorem At.value (h : At k s index w) :
    Vm.valueAt? index (s.vm k) = .ok (some w) (s.vm k) := by
  obtain ⟨l, r, b, fs, hs, hf, hb, rfl | ⟨hr, rfl⟩⟩ := h.place
  · exact Vm.valueAt?_abs hf hs hb
  · exact Vm.valueAt?_behind hf hs hb hr

/-- An index that keeps its meaning while values come on top. -/
theorem At.abs (h : At k s index w) :
    ∃ i, onMachine k (Vm.absIndex index) s = .ok i s
      ∧ ∀ {R : Session → Session → Prop} xs t, Leaves R k xs s t →
        Vm.valueAt? i (t.vm k) = .ok (some w) (t.vm k) := by
  obtain ⟨l, r, b, fs, hs, hf, hb, hindex⟩ := h.place
  have habs : Vm.absIndex index (s.vm k) = .ok ((l.length : Int) - b + 1) (s.vm k) := by
    rcases hindex with rfl | ⟨hr, rfl⟩
    · unfold Vm.absIndex
      rw [if_pos (by omega)]
      rfl
    · exact Vm.absIndex_behind hf hs hr
  refine ⟨_, onMachine_look habs, fun {R} xs t ht => ?_⟩
  refine Vm.valueAt?_abs (r := r ++ xs) (ht.frames.trans hf) ?_ hb
  show (t.machine k).slots = _
  rw [ht.slots, hs, List.append_assoc]
  rfl

/-- The value that has come last. -/
theorem at_top {R : Session → Session → Prop} (xs : List Value) (hl : (s.machine k).Live)
    (h : Leaves R k (xs ++ [w]) s t) : At k t (-1) w := by
  obtain ⟨_, b, fs, hf, hb⟩ := hl
  refine ⟨(s.machine k).slots ++ xs, [], b, fs, ?_, h.frames.trans hf, ?_, Or.inr ⟨by decide, rfl⟩⟩
  · rw [h.slots, List.append_assoc]
  · rw [List.length_append]
    omega

/-- The value below it. -/
theorem at_second {R : Session → Session → Prop} {v : Value} (hl : (s.machine k).Live)
    (h : Leaves R k [w, v] s t) : At k t (-2) w := by
  obtain ⟨_, b, fs, hf, hb⟩ := hl
  exact ⟨(s.machine k).slots, [v], b, fs, h.slots, h.frames.trans hf, hb,
    Or.inr ⟨by simp, rfl⟩⟩

end Session

namespace Bridge

open Session

variable {enc : Encoding} {ctx : Context} {k : MachineId} {s s₀ t : Session} {index : Int}
  {w : Value} {depth : Nat}

/-- The fault of nesting too deeply. -/
abbrev tooDeep : Stop := .failed (.host .tooDeep)

/-- Reading answers a value up to the signs of zeros, if it does not have more
levels than are read; otherwise it stops for that reason. -/
def Reads (k : MachineId) (depth : Nat) (a : Action HostValue) (v : HostValue) (s : Session) :
    Prop :=
  Ends (a s) (fun v' t => v.levels ≤ depth ∧ v'.canonical = v.canonical ∧ Keeping k [] s t)
    fun e t => (depth < v.levels ∧ e = tooDeep) ∧ Keeping k [] s t

theorem reads_ok {a : Action HostValue} {v v' : HostValue} (ha : a s = .ok v' t)
    (hlevels : v.levels ≤ depth) (hv : v'.canonical = v.canonical) (ht : Keeping k [] s t) :
    Reads k depth a v s := by
  unfold Reads
  rw [ha]
  exact ⟨hlevels, hv, ht⟩

/-- Reading the top and popping it, where more may have changed before. -/
theorem popping_reads {R : Session → Session → Prop} [SeesMemory k R] {read : Action HostValue}
    {v : HostValue} (hR : ∀ {u}, Keeping k [] t u → Leaves R k [] t u) (hr : Coded enc k s)
    (h : Leaves R k [w] s t) (hread : Reads k depth read v t) :
    Ends (popping k read t)
      (fun v' u => v.levels ≤ depth ∧ v'.canonical = v.canonical ∧ Leaves R k [] s u)
      fun e u => (depth < v.levels ∧ e = tooDeep) ∧ Leaves R k [w] s u := by
  refine Ends.bind (hread.mono (fun _ _ h => h) ?_) ?_
  · rintro e u ⟨he, hu⟩
    exact ⟨he, h.trans (hR hu)⟩
  · rintro v' u ⟨hlevels, hv, hu⟩
    obtain ⟨x, hpop, hx⟩ := Leaves.pop [] (h.trans (hR hu)) hr.machine hr.live
    rw [bind_ok hpop]
    exact ⟨hlevels, hv, hx⟩

-- ============================================================ plain shapes

/-- What is no guest is read as what it is. -/
theorem guestOr_eq (hi : Vm.valueAt? index (s.vm k) = .ok (some w) (s.vm k))
    (hw : s.heap.hostValue? w = none) (v : HostValue) : guestOr k index v s = .ok v s := by
  unfold guestOr
  rw [bind_ok (onMachine_look (Vm.guestAt?_none hi hw))]
  rfl

theorem readBoolean_eq {b : Bool} (h : At k s index (.bool b)) :
    readBoolean k index ⟨.cls (.boolean false), .boolean⟩ s = .ok (.bool b) s := by
  unfold readBoolean
  rw [bind_ok (onMachine_look (Vm.toBoolean_eq h.value))]
  rfl

/-- An integer is read as the one of its class with that number. -/
theorem readInteger_eq {kind : IntegerKind} {n : Int} (h : At k s index (.int n))
    (hclass : ctx.classes.ofInteger (.integer kind) n = .ok (.integer kind n)) :
    readInteger ctx k index ⟨.cls (.integer kind), .integer⟩ s = .ok (.integer kind n) s := by
  have hguest := guestOr_eq h.value rfl (.int n)
  unfold readInteger
  rw [bind_ok (onMachine_look (Vm.isInteger_int h.value))]
  simp only [if_true]
  rw [bind_ok (onMachine_look (Vm.toInteger_int h.value)), bind_ok hguest]
  have hclassed : asInteger ctx ⟨.cls (.integer kind), .integer⟩ (.int n) s
      = ofHost (ctx.classes.ofInteger (.integer kind) n) s := by
    cases kind <;> rfl
  show asInteger ctx ⟨.cls (.integer kind), .integer⟩ (.int n) s = _
  rw [hclassed, hclass]
  rfl

/-- A float is read from a float or from the integer that it is. -/
theorem readFloat_eq {x y : Double} (hx : x.isNaN = false) (hy : y.canonical = x.canonical)
    (hnumber : onMachine k (Vm.toNumber index) s = .ok y s) :
    readFloat k index ⟨.cls (.float .plain), .float⟩ s = .ok (.float .plain y) s := by
  have hnan : y.isNaN = false := by
    rw [← Double.canonical_isNaN, hy, Double.canonical_isNaN]
    exact hx
  unfold readFloat
  rw [bind_ok hnumber]
  show (individualFloat y >>= fun z => pure (HostValue.float .plain z)) s = _
  rw [bind_ok (individualFloat_ok hnan s)]
  rfl

theorem readBytes_str {b : Bytes} (h : At k s index (.str b)) :
    readBytes k index s = .ok b s := by
  unfold readBytes
  rw [bind_ok (onMachine_look (Vm.toBytes?_str h.value))]
  rfl

theorem readText_eq {x : String} {b : Bytes} (h : At k s index (.str b))
    (hx : s.encoding.encode x = .ok b) :
    readBuffer k index ⟨.cls (.text .plain), .buffer⟩ s = .ok (.str x) s := by
  have htext : decodeText b s = .ok x s := by
    unfold decodeText
    rw [bind_ok (get_apply s), Encoding.decode_encode hx]
    rfl
  unfold readBuffer
  rw [bind_ok (readBytes_str h)]
  show (decodeText b >>= fun t => pure (HostValue.text .plain t)) s = _
  rw [bind_ok htext]
  rfl

theorem readBuffer_eq {kind : BytesKind} {b : Bytes} (h : At k s index (.str b))
    (hkind : kind = .plain ∨ kind = .array) :
    readBuffer k index ⟨.cls (.bytes kind), .buffer⟩ s = .ok (.bytes kind b) s := by
  unfold readBuffer
  rw [bind_ok (readBytes_str h)]
  rcases hkind with rfl | rfl
  · exact guestOr_eq h.value rfl _
  · rfl

end Bridge

end StackBridge
