import StackBridge.Machine.Basic
import StackBridge.Machine.Frames
import Mathlib.Data.List.Infix
import Mathlib.Order.Defs.Unbundled

/-!
Frames on a stack. A machine is `Framed` when it has a frame and the bases of
its frames, from the running one outwards, never increase and begin within the
stack; that is the invariant of every machine that has not been closed.

What an operation in the running frame may do to a machine is `Confines`: the
frames stay, and so does every slot below the base of the running one. `Within`
is what holds at any moment on the way, when further frames may be on top.
Closing a machine ends all promises, and nothing opens it again.
-/

namespace StackBridge

namespace Machine

-- ============================================================= the invariant

/-- The base of the running frame. -/
def baseOf (m : Machine) : Nat := m.frames.headD 0

/-- There is a frame, and the bases never increase from the top of the stack
over the running frame outwards. -/
def Framed (m : Machine) : Prop :=
  m.frames ≠ [] ∧ (m.slots.length :: m.frames).Pairwise (· ≥ ·)

namespace Framed

variable {m : Machine}

theorem frames_eq (h : m.Framed) : ∃ fs, m.frames = m.baseOf :: fs := by
  obtain ⟨hne, _⟩ := h
  unfold baseOf
  cases hf : m.frames with
  | nil => exact absurd hf hne
  | cons b fs => exact ⟨fs, rfl⟩

theorem base_le (h : m.Framed) : m.baseOf ≤ m.slots.length := by
  obtain ⟨fs, hf⟩ := h.frames_eq
  have hall := (List.pairwise_cons.mp h.2).1
  exact hall m.baseOf (by rw [hf]; exact List.mem_cons_self ..)

/-- No frame begins above the running one. -/
theorem le_base (h : m.Framed) {b : Nat} (hb : b ∈ m.frames) : b ≤ m.baseOf := by
  obtain ⟨fs, hf⟩ := h.frames_eq
  have hpair := (List.pairwise_cons.mp h.2).2
  rw [hf] at hpair hb
  rcases List.mem_cons.mp hb with rfl | hmem
  · exact Nat.le_refl _
  · exact (List.pairwise_cons.mp hpair).1 b hmem

/-- The slots may be others as long as they reach up to the running frame. -/
theorem withSlots (h : m.Framed) {l : List Value} (hl : m.baseOf ≤ l.length) :
    ({ m with slots := l } : Machine).Framed := by
  refine ⟨h.1, List.pairwise_cons.mpr ⟨fun b hb => ?_, (List.pairwise_cons.mp h.2).2⟩⟩
  exact Nat.le_trans (h.le_base hb) hl

/-- A further frame may begin anywhere from the running one's base on. -/
theorem enter (h : m.Framed) {b : Nat} (hb : m.baseOf ≤ b) (hl : b ≤ m.slots.length) :
    ({ m with frames := b :: m.frames } : Machine).Framed := by
  have hpair := (List.pairwise_cons.mp h.2).2
  refine ⟨List.cons_ne_nil _ _, List.pairwise_cons.mpr ⟨fun b' hb' => ?_, ?_⟩⟩
  · rcases List.mem_cons.mp hb' with rfl | hmem
    · exact hl
    · exact Nat.le_trans (h.le_base hmem) (Nat.le_trans hb hl)
  · exact List.pairwise_cons.mpr ⟨fun b' hb' => Nat.le_trans (h.le_base hb') hb, hpair⟩

/-- Outer frames begin no later than the running one. -/
theorem base_le_of_suffix (h : m.Framed) {fs : List Nat} (hs : fs <:+ m.frames) :
    fs.headD 0 ≤ m.baseOf := by
  cases fs with
  | nil => exact Nat.zero_le _
  | cons b fs => exact h.le_base (hs.subset (List.mem_cons_self ..))

end Framed

theorem fresh_framed (registry : TableId) : (fresh registry).Framed :=
  ⟨List.cons_ne_nil _ _, by simp [fresh]⟩

-- ============================================================== the relations

/-- From `m` to a machine with the same frames and perhaps further ones on
top, on which the slots below the frame running in `m` are the same. -/
structure Within (m m' : Machine) : Prop where
  opened : m'.closed = false → m.closed = false
  framed : m'.closed = false → m.Framed → m'.Framed
  frames : m'.closed = false → m.Framed → m.frames <:+ m'.frames
  slots : m'.closed = false → m.Framed → m'.slots.take m.baseOf = m.slots.take m.baseOf

/-- From `m` to a machine with the same frames, on which the slots below the
running one are the same. -/
structure Confines (m m' : Machine) : Prop where
  opened : m'.closed = false → m.closed = false
  framed : m'.closed = false → m.Framed → m'.Framed
  frames : m'.closed = false → m.Framed → m'.frames = m.frames
  slots : m'.closed = false → m.Framed → m'.slots.take m.baseOf = m.slots.take m.baseOf

variable {m m' m'' : Machine}

theorem Within.refl (m : Machine) : Within m m :=
  ⟨fun h => h, fun _ h => h, fun _ _ => List.suffix_refl _, fun _ _ => rfl⟩

theorem Within.trans (h : Within m m') (h' : Within m' m'') : Within m m'' where
  opened hc := h.opened (h'.opened hc)
  framed hc hm := h'.framed hc (h.framed (h'.opened hc) hm)
  frames hc hm :=
    (h.frames (h'.opened hc) hm).trans (h'.frames hc (h.framed (h'.opened hc) hm))
  slots hc hm := by
    have hm' := h.framed (h'.opened hc) hm
    have hle : m.baseOf ≤ m'.baseOf := hm'.base_le_of_suffix (h.frames (h'.opened hc) hm)
    have hslots := congrArg (List.take m.baseOf) (h'.slots hc hm')
    rw [List.take_take, List.take_take, Nat.min_eq_left hle] at hslots
    exact hslots.trans (h.slots (h'.opened hc) hm)

theorem Confines.within (h : Confines m m') : Within m m' where
  opened := h.opened
  framed := h.framed
  frames hc hm := by rw [h.frames hc hm]
  slots := h.slots

theorem Confines.refl (m : Machine) : Confines m m :=
  ⟨fun h => h, fun _ h => h, fun _ _ => rfl, fun _ _ => rfl⟩

theorem Confines.trans (h : Confines m m') (h' : Confines m' m'') : Confines m m'' where
  opened hc := h.opened (h'.opened hc)
  framed hc hm := h'.framed hc (h.framed (h'.opened hc) hm)
  frames hc hm :=
    (h'.frames hc (h.framed (h'.opened hc) hm)).trans (h.frames (h'.opened hc) hm)
  slots := (h.within.trans h'.within).slots

/-- The second step need only be confined where the first one promised
anything. -/
theorem Confines.trans_of (h : Confines m m') (hc : m''.closed = false → m'.closed = false)
    (h' : m'.closed = false → m.Framed → Confines m' m'') : Confines m m'' where
  opened hc'' := h.opened (hc hc'')
  framed hc'' hm := (h.trans (h' (hc hc'') hm)).framed hc'' hm
  frames hc'' hm := (h.trans (h' (hc hc'') hm)).frames hc'' hm
  slots hc'' hm := (h.trans (h' (hc hc'') hm)).slots hc'' hm

/-- Neither slots nor frames have changed. -/
theorem Confines.of_same (hs : m'.slots = m.slots) (hf : m'.frames = m.frames)
    (hc : m'.closed = m.closed) : Confines m m' where
  opened h := hc.symm.trans h
  framed _ hm := by
    unfold Framed at hm ⊢
    rw [hs, hf]
    exact hm
  frames _ _ := hf
  slots _ _ := by rw [hs]

/-- A closed machine promises nothing. -/
theorem Confines.of_closed (h : m'.closed = true) : Confines m m' := by
  refine ⟨?_, ?_, ?_, ?_⟩ <;>
    · intro hc
      rw [h] at hc
      cases hc

/-- Only the slots have changed, and none below the running frame. -/
theorem Confines.of_slots {l : List Value}
    (h : m.Framed → m.baseOf ≤ l.length ∧ l.take m.baseOf = m.slots.take m.baseOf) :
    Confines m { m with slots := l } where
  opened hc := hc
  framed _ hm := hm.withSlots (h hm).1
  frames _ _ := rfl
  slots _ hm := (h hm).2

/-- What stays of a stack that has been cut at or above the running frame and
filled up again. -/
theorem Confines.of_take {n : Nat} (hn : m.Framed → m.baseOf ≤ n) (l : List Value) :
    Confines m { m with slots := m.slots.take n ++ l } := by
  refine Confines.of_slots fun hm => ?_
  have hlen : m.baseOf ≤ (m.slots.take n).length := by
    rw [List.length_take]
    exact Nat.le_min.mpr ⟨hn hm, hm.base_le⟩
  refine ⟨?_, ?_⟩
  · rw [List.length_append]
    omega
  · rw [List.take_append_of_le_length hlen, List.take_take, Nat.min_eq_left (hn hm)]

/-- What an operation in a further frame leaves: that frame on top of the ones
there were, and under it the slots there were. -/
theorem Confines.entered {b : Nat} (hbase : m.baseOf ≤ b) (hb : b ≤ m.slots.length)
    (h : Confines { m with frames := b :: m.frames } m') (hc : m'.closed = false)
    (hm : m.Framed) :
    m'.frames = b :: m.frames ∧ b ≤ m'.slots.length
      ∧ m'.slots.take b = m.slots.take b := by
  have hentered := hm.enter hbase hb
  have hframes := h.frames hc hentered
  refine ⟨hframes, ?_, h.slots hc hentered⟩
  have hle := (h.framed hc hentered).base_le
  unfold baseOf at hle
  rw [hframes] at hle
  exact hle

end Machine

end StackBridge
