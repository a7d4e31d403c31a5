import StackBridge.Proofs.Host.Equal
import StackBridge.Proofs.RoundTrip.Value
import StackBridge.Session.Run

/-!
The round trip: a value that is pushed as what it is comes back from a pop.
Reads stop at fewer levels than pushes, so there are values that can be pushed
but not popped, and the number of levels decides it exactly.
-/

namespace StackBridge

namespace Bridge

open Session

variable {ctx : Context} {k : MachineId} {s : Session} {v : HostValue} {t u : TypeExpr}

-- ================================================================== trees

/-- A tree is a record of the list of its subtrees. -/
def trees : Context :=
  ⟨[.record "Tree" false [⟨"kids", some (.text "list[Tree]"), .required, true⟩]],
    ⟨[], 1, true, #[], #[], 0⟩⟩

/-- A tree that branches into a single subtree `n` times in a row. -/
def tree : Nat → HostValue
  | 0 => .record "Tree" false [("kids", .list [])]
  | n + 1 => .record "Tree" false [("kids", .list [tree n])]

theorem hint_trees :
    trees.classes.hint (.text "list[Tree]")
      = .ok (.generic (.sequence .list) [.cls (.record "Tree")]) := by
  have h : (trees.classes.hint (.text "list[Tree]")).toOption
      = some (.generic (.sequence .list) [.cls (.record "Tree")]) := by decide +kernel
  cases hhint : trees.classes.hint (.text "list[Tree]") with
  | error f =>
      rw [hhint] at h
      cases h
  | ok t =>
      rw [hhint] at h
      exact congrArg Except.ok (Option.some.inj h)

theorem fields_trees :
    trees.classes.fields "Tree"
      = [⟨"kids", some (.text "list[Tree]"), .required, true⟩] :=
  rfl

theorem supports_trees : trees.classes.Supports (.cls (.record "Tree")) := by
  refine ⟨(· = "Tree"), fun name hname => ?_, .record rfl⟩
  subst hname
  refine ⟨?_, ?_, ?_⟩ <;> rw [fields_trees]
  · exact List.nodup_singleton _
  · intro f hf
    rw [List.mem_singleton.mp hf]
  · intro f hf
    rw [List.mem_singleton.mp hf]
    exact ⟨_, _, rfl, hint_trees, .list (.record rfl)⟩

theorem hinted_trees :
    hintedFields trees.classes "Tree"
      = .ok [(⟨"kids", some (.text "list[Tree]"), .required, true⟩,
          .generic (.sequence .list) [.cls (.record "Tree")])] := by
  unfold hintedFields Classes.hints
  rw [fields_trees, List.filterMap_cons]
  simp only [Option.map_some]
  rw [List.mapM_cons, hint_trees]
  rfl

theorem fits_trees {vs : List HostValue}
    (h : ∀ v ∈ vs, Fits trees.classes v (.cls (.record "Tree"))) :
    Fits trees.classes (.record "Tree" false [("kids", .list vs)]) (.cls (.record "Tree")) := by
  have htuple : trees.classes.isTuple "Tree" = false := rfl
  rw [← htuple]
  refine .record hinted_trees rfl fun p hp => ?_
  rw [List.mem_singleton.mp hp]
  exact .list h

theorem fits_tree (n : Nat) : Fits trees.classes (tree n) (.cls (.record "Tree")) := by
  induction n with
  | zero => exact fits_trees fun v hv => absurd hv List.not_mem_nil
  | succ n ih =>
      refine fits_trees fun v hv => ?_
      rw [List.mem_singleton.mp hv]
      exact ih

theorem levels_tree (n : Nat) : (tree n).levels = 2 * n + 2 := by
  induction n with
  | zero => rfl
  | succ n ih =>
      show max (max (tree n).levels 0 + 1) 0 + 1 = _
      omega

-- ============================================================= there and back

/-- A value of a supported type can be pushed, as that type or without one, and
then it is popped as what it was or found to nest too deeply. -/
theorem pushValue_popValue {enc : Encoding} (hr : Coded enc k s) (ht : ctx.classes.Supports t)
    (hv : Fits ctx.classes v t) (hw : Written enc v) (hlevels : v.levels ≤ pushLimit)
    (hu : u = .none ∨ u = t) :
    ∃ w s₁, pushValue ctx k v u s = .ok () s₁ ∧ Adds k [w] s s₁
      ∧ ∀ run handler fuel, sizeOf v ≤ fuel →
        Ends (popValue ctx run fuel k handler t s₁)
          (fun v' s₂ => v.levels ≤ readLimit ∧ v'.canonical = v.canonical ∧ Adds k [] s s₂)
          fun e s₂ => (readLimit < v.levels ∧ e = tooDeep) ∧ Adds k [w] s s₂ := by
  obtain ⟨R, hopens, hbuilt⟩ := ht
  obtain ⟨w, s₁, hpush, hadds, hheld, _⟩ :=
    pushAs_stores hopens pushLimit hbuilt hv hw hu hlevels s hr
  refine ⟨w, s₁, hpush, hadds, fun run handler fuel hfuel => ?_⟩
  have hread : Reads k readLimit (readValue ctx run fuel k handler (-1) t) v s₁ :=
    readAs_reads hopens readLimit hbuilt hv hfuel w s₁ (hr.after hadds) (at_top [] hr.live hadds)
      (hheld.mono (.refl _ _) (Nat.zero_le _))
  exact popping_reads Keeping.adds hr hadds hread

/-- A value that nests more deeply than is read, but not more deeply than is
pushed, stays where it has been pushed. -/
theorem popValue_tooDeep (hk : k < s.machines.size) (hl : (s.machine k).Live)
    (hs : s.encoding = .utf8) (ht : ctx.classes.Supports t) (hv : Fits ctx.classes v t)
    (hdeep : readLimit < v.levels) (hlevels : v.levels ≤ pushLimit) (hu : u = .none ∨ u = t) :
    ∃ s₁, pushValue ctx k v u s = .ok () s₁
      ∧ ∀ run handler fuel, sizeOf v ≤ fuel →
        ∃ s₂, popValue ctx run fuel k handler t s₁ = .error tooDeep s₂
          ∧ (s₂.machine k).slots = (s₁.machine k).slots
          ∧ (s₂.machine k).frames = (s₁.machine k).frames := by
  obtain ⟨w, s₁, hpush, hpushed, hpops⟩ := pushValue_popValue ⟨hk, hl, hs⟩ ht hv hv.written hlevels hu
  refine ⟨s₁, hpush, fun run handler fuel hfuel => ?_⟩
  have hpop := hpops run handler fuel hfuel
  cases hresult : popValue ctx run fuel k handler t s₁ with
  | ok v' s₂ =>
      rw [hresult] at hpop
      exact absurd hpop.1 (Nat.not_le.mpr hdeep)
  | error e s₂ =>
      rw [hresult] at hpop
      obtain ⟨⟨_, rfl⟩, hadds⟩ := hpop
      exact ⟨s₂, rfl, hadds.slots.trans hpushed.slots.symm,
        hadds.frames.trans hpushed.frames.symm⟩

end Bridge

end StackBridge
