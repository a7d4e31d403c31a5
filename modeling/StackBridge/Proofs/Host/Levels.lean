import StackBridge.Host.Value

/-!
How many levels of a host value a push or a read goes through: one for what has
no parts, and one more than for the deepest part otherwise. Unlike with
`HostValue.depth`, parts count only where there are any.
-/

namespace StackBridge

namespace HostValue

mutual

/-- The levels of a value. -/
def levels : HostValue → Nat
  | .sequence _ items => levelsList items + 1
  | .mapping _ entries => levelsEntries entries + 1
  | .record _ _ fields => levelsFields fields + 1
  | _ => 1

def levelsList : List HostValue → Nat
  | [] => 0
  | v :: vs => max (levels v) (levelsList vs)

def levelsEntries : List (HostValue × HostValue) → Nat
  | [] => 0
  | (k, v) :: es => max (max (levels k) (levels v)) (levelsEntries es)

def levelsFields : List (String × HostValue) → Nat
  | [] => 0
  | (_, v) :: fs => max (levels v) (levelsFields fs)

end

theorem levels_pos (v : HostValue) : 0 < v.levels := by
  cases v <;> exact Nat.succ_pos _

theorem levels_le_levelsList {vs : List HostValue} {v : HostValue} (hv : v ∈ vs) :
    v.levels ≤ levelsList vs := by
  induction vs with
  | nil => cases hv
  | cons w vs ih =>
      unfold levelsList
      rcases List.mem_cons.mp hv with rfl | hmem
      · exact Nat.le_max_left ..
      · exact Nat.le_trans (ih hmem) (Nat.le_max_right ..)

theorem levels_le_levelsEntries {es : List (HostValue × HostValue)} {e : HostValue × HostValue}
    (he : e ∈ es) : e.1.levels ≤ levelsEntries es ∧ e.2.levels ≤ levelsEntries es := by
  induction es with
  | nil => cases he
  | cons f es ih =>
      unfold levelsEntries
      rcases List.mem_cons.mp he with rfl | hmem
      · exact ⟨by omega, by omega⟩
      · have h := ih hmem
        exact ⟨by omega, by omega⟩

theorem levels_le_levelsFields {fs : List (String × HostValue)} {f : String × HostValue}
    (hf : f ∈ fs) : f.2.levels ≤ levelsFields fs := by
  induction fs with
  | nil => cases hf
  | cons g fs ih =>
      unfold levelsFields
      rcases List.mem_cons.mp hf with rfl | hmem
      · exact Nat.le_max_left ..
      · exact Nat.le_trans (ih hmem) (Nat.le_max_right ..)

theorem levelsEntries_le {es : List (HostValue × HostValue)} {n : Nat}
    (h : ∀ e ∈ es, e.1.levels ≤ n ∧ e.2.levels ≤ n) : levelsEntries es ≤ n := by
  induction es with
  | nil => exact Nat.zero_le n
  | cons e es ih =>
      have hhead := h e (List.mem_cons_self ..)
      unfold levelsEntries
      exact Nat.max_le.mpr
        ⟨Nat.max_le.mpr hhead, ih fun d hd => h d (List.mem_cons_of_mem _ hd)⟩

theorem levelsFields_le {fs : List (String × HostValue)} {n : Nat}
    (h : ∀ f ∈ fs, f.2.levels ≤ n) : levelsFields fs ≤ n := by
  induction fs with
  | nil => exact Nat.zero_le n
  | cons f fs ih =>
      unfold levelsFields
      exact Nat.max_le.mpr
        ⟨h f (List.mem_cons_self ..), ih fun g hg => h g (List.mem_cons_of_mem _ hg)⟩

end HostValue

end StackBridge
