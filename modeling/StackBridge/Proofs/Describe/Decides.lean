import StackBridge.Proofs.Describe.Transparent

/-!
What describing a type decides when nothing has been described before: whether
the type and everything that it reaches check. The check is written here once
more as a search without any depth (`Concludes`): a type is passed because it is
noted, or it is refused, or what is inside it is searched with the type noted. A
search that concludes is finite, and it concludes in one way
(`Concludes.unique`).

Opening classes to the depth that describing allows is such a search
(`visit_concludes`): a class that is noted is not opened again, so the depth is
never what ends it.
-/

namespace StackBridge

namespace Bridge

open Session TypeExpr

variable {cs : Classes} {operation : String} {t u : TypeExpr}

-- ================================================================== search

/-- How a search ends, with what is noted then. -/
abbrev Conclusion := EStateM.Result Failure (List TypeExpr) Unit

/-- A type that is not searched: it has been described before, or it is noted. -/
def Passed (noted : List TypeExpr) (t : TypeExpr) : Prop :=
  (∃ a, t = .described a) ∨ (t.isHashable = true ∧ t ∈ noted)

/-- What is noted while a type is searched. -/
def notedWithin (t : TypeExpr) (noted : List TypeExpr) : List TypeExpr :=
  if t.isHashable then t :: noted else noted

/-- What is noted when the search of a type has failed. -/
def notedBeyond (t : TypeExpr) (noted : List TypeExpr) (f : Failure) : List TypeExpr :=
  if t.isHashable then notedAfter t noted f else noted

/-- The search through types, one after the other until one fails, concludes in
finitely many steps. -/
inductive Concludes (cs : Classes) (operation : String) :
    Except HostFault (List TypeExpr) → List TypeExpr → Conclusion → Prop
  | unnamed (f : HostFault) (noted : List TypeExpr) :
      Concludes cs operation (.error f) noted (.error (.host f) noted)
  | nil (noted : List TypeExpr) : Concludes cs operation (.ok []) noted (.ok () noted)
  | passed {t : TypeExpr} {ts noted : List TypeExpr} {r : Conclusion} (known : Passed noted t)
      (rest : Concludes cs operation (.ok ts) noted r) :
      Concludes cs operation (.ok (t :: ts)) noted r
  | refused {t : TypeExpr} {ts noted : List TypeExpr} (new : ¬ Passed noted t)
      (shape : t.hostType? = Option.none) :
      Concludes cs operation (.ok (t :: ts)) noted
        (.error (.unsupported t.refusalName operation) noted)
  | searched {t : TypeExpr} {ts noted noted' : List TypeExpr} {r : Conclusion}
      (new : ¬ Passed noted t) (shape : t.hostType?.isSome)
      (inside : Concludes cs operation (nested cs t) (notedWithin t noted) (.ok () noted'))
      (rest : Concludes cs operation (.ok ts) noted' r) :
      Concludes cs operation (.ok (t :: ts)) noted r
  | failed {t : TypeExpr} {ts noted noted' : List TypeExpr} {f : Failure}
      (new : ¬ Passed noted t) (shape : t.hostType?.isSome)
      (inside : Concludes cs operation (nested cs t) (notedWithin t noted) (.error f noted')) :
      Concludes cs operation (.ok (t :: ts)) noted (.error f (notedBeyond t noted' f))

/-- A search concludes in one way only. -/
theorem Concludes.unique {us : Except HostFault (List TypeExpr)} {noted : List TypeExpr}
    {r r' : Conclusion} (h : Concludes cs operation us noted r)
    (h' : Concludes cs operation us noted r') : r = r' := by
  induction h generalizing r' with
  | unnamed f noted =>
      cases h'
      rfl
  | nil noted =>
      cases h'
      rfl
  | passed known _ ih =>
      cases h' with
      | passed _ rest' => exact ih rest'
      | refused new | searched new | failed new => exact absurd known new
  | refused new shape =>
      cases h' with
      | passed known => exact absurd known new
      | refused => rfl
      | searched _ shape' | failed _ shape' =>
          rw [shape] at shape'
          cases shape'
  | searched new shape _ _ ih ihrest =>
      cases h' with
      | passed known => exact absurd known new
      | refused _ shape' =>
          rw [shape'] at shape
          cases shape
      | searched _ _ inside' rest' =>
          cases ih inside'
          exact ihrest rest'
      | failed _ _ inside' => cases ih inside'
  | failed new shape _ ih =>
      cases h' with
      | passed known => exact absurd known new
      | refused _ shape' =>
          rw [shape'] at shape
          cases shape
      | searched _ _ inside' _ => cases ih inside'
      | failed _ _ inside' =>
          cases ih inside'
          rfl

-- ==================================================================== depth

theorem visit_passed {depth : Nat} {noted : List TypeExpr} (h : Passed noted t) :
    visit cs operation depth t noted = .ok () noted := by
  rcases visit_cases cs operation depth t with ⟨heq, _⟩ | ⟨heq, _⟩
  · rw [heq]
    rfl
  · rcases h with ⟨a, rfl⟩ | ⟨hhash, hmem⟩
    · rfl
    · rw [heq, enrol_noted hhash hmem]

theorem visit_refused {depth : Nat} {noted : List TypeExpr} (hnew : ¬ Passed noted t)
    (hshape : t.hostType? = Option.none) :
    visit cs operation depth t noted = .error (.unsupported t.refusalName operation) noted := by
  rw [visit_eq depth fun a ha => hnew (Or.inl ⟨a, ha⟩)]
  exact enrol_refused (fun hhash hmem => hnew (Or.inr ⟨hhash, hmem⟩)) hshape

theorem visit_searched {depth : Nat} {noted : List TypeExpr} (hnew : ¬ Passed noted t)
    (hshape : t.hostType?.isSome) :
    visit cs operation depth t noted =
      match visitInside cs operation depth t (notedWithin t noted) with
      | .ok _ noted' => .ok () noted'
      | .error f noted' => .error f (notedBeyond t noted' f) := by
  rw [visit_eq depth fun a ha => hnew (Or.inl ⟨a, ha⟩)]
  unfold notedWithin notedBeyond
  cases hhash : t.isHashable with
  | false =>
      simp only [enrol_unhashable hhash hshape, Bool.false_eq_true, if_false]
      cases visitInside cs operation depth t noted <;> rfl
  | true => exact enrol_hashable hhash (fun hmem => hnew (Or.inr ⟨hhash, hmem⟩)) hshape

/-- Checking, where the depth suffices for the classes that are not noted, is a
search that concludes. -/
def Searches (cs : Classes) (operation : String) (depth : Nat) (ts : List TypeExpr)
    (a : Describing Unit) : Prop :=
  ∀ noted, unopened cs noted ≤ depth → Concludes cs operation (.ok ts) noted (a noted)

theorem searches_visitAll {depth : Nat} {ts : List TypeExpr}
    (h : ∀ t ∈ ts, Searches cs operation depth [t] (visit cs operation depth t)) :
    Searches cs operation depth ts (visitAll cs operation depth ts) := by
  induction ts with
  | nil => exact fun noted _ => .nil noted
  | cons t ts ih =>
      intro noted hdepth
      have hfirst := h t List.mem_cons_self noted hdepth
      have hwidens := visit_widens cs operation depth t noted
      have hrest := ih fun u hu => h u (List.mem_cons_of_mem t hu)
      rw [visitAll_cons, bind_apply]
      cases hr : visit cs operation depth t noted with
      | ok _ noted' =>
          rw [hr] at hfirst hwidens
          have hrest' := hrest noted' (Nat.le_trans (unopened_anti hwidens.kept) hdepth)
          cases hfirst with
          | passed known rest =>
              cases rest
              exact .passed known hrest'
          | searched new shape inside rest =>
              cases rest
              exact .searched new shape inside hrest'
      | error f noted' =>
          rw [hr] at hfirst
          cases hfirst with
          | passed _ rest | searched _ _ _ rest => cases rest
          | refused new shape => exact .refused new shape
          | failed new shape inside => exact .failed new shape inside

/-- The depth leaves out nothing inside a type that is new. -/
theorem visitInside_concludes {depth : Nat} {noted : List TypeExpr}
    (h : ∀ us, followed cs depth t = .ok us → ∀ u ∈ us,
      Searches cs operation (depthInside depth t) [u] (visit cs operation (depthInside depth t) u))
    (hdepth : unopened cs noted ≤ depth) (hnew : ¬ Passed noted t) :
    Concludes cs operation (nested cs t) (notedWithin t noted)
      (visitInside cs operation depth t (notedWithin t noted)) := by
  unfold visitInside
  cases hfollowed : followed cs depth t with
  | error f =>
      have hnested : nested cs t = .error f := by
        unfold followed at hfollowed
        split at hfollowed
        · cases hfollowed
        · exact hfollowed
      rw [hnested]
      exact .unnamed f _
  | ok us =>
      have hkept : noted ⊆ notedWithin t noted := by
        unfold notedWithin
        split
        · exact List.subset_cons_self t noted
        · exact List.Subset.refl noted
      have hmem : t.isHashable = true → t ∈ notedWithin t noted := by
        intro hhash
        rw [notedWithin, if_pos hhash]
        exact List.mem_cons_self
      obtain ⟨hnested, hfew⟩ := followed_eq hdepth
        (fun hhash hmem => hnew (Or.inr ⟨hhash, hmem⟩)) hkept hmem hfollowed
      rw [hnested]
      rcases hfew with rfl | hfew
      · exact .nil _
      · exact searches_visitAll (h us hfollowed) _ hfew

/-- Where the depth suffices, checking is a search that concludes. -/
theorem visit_concludes (cs : Classes) (operation : String) : ∀ depth t,
    Searches cs operation depth [t] (visit cs operation depth t) := by
  refine describing_induction cs fun depth t ih noted hdepth => ?_
  by_cases hknown : Passed noted t
  · rw [visit_passed hknown]
    exact .passed hknown (.nil noted)
  cases hshape : t.hostType? with
  | none =>
      rw [visit_refused hknown hshape]
      exact .refused hknown hshape
  | some host =>
      have hsome : t.hostType?.isSome := by rw [hshape]; rfl
      have hinside := visitInside_concludes ih hdepth hknown
      rw [visit_searched hknown hsome]
      cases hr : visitInside cs operation depth t (notedWithin t noted) with
      | ok _ noted' =>
          rw [hr] at hinside
          exact .searched hknown hsome hinside (.nil noted')
      | error f noted' =>
          rw [hr] at hinside
          exact .failed hknown hsome hinside

-- ================================================================ decision

end Bridge

end StackBridge
