import StackBridge.Proofs.Push.Atomic
import StackBridge.Proofs.Push.Placed

/-!
The category of what has been pushed. A value need not fit the type that it is
pushed as: each shape converts whatever it is given. Still the slot has the
category that the type is classified as, with one exception: `none` pushed as a
text pointer is nil, as it is for the machine's own push of such strings.
-/

namespace StackBridge

namespace Bridge

open Session

variable {ctx : Context} {k : MachineId} {s t : Session} {v : HostValue} {type : TypeExpr}
  {host : HostType} {w : Value}

/-- The type that a value is pushed as, its class if none is given. -/
def effectiveType (v : HostValue) (type : TypeExpr) : TypeExpr :=
  if type = .none then .cls v.hostClass else type

/-- What has come on top of an open machine has the category of its value. -/
theorem categoryAt_top {c : Category} (hl : (s.machine k).Live) (ht : Adds k [w] s t)
    (hc : w.category? = some c) : Vm.categoryAt (-1) (t.vm k) = .ok c (t.vm k) := by
  obtain ⟨_, b, fs, hf, hb⟩ := hl
  have hslots : (t.vm k).machine.slots = (s.machine k).slots ++ [w] := ht.slots
  have htop : Vm.valueAt? (-1) (t.vm k) = .ok (some w) (t.vm k) :=
    Vm.valueAt?_behind (r := []) (ht.frames.trans hf) hslots hb (by decide)
  exact Vm.categoryAt_eq htop hc

/-- A bound function that is pushed as a callable is the function it holds. -/
theorem pushedBound_holds {fuel id : Nat} {params : Option (List TypeExpr)} {returns : TypeExpr}
    (hk : k < s.machines.size) (htype : pushedAs (.bound id params returns) type = some host)
    (hshape : host.shape = .callable)
    (hpush : pushAs ctx k (fuel + 1) (.bound id params returns) type s = .ok () t) :
    ∃ w, s.wrapped? id = some w ∧ (t.machine k).slots = (s.machine k).slots ++ [w] := by
  obtain ⟨host', u, hdescribed, hrest⟩ := bind_answered hpush
  obtain ⟨hhost, noted, rfl⟩ := describe_answered hdescribed
  cases htype.symm.trans hhost
  have hcalled := restoringTop_answered (guardedIfChecking_answered hrest)
  unfold pushShape at hcalled
  rw [hshape] at hcalled
  dsimp only [pushCallable] at hcalled
  rw [bind_ok (get_apply _)] at hcalled
  split at hcalled
  · cases hcalled
  · rename_i hmachine
    obtain ⟨w, hw, rfl⟩ := pushWrapped_answered hcalled
    rw [not_not.mp hmachine]
    let u : Session := { s with described := noted }
    refine ⟨w, hw, ?_⟩
    show ((u.withSlots k ((u.machine k).slots ++ [w])).machine k).slots = _
    rw [withSlots_machine (s := u) hk]
    rfl

/-- Whatever a push answers for, the slot on top has the category that the type
is classified as; only `none` pushed as a text pointer is nil. That is so for
every value, whether or not it is of the type, and for every type that is not
dynamic, given or taken from the value. A bound function must hold a function. -/
theorem pushValue_category (hk : k < s.machines.size) (hl : (s.machine k).Live)
    (hbound : ∀ id params returns, v = .bound id params returns →
      ∃ f, s.wrapped? id = some (.function f))
    (hpush : pushValue ctx k v type s = .ok () t) :
    ∃ host, (∃ u, describe ctx (effectiveType v type) "push" s = .ok host u)
      ∧ (∀ operation u x u', describe ctx (effectiveType v type) operation u = .ok x u' → x = host)
      ∧ (host.shape ≠ .dynamic → ¬ (host.shape = .textPointer ∧ v = .none) →
          Vm.categoryAt (-1) (t.vm k) = .ok host.category (t.vm k))
      ∧ (host.shape = .textPointer → v = .none →
          Vm.categoryAt (-1) (t.vm k) = .ok .nil (t.vm k)) := by
  have hpush' : pushAs ctx k (489 + 1) v type s = .ok () t := hpush
  obtain ⟨host, u, hdescribed, _⟩ := bind_answered hpush'
  have htype : pushedAs v type = some host := (describe_answered hdescribed).1
  have hsame : ∀ operation u x u',
      describe ctx (effectiveType v type) operation u = .ok x u' → x = host := by
    intro operation u x u' hx
    cases (describe_answered hx).1.symm.trans htype
    rfl
  have hcategory : host.shape ≠ .dynamic →
      Vm.categoryAt (-1) (t.vm k) = .ok (slotCategory v host) (t.vm k) := by
    intro hdynamic
    have hends := addsOne_pushAs ctx (489 + 1) v type s hk hl
    rw [hpush'] at hends
    obtain ⟨w, hadds⟩ := hends
    refine categoryAt_top hl hadds ?_
    obtain ⟨w', hlays⟩ := (places_pushAs ctx k (489 + 1) v type).lays hpush'
    have htop : ∀ {w'}, (t.machine k).slots = (s.machine k).slots ++ [w'] → w' = w := fun h => by
      cases List.append_cancel_left (h.symm.trans hadds.slots)
      rfl
    obtain rfl := htop (hlays.lifted (by rw [hadds.size]; exact hk))
    by_cases hheld : ∃ id params returns, host.shape = .callable ∧ v = .bound id params returns
    · obtain ⟨id, params, returns, hshape, rfl⟩ := hheld
      obtain ⟨w, hw, hslots⟩ := pushedBound_holds hk htype hshape hpush'
      obtain ⟨f, hf⟩ := hbound id params returns rfl
      obtain rfl := htop hslots
      cases hw.symm.trans hf
      rw [slotCategory_shape hshape (by decide)]
      rfl
    · exact hlays.category host htype ⟨hdynamic, fun hshape id params returns hv =>
        hheld ⟨id, params, returns, hshape, hv⟩⟩
  refine ⟨host, ⟨u, hdescribed⟩, hsame, fun hdynamic hsome => ?_, fun hshape hnone => ?_⟩
  · rw [hcategory hdynamic, slotCategory_eq hsome]
  · rw [hcategory (by rw [hshape]; decide)]
    subst hnone
    unfold slotCategory
    rw [hshape]

/-- A text that is pushed as an integer is a number. -/
theorem pushValue_category_text :
    0 < (Session.start 1 true).machines.size ∧ ((Session.start 1 true).machine 0).Live
      ∧ ∃ t host, pushValue ⟨[], ⟨[], 1, true, #[], #[], 0⟩⟩ 0 (.str "12") (.cls (.integer .plain))
          (Session.start 1 true) = .ok () t
        ∧ (TypeExpr.cls (.integer .plain)).hostType? = some host
        ∧ Vm.categoryAt (-1) (t.vm 0) = .ok host.category (t.vm 0) := by
  have hsize : 0 < (Session.start 1 true).machines.size := by decide
  have hlive : ((Session.start 1 true).machine 0).Live := ⟨rfl, 0, [], rfl, by decide⟩
  obtain ⟨_, t, hpush, _⟩ : ∃ x t, pushValue ⟨[], ⟨[], 1, true, #[], #[], 0⟩⟩ 0 (.str "12")
      (.cls (.integer .plain)) (Session.start 1 true) = .ok x t ∧ True :=
    Ends.eq_ok (by decide +kernel)
  have hbound : ∀ id params returns, HostValue.str "12" = .bound id params returns →
      ∃ f, (Session.start 1 true).wrapped? id = some (.function f) := fun _ _ _ h => nomatch h
  obtain ⟨host, ⟨u, hu⟩, _, hcategory, _⟩ := pushValue_category hsize hlive hbound hpush
  have hhost := (describe_answered hu).1
  refine ⟨hsize, hlive, t, host, hpush, hhost, hcategory ?_ ?_⟩
  · cases hhost
    decide
  · exact fun hnone => nomatch hnone.2

/-- Text pointers are strings, but `none` pushed as one is nil. -/
theorem none_pushed_as_text_pointer :
    ∃ t host u, pushValue ⟨[], ⟨[], 1, true, #[], #[], 0⟩⟩ 0 .none (.cls (.bytes .terminated))
        (Session.start 1 true) = .ok () t
      ∧ describe ⟨[], ⟨[], 1, true, #[], #[], 0⟩⟩ (.cls (.bytes .terminated)) "push"
        (Session.start 1 true) = .ok host u
      ∧ host.category = .string
      ∧ Ends (Vm.categoryAt (-1) (t.vm 0)) (fun c _ => c = .nil) fun _ _ => False := by
  obtain ⟨_, t, hpush, hnil⟩ : ∃ x t, pushValue ⟨[], ⟨[], 1, true, #[], #[], 0⟩⟩ 0 .none
      (.cls (.bytes .terminated)) (Session.start 1 true) = .ok x t
        ∧ Ends (Vm.categoryAt (-1) (t.vm 0)) (fun c _ => c = .nil) fun _ _ => False :=
    Ends.eq_ok (by decide +kernel)
  obtain ⟨host, u, hdescribed, hstring⟩ : ∃ host u, describe ⟨[], ⟨[], 1, true, #[], #[], 0⟩⟩
      (.cls (.bytes .terminated)) "push" (Session.start 1 true) = .ok host u
        ∧ host.category = .string :=
    Ends.eq_ok (by decide +kernel)
  exact ⟨t, host, u, hpush, hdescribed, hstring, hnil⟩

end Bridge

end StackBridge
