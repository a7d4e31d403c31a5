import StackBridge.Proofs.Push.Atomic
import StackBridge.Proofs.Push.Placed
import StackBridge.Proofs.RoundTrip.Value

/-!
The positions of a tuple with a type for each element. Such a tuple is read along
its types and never up to a border, so that whatever its elements are, and whatever
has become of them in the table, there is an item for each type.
-/

namespace StackBridge

namespace Bridge

open Session

variable {ctx : Context} {k : MachineId} {s t : Session} {index : Int} {host : HostType}
  {v : HostValue} {vs : List HostValue} {as : List TypeExpr} {u : TypeExpr}

/-- As many items are read as have been asked for. -/
theorem readItems_length {readAt : Int → TypeExpr → Action HostValue} {i count : Nat}
    (h : readItems readAt k index host i count s = .ok vs t) : vs.length = count := by
  induction count generalizing i s vs t with
  | zero =>
      cases h
      rfl
  | succ count ih =>
      obtain ⟨_, s₁, _, h⟩ := bind_answered h
      obtain ⟨v, s₂, _, h⟩ := bind_answered h
      obtain ⟨ws, s₃, hrest, h⟩ := bind_answered h
      cases h
      rw [List.length_cons, ih hrest]

/-- A sequence whose elements have types of their own has an item for each. -/
theorem readSequence_positions {readAt : Int → TypeExpr → Action HostValue}
    (hfixed : host.isFixedTuple = true) (h : readSequence readAt k index host s = .ok v t) :
    ∃ vs, v = asSequence host vs ∧ vs.length = host.args.length := by
  unfold readSequence at h
  obtain ⟨i, s₁, _, h⟩ := bind_answered h
  rw [if_pos hfixed] at h
  obtain ⟨count, s₂, hcount, h⟩ := bind_answered h
  cases hcount
  obtain ⟨vs, s₃, hitems, h⟩ := bind_answered h
  cases h
  exact ⟨vs, rfl, readItems_length (restoringTop_answered hitems)⟩

/-- The table that a sequence has been pushed into is on top. -/
theorem pushAs_table {limit : Nat} {kind : SequenceKind} (hk : k < s.machines.size)
    (hl : (s.machine k).Live) (hhost : pushedAs (.sequence kind vs) u = some host)
    (hshape : host.shape = .sequence) (h : pushAs ctx k limit (.sequence kind vs) u s = .ok () t) :
    ∃ w, Adds k [w] s t ∧ w.category? = some .table := by
  have hends := addsOne_pushAs ctx limit (.sequence kind vs) u s hk hl
  rw [h] at hends
  obtain ⟨w, hadds⟩ := hends
  obtain ⟨w', hlays⟩ := (places_pushAs ctx k limit (.sequence kind vs) u).lays h
  have hslots := hlays.lifted (by rw [hadds.size]; exact hk)
  have hsame := List.append_cancel_left (hslots.symm.trans hadds.slots)
  obtain rfl : w' = w := List.singleton_inj.mp hsame
  have hmade : Made (.sequence kind vs) host := by
    refine ⟨by rw [hshape]; decide, fun hcallable => ?_⟩
    rw [hshape] at hcallable
    cases hcallable
  refine ⟨w', hadds, ?_⟩
  rw [hlays.category host hhost hmade, slotCategory_shape hshape (by decide)]
  rfl

/-- A tuple with a type for each element that is read from a table has as many
items as there are types. -/
theorem popValue_positions {run : BlockId → Action Unit} {fuel : Nat} {handler : Handler}
    {w : Value} (hplain : TypeExpr.ellipsis ∉ as) (hne : as ≠ []) (hat : At k s (-1) w)
    (hw : w.category? = some .table)
    (h : popValue ctx run fuel k handler (.generic (.sequence .tuple) as) s = .ok v t) :
    ∃ vs, v = .sequence .tuple vs ∧ vs.length = as.length := by
  obtain ⟨v', s₁, hread, h⟩ := bind_answered h
  obtain ⟨_, s₂, _, h⟩ := bind_answered h
  cases h
  obtain ⟨host, s₃, hdescribed, hguarded⟩ := bind_answered
    (a := describe ctx (.generic (.sequence .tuple) as) "read") hread
  obtain ⟨hhost, noted, rfl⟩ := describe_answered hdescribed
  have hat' : At k { s with described := noted } (-1) w := ⟨hat.place⟩
  have hread' := guardedIfChecking_answered hguarded
  obtain rfl : ⟨.generic (.sequence .tuple) as, .sequence⟩ = host := Option.some.inj hhost
  have hshaped := (readHost_of_category hat'.value (by exact hw) (by exact nofun)).symm.trans hread'
  exact readSequence_positions (isFixedTuple_plain hplain hne) hshaped

/-- What a sequence has been pushed into is read as a tuple of as many items as
there are types. -/
theorem positions_kept {kind : SequenceKind} (hk : k < s.machines.size)
    (hl : (s.machine k).Live) (hplain : TypeExpr.ellipsis ∉ as) (hne : as ≠ [])
    (hu : u = .none ∨ u = .generic (.sequence .tuple) as)
    (hpush : pushValue ctx k (.sequence kind vs) u s = .ok () t)
    {run : BlockId → Action Unit} {fuel : Nat} {handler : Handler} {t' : Session}
    (hpop : popValue ctx run fuel k handler (.generic (.sequence .tuple) as) t = .ok v t') :
    ∃ vs', v = .sequence .tuple vs' ∧ vs'.length = as.length := by
  obtain ⟨host, hhost, hshape⟩ : ∃ host, pushedAs (.sequence kind vs) u = some host
      ∧ host.shape = .sequence := by
    rcases hu with rfl | rfl
    · exact ⟨_, rfl, rfl⟩
    · exact ⟨_, rfl, rfl⟩
  obtain ⟨w, hadds, hw⟩ := pushAs_table hk hl hhost hshape hpush
  exact popValue_positions hplain hne (at_top [] hl hadds) hw hpop

end Bridge

end StackBridge
