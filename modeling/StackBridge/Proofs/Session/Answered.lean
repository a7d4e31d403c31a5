import StackBridge.Proofs.Machine.Answered
import StackBridge.Proofs.Session.Parts

/-!
What the answer of an action on a session says of its parts. A block that
watches the depth of a stack has answered what the block inside it has, a type
that has been described has a shape, and what a machine has answered by looking
it has answered in the same session.
-/

namespace StackBridge

namespace Session

variable {α : Type} {s t : Session} {k : MachineId}

theorem looked_onMachine {a : Vm.Action α} (ha : Vm.Looks a) {x : α}
    (h : onMachine k a s = .ok x t) : t = s ∧ a (s.vm k) = .ok x (s.vm k) := by
  unfold onMachine at h
  cases hr : a (s.vm k) with
  | error f vm =>
      rw [hr] at h
      cases h
  | ok y vm =>
      rw [hr] at h
      cases h
      obtain rfl := Vm.looked ha hr
      exact ⟨withVm_vm s k, rfl⟩

theorem ofHost_answered {r : Except HostFault α} {x : α} (h : ofHost r s = .ok x t) :
    r = .ok x ∧ t = s := by
  cases r with
  | ok y => cases h; exact ⟨rfl, rfl⟩
  | error f => cases h

/-- What is answered in the end is what the action has answered, and the
cleanup has come after it. -/
theorem ensuring_ok {a : Action α} {cleanup : Action Unit} {x : α}
    (h : ensuring a cleanup s = .ok x t) : ∃ u, a s = .ok x u ∧ cleanup u = .ok () t := by
  unfold ensuring at h
  cases hr : a s with
  | ok y u =>
      rw [hr] at h
      dsimp only at h
      cases hc : cleanup u with
      | ok _ v => rw [hc] at h; cases h; exact ⟨u, rfl, hc⟩
      | error e v => rw [hc] at h; cases h
  | error e u =>
      rw [hr] at h
      dsimp only at h
      cases hc : cleanup u with
      | ok _ v => rw [hc] at h; cases h
      | error e v => rw [hc] at h; cases h

end Session

-- ================================================================== guards

namespace Bridge

open Session

variable {α : Type} {s t : Session} {k : MachineId} {x : α}

theorem onStop_answered {block : Action α} {cleanup : Action Unit}
    (h : onStop block cleanup s = .ok x t) : block s = .ok x t := by
  unfold onStop at h
  cases hr : block s with
  | ok y u =>
      rw [hr] at h
      exact h
  | error e u =>
      rw [hr] at h
      dsimp only at h
      split at h <;> cases h

theorem restoringTop_answered {block : Action α} (h : restoringTop k block s = .ok x t) :
    block s = .ok x t := by
  unfold restoringTop at h
  obtain ⟨top, s', htop, hblock⟩ := bind_answered h
  obtain ⟨rfl, _⟩ := looked_onMachine Vm.looks_getTop htop
  exact onStop_answered hblock

/-- A guard that has answered has let through what its block has answered. -/
theorem guarded_answered {delta : Int} {what : String} {block : Action α}
    (h : guarded k delta what block s = .ok x t) : block s = .ok x t := by
  unfold guarded at h
  obtain ⟨top, s', htop, hrest⟩ := bind_answered h
  obtain ⟨rfl, _⟩ := looked_onMachine Vm.looks_getTop htop
  obtain ⟨a, u, hblock, hafter⟩ := bind_answered hrest
  have hsame : x = a ∧ t = u := by
    obtain ⟨_, u', hcheck, hanswer⟩ := bind_answered hafter
    cases hanswer
    obtain ⟨closed, u'', hclosed, hopen⟩ := bind_answered hcheck
    cases hclosed
    split at hopen
    · cases hopen
      exact ⟨rfl, rfl⟩
    · obtain ⟨top', v, htop', hdepth⟩ := bind_answered hopen
      obtain ⟨rfl, _⟩ := looked_onMachine Vm.looks_getTop htop'
      split at hdepth
      · obtain ⟨f, w, _, hfail⟩ := bind_answered hdepth
        cases hfail
      · cases hdepth
        exact ⟨rfl, rfl⟩
  obtain ⟨rfl, rfl⟩ := hsame
  unfold handling at hblock
  cases hr : block s' with
  | ok y v =>
      rw [hr] at hblock
      exact hblock
  | error e v =>
      rw [hr] at hblock
      cases e with
      | exhausted => cases hblock
      | failed f =>
          obtain ⟨_, w, _, hfail⟩ := bind_answered hblock
          cases hfail

theorem guardedIfChecking_answered {delta : Int} {what : String} {block : Action α}
    (h : guardedIfChecking k delta what block s = .ok x t) : block s = .ok x t := by
  unfold guardedIfChecking at h
  rw [bind_ok (get_apply s)] at h
  cases hchecks : s.checks with
  | false =>
      rw [hchecks] at h
      exact h
  | true =>
      rw [hchecks] at h
      exact guarded_answered h

/-- A type that has been described has a shape, and has been noted at most. -/
theorem describe_answered {ctx : Context} {type : TypeExpr} {operation : String} {host : HostType}
    (h : describe ctx type operation s = .ok host t) :
    type.hostType? = some host ∧ ∃ noted, t = { s with described := noted } := by
  unfold describe at h
  cases hd : describeIn ctx.classes operation type s.described with
  | error f noted =>
      rw [hd] at h
      cases h
  | ok _ noted =>
      rw [hd] at h
      dsimp only at h
      cases hhost : type.hostType? with
      | none =>
          rw [hhost] at h
          cases h
      | some host' =>
          rw [hhost] at h
          cases h
          exact ⟨rfl, noted, rfl⟩

end Bridge

end StackBridge
