import Mathlib.Order.Defs.Unbundled
import StackBridge.Session.State

/-!
Following an action through its steps. An action answers or stops, and
either way it leaves a state, so two questions are asked of one: what its
answer and its stops come to (`Ends`), and which relation holds between the
state before and the state after it whatever it comes to (`Keeps`).

Both have one rule for each way actions are put together: answering,
stopping, sequence, running on a machine, and the three blocks that look at
how another action ended. `Carries` asks both at once where it does not depend
on the state what an action may stop with.
-/

namespace StackBridge

section

variable {ε σ α β : Type}

/-- The state that a result leaves. -/
def final : EStateM.Result ε σ α → σ
  | .ok _ s => s
  | .error _ s => s

-- ============================================================ one state

theorem bind_apply (a : EStateM ε σ α) (f : α → EStateM ε σ β) (s : σ) :
    (a >>= f) s =
      match a s with
      | .ok x t => f x t
      | .error e t => .error e t :=
  rfl

theorem pure_apply (x : α) (s : σ) : (pure x : EStateM ε σ α) s = .ok x s := rfl

theorem get_apply (s : σ) : (get : EStateM ε σ σ) s = .ok s s := rfl

theorem modify_apply (f : σ → σ) (s : σ) : (modify f : EStateM ε σ PUnit) s = .ok ⟨⟩ (f s) := rfl

/-- A sequence whose first action answers goes on with the second one. -/
theorem bind_ok {a : EStateM ε σ α} {f : α → EStateM ε σ β} {s t : σ} {x : α}
    (ha : a s = .ok x t) : (a >>= f) s = f x t := by
  rw [bind_apply, ha]

/-- A sequence whose first action stops goes no further. -/
theorem bind_error {a : EStateM ε σ α} {f : α → EStateM ε σ β} {s t : σ} {e : ε}
    (ha : a s = .error e t) : (a >>= f) s = .error e t := by
  rw [bind_apply, ha]

/-- Actions that begin alike and go on alike where they have answered. -/
theorem bind_alike {a a' : EStateM ε σ α} {f f' : α → EStateM ε σ β} {s : σ} (h : a s = a' s)
    (hf : ∀ x t, a' s = .ok x t → f x t = f' x t) : (a >>= f) s = (a' >>= f') s := by
  rw [bind_apply, bind_apply, h]
  cases hr : a' s with
  | ok x t => exact hf x t hr
  | error e t => rfl

/-- A sequence has answered if both of its actions have. -/
theorem bind_answered {a : EStateM ε σ α} {f : α → EStateM ε σ β} {s u : σ} {y : β}
    (h : (a >>= f) s = .ok y u) : ∃ x t, a s = .ok x t ∧ f x t = .ok y u := by
  rw [bind_apply] at h
  cases hr : a s with
  | ok x t =>
      rw [hr] at h
      exact ⟨x, t, rfl, h⟩
  | error e t =>
      rw [hr] at h
      cases h

-- ========================================================= how it ends

/-- What a result comes to: an answer that satisfies `ok`, or a stop that
satisfies `stop`. -/
def Ends (r : EStateM.Result ε σ α) (ok : α → σ → Prop) (stop : ε → σ → Prop) : Prop :=
  match r with
  | .ok x s => ok x s
  | .error e s => stop e s

namespace Ends

variable {ok ok' : α → σ → Prop} {stop stop' : ε → σ → Prop}

instance {r : EStateM.Result ε σ α} [∀ x s, Decidable (ok x s)] [∀ e s, Decidable (stop e s)] :
    Decidable (Ends r ok stop) :=
  match r with
  | .ok x s => inferInstanceAs (Decidable (ok x s))
  | .error e s => inferInstanceAs (Decidable (stop e s))

theorem mono {r : EStateM.Result ε σ α} (h : Ends r ok stop) (hok : ∀ x s, ok x s → ok' x s)
    (hstop : ∀ e s, stop e s → stop' e s) : Ends r ok' stop' := by
  cases r with
  | ok x s => exact hok x s h
  | error e s => exact hstop e s h

theorem bind {a : EStateM ε σ α} {f : α → EStateM ε σ β} {s : σ} {okf : β → σ → Prop}
    (ha : Ends (a s) ok stop) (hf : ∀ x t, ok x t → Ends (f x t) okf stop) :
    Ends ((a >>= f) s) okf stop := by
  rw [bind_apply]
  cases h : a s with
  | ok x t =>
      rw [h] at ha
      exact hf x t ha
  | error e t =>
      rw [h] at ha
      exact ha

/-- What holds of the end, answered or stopped. -/
theorem final {P : σ → Prop} {r : EStateM.Result ε σ α}
    (h : Ends r (fun _ t => P t) fun _ t => P t) : P (final r) := by
  cases r with
  | ok x t => exact h
  | error e t => exact h

/-- A stop is one of an answer's alternatives: what holds of every ending
holds of each. -/
theorem eq_ok {r : EStateM.Result ε σ α} (h : Ends r ok fun _ _ => False) :
    ∃ x s, r = .ok x s ∧ ok x s := by
  cases r with
  | ok x s => exact ⟨x, s, rfl, h⟩
  | error e s => exact absurd h not_false

end Ends

-- ========================================================= what it keeps

/-- Whatever an action comes to, the state before it and the one after it
stand in a relation. -/
def Keeps (R : σ → σ → Prop) (a : EStateM ε σ α) : Prop := ∀ s, R s (final (a s))

/-- Answering something else changes no state. -/
theorem final_bind_pure (a : EStateM ε σ α) (x : β) (s : σ) :
    final ((a >>= fun _ => pure x) s) = final (a s) := by
  rw [bind_apply]
  cases a s <;> rfl

namespace Keeps

variable {R : σ → σ → Prop}

theorem mono {R' : σ → σ → Prop} {a : EStateM ε σ α} (ha : Keeps R a)
    (h : ∀ s t, R s t → R' s t) : Keeps R' a :=
  fun s => h s _ (ha s)

/-- What an answer leaves is what the action leaves. -/
theorem of_ok {a : EStateM ε σ α} (ha : Keeps R a) {s t : σ} {x : α} (h : a s = .ok x t) :
    R s t := by
  have hs := ha s
  rw [h] at hs
  exact hs

section

variable [Std.Refl R]

theorem pure (x : α) : Keeps R (Pure.pure x : EStateM ε σ α) := fun s => Std.Refl.refl s

theorem throw (e : ε) : Keeps R (MonadExcept.throw e : EStateM ε σ α) :=
  fun s => Std.Refl.refl s

theorem get : Keeps R (MonadState.get : EStateM ε σ σ) := fun s => Std.Refl.refl s

end

theorem modify {f : σ → σ} (h : ∀ s, R s (f s)) :
    Keeps R (modify f : EStateM ε σ PUnit) :=
  h

theorem bind [IsTrans σ R] {a : EStateM ε σ α} {f : α → EStateM ε σ β} (ha : Keeps R a)
    (hf : ∀ x, Keeps R (f x)) : Keeps R (a >>= f) := by
  intro s
  have h := ha s
  rw [bind_apply]
  cases hs : a s with
  | ok x t =>
      rw [hs] at h
      exact IsTrans.trans _ _ _ h (hf x t)
  | error e t =>
      rw [hs] at h
      exact h

end Keeps

-- ==================================================== and what it stops with

/-- A result that stands in a relation to a state, and stops with nothing but
what may be stopped with. -/
def Follows (R : σ → σ → Prop) (E : ε → Prop) (s : σ) (r : EStateM.Result ε σ α) : Prop :=
  Ends r (fun _ t => R s t) fun e t => R s t ∧ E e

/-- Whatever an action comes to follows from the state that it began in. -/
def Carries (R : σ → σ → Prop) (E : ε → Prop) (a : EStateM ε σ α) : Prop :=
  ∀ s, Follows R E s (a s)

section

variable {R : σ → σ → Prop} {E : ε → Prop}

theorem Follows.final {s : σ} {r : EStateM.Result ε σ α} (h : Follows R E s r) :
    R s (final r) := by
  cases r with
  | ok x t => exact h
  | error e t => exact h.1

theorem follows_of_final {s : σ} {r : EStateM.Result ε σ α} (h : R s (final r))
    (hstop : ∀ e t, r = .error e t → E e) : Follows R E s r := by
  cases r with
  | ok x t => exact h
  | error e t => exact ⟨h, hstop e t rfl⟩

/-- What follows later on follows from the beginning. -/
theorem Follows.after [IsTrans σ R] {s t : σ} {r : EStateM.Result ε σ α} (hr : Follows R E t r)
    (h : R s t) : Follows R E s r := by
  cases r with
  | ok x u => exact IsTrans.trans _ _ _ h hr
  | error e u => exact ⟨IsTrans.trans _ _ _ h hr.1, hr.2⟩

namespace Carries

theorem keeps {a : EStateM ε σ α} (ha : Carries R E a) : Keeps R a := fun s => (ha s).final

theorem get [Std.Refl R] : Carries R E (MonadState.get : EStateM ε σ σ) :=
  fun s => Std.Refl.refl s

theorem bind [IsTrans σ R] {a : EStateM ε σ α} {f : α → EStateM ε σ β} (ha : Carries R E a)
    (hf : ∀ x, Carries R E (f x)) : Carries R E (a >>= f) := by
  intro s
  have h := ha s
  rw [bind_apply]
  cases hs : a s with
  | ok x t =>
      rw [hs] at h
      exact (hf x t).after h
  | error e t =>
      rw [hs] at h
      exact h

end Carries

end

end

end StackBridge
