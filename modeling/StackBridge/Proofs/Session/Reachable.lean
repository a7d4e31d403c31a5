import StackBridge.Proofs.Session.Kept

/-!
The states that a program comes to.

To speak of what happens during an operation, a run is watched. `watchedBlock`
runs a block like `runBlock`, but where an operation begins or ends in a state
that is not allowed, at whatever depth, it does something else instead. A run
visits a state when not allowing it makes a difference (`Visits`), and the
states of a program are the ones that its operations lead to or visit
(`Reachable`).

Where operations run blocks only on the way from where they began, watching for
a state that is not makes no difference: what is visited is on the way
(`visits_onWay`), and so is whatever a program comes to (`Reachable.onWay`).
-/

namespace StackBridge

namespace Session

open Bridge

variable {ctx : Context} {k : MachineId} {s t : Session} {α : Type}

-- ================================================================= watching

open Classical in
/-- Does something else where an action would begin or end in a state that is
not allowed. -/
noncomputable def watching (ok : Session → Prop) (other action : Action Unit) : Action Unit :=
  fun s => if ok s ∧ ok (final (action s)) then action s else other s

/-- Performs operations one after the other under watch. -/
noncomputable def watchedSteps (ctx : Context) (ok : Session → Prop) (other : Action Unit)
    (run : BlockId → Action Unit) (fuel : Nat) : List Op → Action Unit
  | [] => return
  | op :: ops => do
    watching ok other (step ctx run fuel op)
    watchedSteps ctx ok other run fuel ops

/-- Runs a block with every operation in it and in the blocks that it runs
under watch. -/
noncomputable def watchedBlock (ctx : Context) (ok : Session → Prop) (other : Action Unit) :
    Nat → BlockId → Action Unit
  | 0, _ => throw .exhausted
  | fuel + 1, b =>
    watchedSteps ctx ok other (watchedBlock ctx ok other fuel) fuel (ctx.program.block b)

/-- An operation that is given what runs its blocks comes through a state
there, if not letting it makes a difference. -/
def Visits (ctx : Context) (fuel : Nat) (F : (BlockId → Action Unit) → Action α)
    (s t : Session) : Prop :=
  ∃ other, F (watchedBlock ctx (· ≠ t) other fuel) s ≠ F (runBlock ctx fuel) s

/-- A block visits the state that its first operation begins in. -/
theorem visits_beginning {fuel : Nat} {b : BlockId} {op : Op} {ops : List Op}
    (hb : ctx.program.block b = op :: ops) (s : Session) :
    Visits ctx (fuel + 1) (fun run => run b) s s := by
  -- stop there with a number of individuals that the block does not end with
  let n : Nat := (final (runBlock ctx (fuel + 1) b s)).individuals + 1
  let other : Action Unit := fun u => .error .exhausted { u with individuals := n }
  refine ⟨other, fun heq => ?_⟩
  have hwatched : watchedBlock ctx (· ≠ s) other (fuel + 1) b s
      = .error .exhausted { s with individuals := n } := by
    unfold watchedBlock watchedSteps
    rw [hb]
    refine bind_error (if_neg fun hok => ?_)
    exact hok.1 rfl
  have hend := congrArg (fun r => (final r).individuals) (heq.symm.trans hwatched)
  exact absurd hend (Nat.ne_of_lt (Nat.lt_succ_self _))

theorem watching_eq {ok : Session → Prop} {other action : Action Unit} (hs : ok s)
    (hfinal : ok (final (action s))) : watching ok other action s = action s :=
  if_pos ⟨hs, hfinal⟩

/-- Watching an operation makes no difference where it is allowed, if what comes after
it makes none. -/
theorem watching_bind {ok : Session → Prop} {other action action' rest rest' : Action Unit}
    (hs : ok s) (heq : action' s = action s) (hfinal : ok (final (action s)))
    (hrest : ∀ t, action s = .ok () t → rest' t = rest t) :
    (watching ok other action' >>= fun _ => rest') s = (action >>= fun _ => rest) s := by
  have hwatch : watching ok other action' s = action s := by
    rw [watching_eq hs (by rw [heq]; exact hfinal), heq]
  rw [bind_apply, bind_apply, hwatch]
  cases hr : action s with
  | error e t => rfl
  | ok x t => exact hrest t hr

section

variable {Way : Session → Session → Prop} (R : Session → Session → Prop) [Writes R]
  [Describes ctx R] [Encloses Way R]

/-- Watching operations makes no difference where everything on the way from
where they begin is allowed. -/
theorem watchedSteps_eq {ok : Session → Prop} {other : Action Unit}
    {run run' : BlockId → Action Unit} {s₀ : Session} (hok : ∀ t, Way s₀ t → ok t)
    (hrun : ∀ b, Keeps R (run b)) (hagree : ∀ b t, Way s₀ t → run' b t = run b t)
    (fuel : Nat) (ops : List Op) (hs : Way s₀ s) :
    watchedSteps ctx ok other run' fuel ops s = steps ctx run fuel ops s := by
  induction ops generalizing s with
  | nil => rfl
  | cons op ops ih =>
      have hop : Passes Way R fun run => step ctx run fuel op :=
        holds_step fun k _ => holds_perform trivial fuel op
      obtain ⟨heq, hkept⟩ := hop.apply hrun fun b t ht => hagree b t (OnWay.trans R hs ht)
      have hfinal : Way s₀ (final (step ctx run fuel op s)) :=
        OnWay.trans R hs (OnWay.way hkept)
      unfold watchedSteps steps
      refine watching_bind (hok s hs) heq (hok _ hfinal) fun t ht => ih ?_
      rwa [ht] at hfinal

include R

/-- Watching blocks makes no difference where everything on the way from where
they begin is allowed. -/
theorem watchedBlock_eq {ok : Session → Prop} {other : Action Unit} {s₀ : Session}
    (hok : ∀ t, Way s₀ t → ok t) (fuel : Nat) (b : BlockId) (hs : Way s₀ s) :
    watchedBlock ctx ok other fuel b s = runBlock ctx fuel b s := by
  induction fuel generalizing b s with
  | zero => rfl
  | succ fuel ih =>
      unfold watchedBlock runBlock
      exact watchedSteps_eq R hok (keeps_block Way ctx fuel) (fun b t ht => ih b ht) fuel _ hs

/-- An operation that runs blocks only on the way from a state visits no state
that is not. -/
theorem visits_onWay {fuel : Nat} {F : (BlockId → Action Unit) → Action α} {s₀ : Session}
    (hF : ∀ run, (∀ b u, Way s₀ u → run b u = runBlock ctx fuel b u) →
      F run s = F (runBlock ctx fuel) s)
    (hv : Visits ctx fuel F s t) : Way s₀ t := by
  by_contra hout
  obtain ⟨other, hne⟩ := hv
  refine hne (hF _ fun b u hu => watchedBlock_eq R (fun v hin hvt => ?_) fuel b hu)
  subst hvt
  exact hout hin

end

-- ================================================================ reachable

/-- The states that a program comes to: its session at the start, and what its
operations lead to, through whatever blocks, or visit on their way. -/
inductive Reachable (ctx : Context) : Session → Prop where
  | start {s : Session}
      (defined : evalClasses ctx.program ctx.program.classes []
        (Session.start ctx.program.machines ctx.program.checks) = .ok ctx.classes s) :
      Reachable ctx s
  | step {s : Session} (fuel : Nat) (op : Op) (before : Reachable ctx s) :
      Reachable ctx (final (step ctx (runBlock ctx fuel) fuel op s))
  | inside {s t : Session} (fuel : Nat) (op : Op) (before : Reachable ctx s)
      (visited : Visits ctx fuel (fun run => Session.step ctx run fuel op) s t) : Reachable ctx t

/-- A session begins with fresh machines. -/
theorem start_fresh (machines : Nat) (checks : Bool) (k : MachineId) :
    ∃ registry, (Session.start machines checks).machine k = .fresh registry := by
  induction machines with
  | zero => exact ⟨0, rfl⟩
  | succ n ih =>
      rw [start_succ]
      unfold addMachine Session.machine
      simp only [Array.getD_eq_getD_getElem?, Array.getElem?_push]
      split
      · exact ⟨_, rfl⟩
      · unfold Session.machine at ih
        rw [Array.getD_eq_getD_getElem?] at ih
        exact ih

/-- Whatever a program comes to is on the way from where its classes are
defined. -/
theorem Reachable.afterClasses (Way R : Session → Session → Prop) [Writes R] [Describes ctx R]
    [Encloses Way R] (h : Reachable ctx s) :
    ∃ s₀, evalClasses ctx.program ctx.program.classes []
        (Session.start ctx.program.machines ctx.program.checks) = .ok ctx.classes s₀
      ∧ Way s₀ s := by
  have hstep : ∀ fuel op, Passes Way R fun run => Session.step ctx run fuel op :=
    fun fuel op => holds_step fun k _ => holds_perform trivial fuel op
  induction h with
  | start defined => exact ⟨_, defined, OnWay.way (R := R) (Std.Refl.refl _)⟩
  | @step s fuel op _ ih =>
      obtain ⟨s₀, hdefined, hway⟩ := ih
      refine ⟨s₀, hdefined, OnWay.trans R hway (OnWay.way (R := R) ?_)⟩
      exact (hstep fuel op).keeps_of_run (keeps_block Way ctx fuel) s
  | @inside s t fuel op _ hv ih =>
      obtain ⟨s₀, hdefined, hway⟩ := ih
      refine ⟨s₀, hdefined, OnWay.trans R hway (visits_onWay R (fun run hrun => ?_) hv)⟩
      exact ((hstep fuel op).apply (keeps_block Way ctx fuel) hrun).1

/-- Whatever a program comes to is on the way from where it has started. -/
theorem Reachable.onWay (Way R : Session → Session → Prop) [Writes R] [∀ ctx, Describes ctx R]
    [Encloses Way R] (h : Reachable ctx s) :
    Way (Session.start ctx.program.machines ctx.program.checks) s := by
  obtain ⟨s₀, hdefined, hway⟩ := h.afterClasses Way R
  have hclasses : Keeps R (evalClasses ctx.program ctx.program.classes []) :=
    (holds_evalClasses ctx.program ctx.program.classes []).keeps
  have hkept := hclasses (Session.start ctx.program.machines ctx.program.checks)
  rw [hdefined] at hkept
  exact OnWay.trans R (OnWay.way hkept) hway

/-- What every operation keeps, and what takes no notice of frames, holds
between the start of a program and whatever it comes to. -/
theorem Reachable.kept (R : Session → Session → Prop) [Writes R] [∀ ctx, Describes ctx R]
    [FrameBlind R] (h : Reachable ctx s) :
    R (Session.start ctx.program.machines ctx.program.checks) s :=
  h.onWay R R

/-- What operations come to, one after the other, where a program has started. -/
def afterOps (ctx : Context) (ops : List Op) : Session :=
  ops.foldl (fun s op => final (step ctx (runBlock ctx 9) 9 op s))
    (.start ctx.program.machines ctx.program.checks)

theorem afterOps_reachable
    (defined : evalClasses ctx.program ctx.program.classes []
      (Session.start ctx.program.machines ctx.program.checks)
        = .ok ctx.classes (.start ctx.program.machines ctx.program.checks)) (ops : List Op) :
    Reachable ctx (afterOps ctx ops) := by
  have h : ∀ s, Reachable ctx s →
      Reachable ctx (ops.foldl (fun s op => final (step ctx (runBlock ctx 9) 9 op s)) s) := by
    induction ops with
    | nil => exact fun _ hs => hs
    | cons op ops ih => exact fun s hs => ih _ (hs.step 9 op)
  exact h _ (.start defined)

/-- A program of one machine, without classes or blocks. -/
abbrev plain : Context := ⟨[], ⟨[], 1, true, #[], #[], 0⟩⟩

end Session

end StackBridge
