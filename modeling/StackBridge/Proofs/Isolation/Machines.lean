import StackBridge.Proofs.Isolation.Homing
import StackBridge.Proofs.Isolation.Rejected

/-!
The machines of a session are isolated from each other (`machines_isolated`): as
long as a program raises no object to a protected call of another machine, no object
of one of them is ever reached by another, whatever is offered, called, raised and
met between them; and what is refused for being of another machine leaves no trace on
any stack, unless the machine it is offered to has been closed.
-/

namespace StackBridge

namespace Session

open Bridge

variable {ctx : Context} {s t : Session} {j k : MachineId} {v : Value}

/-- An object that a machine does not reach is one that it never reaches. -/
theorem Leads.unreached (hs : Homed ctx s) (h : Leads ctx s t) (hk : k < ctx.program.machines)
    (hv : v.IsObject) (hhas : s.heap.Has v) (hnot : ¬ s.Reaches k v) : ¬ t.Reaches k v :=
  have hparted := hs.parted (Nat.zero_lt_of_lt hk)
  ((h.keepsApart hparted).apart hparted).2.unreached hk hv hhas hnot

/-- The machines of a program share no objects, as long as it raises none to another
machine: what one of them has reached, or nobody, no other one reaches then or later.
And a push or the call of a bound function that is rejected for what belongs to another
machine leaves the slots of all machines as they were. -/
theorem machines_isolated (ctx : Context) :
    (∀ {s t : Session}, Homed ctx s → Leads ctx s t →
      ∀ j < ctx.program.machines, ∀ k < ctx.program.machines, j ≠ k →
        ∀ v : Value, v.IsObject → (s.Reaches j v → ¬ t.Reaches k v)
          ∧ (s.heap.Has v → ¬ s.Reaches k v → ¬ t.Reaches k v))
    ∧ (∀ {s t : Session} {k : MachineId} {v : HostValue} {ty : TypeExpr} {f : Failure},
        k < s.machines.size → (s.machine k).Live → f.Rejects →
          pushValue ctx k v ty s = .error (.failed f) t →
            ∀ j, (t.machine j).slots = (s.machine j).slots)
    ∧ ∀ {s t : Session} {id : Nat} {params : Option (List TypeExpr)} {args : List HostValue}
        {f : Failure}, (s.wrapper id).machine < s.machines.size →
          (s.machine (s.wrapper id).machine).Live → f.Rejects →
          (∀ ts, params = some ts → args.length = ts.length) →
          (pushWrapped id >>= fun _ => pushArguments ctx (s.wrapper id).machine args
            (params.getD [])) s = .error (.failed f) t →
          ∀ (run : Runner) (fuel : Nat) (returns : TypeExpr),
            ∃ u, callBound ctx run fuel id params returns args s = .error (.failed f) u
              ∧ ∀ j, (u.machine j).slots = (s.machine j).slots := by
  refine ⟨fun {s t} hs h j hj k hk hne v hv => ⟨fun hreach => ?_, h.unreached hs hk hv⟩,
    pushValue_rejected, fun hk hl hf hcount h run fuel returns =>
      callBound_rejected hk hl hf hcount h⟩
  have hparted := hs.parted (Nat.zero_lt_of_lt hk)
  exact h.unreached hs hk hv (hparted.whole j hj v hreach) (hparted.apart j hj k hk hne v hv hreach)

-- =================================================================== fixed runs

/-- What operations come to one after the other, if they raise no object to another
machine. -/
def homingOps (ctx : Context) (ops : List Op) (s : Session) : Session :=
  ops.foldl (fun s op => final (performHoming ctx 9 none op s)) s

theorem leads_homingOps (ops : List Op) (s : Session) : Leads ctx s (homingOps ctx ops s) := by
  have h : ∀ t, Leads ctx s t → Leads ctx s (homingOps ctx ops t) := by
    unfold homingOps
    induction ops with
    | nil => exact fun _ ht => ht
    | cons op ops ih => exact fun t ht => ih _ (ht.step 9 none op)
  exact h s .here

theorem Homed.homingOps (hs : Homed ctx s) (ops : List Op) :
    Homed ctx (homingOps ctx ops s) := by
  unfold Session.homingOps
  induction ops generalizing s with
  | nil => exact hs
  | cons op ops ih => exact ih (hs.step 9 none op)

/-- A program of two machines, with a function that raises its argument and one that
passes a wrapped table of the first machine to it. -/
abbrev twoMachines : Context :=
  ⟨[], ⟨[], 2, true, #[[.error], [.boundCall "f" [.var "t"] none]], #[], 0⟩⟩

/-- The first machine with a table and a function, both wrapped, on its stack. -/
def wrappedTable : List Op :=
  [.newTable, .wrapperNew (-1) "t", .pushFunction (some "f") 0 (some 0),
    .boundNew (-1) none .none "f"]

def offering : Session := homingOps twoMachines wrappedTable (.start 2 true)

/-- And the second one with a wrapped table of its own. -/
def offered : Session := homingOps twoMachines [.use 1, .newTable, .wrapperNew (-1) "u"] offering

theorem offering_homed : Homed twoMachines offering := .homingOps (.start rfl) _

/-- Whether a result is a failure. -/
def failsWith {α : Type} (f : Failure) : EStateM.Result Stop Session α → Bool
  | .error (.failed g) _ => g == f
  | _ => false

theorem eq_of_failsWith {α : Type} {f : Failure} {r : EStateM.Result Stop Session α}
    (h : failsWith f r = true) : r = .error (.failed f) (final r) := by
  unfold failsWith at h
  split at h
  · rw [beq_iff_eq.mp h]
    rfl
  · cases h

/-- The table is offered to the second machine and is raised past a call on it, and never
gets there. Its wrapper in a list is rejected by a push, and so is a wrapper of the second
machine as an argument of the function. -/
theorem machines_isolated_offered :
    let ops : List Op := [.use 1, .push (.sequence .list [.var "t"]) .none,
      .pushFunction (some "g") 1 (some 0), .call 0 0]
    let pushed := pushValue twoMachines 1 (.list [.wrapper 0 false]) .none offered
    let pushing := (pushWrapped 1 >>= fun _ => pushArguments twoMachines 0 [.wrapper 2 false] [])
      offered
    offering.Reaches 0 (.table 2) ∧ ¬ (homingOps twoMachines ops offering).Reaches 1 (.table 2)
      ∧ failsWith (.misuse .foreignWrapper) pushed = true
      ∧ (∀ j, ((final pushed).machine j).slots = (offered.machine j).slots)
      ∧ failsWith (.misuse .foreignWrapper) pushing = true
      ∧ ∃ u, callBound twoMachines (runBlock twoMachines 9) 9 1 none .none [.wrapper 2 false] offered
          = .error (.failed (.misuse .foreignWrapper)) u
        ∧ ∀ j, (u.machine j).slots = (offered.machine j).slots := by
  intro ops pushed pushing
  have hoffered : offering.Reaches 0 (.table 2) := .slot (by decide +kernel)
  have hpushed : failsWith (.misuse .foreignWrapper) pushed = true := by decide +kernel
  have hpushing : failsWith (.misuse .foreignWrapper) pushing = true := by decide +kernel
  have hfirst : (offered.machine 0).Live :=
    ⟨by decide +kernel, 0, [], by decide +kernel, by decide +kernel⟩
  have hsecond : (offered.machine 1).Live :=
    ⟨by decide +kernel, 0, [], by decide +kernel, by decide +kernel⟩
  have hmachine : (offered.wrapper 1).machine = 0 := by decide +kernel
  obtain ⟨hapart, hpush, hcall⟩ := machines_isolated twoMachines
  refine ⟨hoffered, ?_, hpushed, ?_, hpushing, ?_⟩
  · exact (hapart offering_homed (leads_homingOps ops offering) 0 (by decide) 1 (by decide)
      (by decide) (.table 2) trivial).1 hoffered
  · exact hpush (f := .misuse .foreignWrapper) (by decide +kernel) hsecond trivial
      (eq_of_failsWith hpushed)
  · refine hcall (f := .misuse .foreignWrapper) (t := final pushing) ?_ ?_ trivial
      (fun _ hnone => by cases hnone) ?_ _ 9 _
    · rw [hmachine]
      decide +kernel
    · rw [hmachine]
      exact hfirst
    · rw [hmachine]
      exact eq_of_failsWith hpushing

/-- The table of the first machine on the stack of the second one: raised by the function,
it has been met by a protected call there. A list with its wrapper in it, pushed on the
second machine when that has been closed, is rejected but leaves a table behind. -/
theorem raised_across_machines :
    (let s := afterOps twoMachines (wrappedTable ++ [.use 1, .pushFunction (some "g") 1 (some 0)])
      let t := final (step twoMachines (runBlock twoMachines 9) 9 (.pcall 0 0) s)
      Reachable twoMachines s ∧ s.Reaches 0 (.table 2)
        ∧ t.Reaches 0 (.table 2) ∧ t.Reaches 1 (.table 2))
    ∧ let s := afterOps twoMachines (wrappedTable ++ [.use 1, .close])
      let r := pushValue twoMachines 1 (.list [.wrapper 0 false]) .none s
      Reachable twoMachines s ∧ failsWith (.misuse .foreignWrapper) r = true
        ∧ (s.machine 1).slots = [] ∧ ((final r).machine 1).slots ≠ [] := by
  refine ⟨⟨afterOps_reachable rfl _, .slot ?_, .slot ?_, .slot ?_⟩,
    afterOps_reachable rfl _, ?_, ?_, ?_⟩
  all_goals decide +kernel

end Session

end StackBridge
