import StackBridge.Proofs.Frames.Isolation
import StackBridge.Proofs.Read.Lockstep
import StackBridge.Proofs.Read.Sound

/-!
Reads with a handler. Whatever answers for mismatches, as long as it takes no notice
of the stack, a read comes to what the direct reading of the value comes to: the same
answer or failure, and the same session, down to what has been reported
(`readValue_direct`). So a handler is called where the direct reading asks it: once
for each part whose category is not its type's and that is come to, in the order of
the parts, not at a dynamic type, and not inside a part that it has answered for.

A handler of the program is of that kind if its block and its result are
(`answers_custom`), and the handlers that only raise are (`answers_raising`). Nothing
is asked of the fuel but that there be enough, and nothing of the direct reading but
that it does not give up, which it does where the registry is read as a mapping and
is written to meanwhile.
-/

namespace StackBridge

namespace Bridge

open Session Direct Filter

variable {ctx : Context} {run : BlockId → Action Unit} {h : Handler} {k : MachineId}
  {s : Session} {index : Int} {w : Value} {t : TypeExpr}

-- ================================================================= handlers

theorem aside_report (r : Report) : Aside k (report r) :=
  ⟨fun _ _ _ => rfl, fun _ => .of_same rfl rfl⟩

/-- A handler of the program, by its block and its result. -/
theorem answers_custom {block : BlockId} {result : Expr} (hrun : Aside k (run block))
    (hresult : Aside k (eval ctx result)) : Answers ctx run k (.custom block result) :=
  fun _ _ => (aside_report _).bind fun _ => hrun.bind fun _ => hresult

theorem aside_labelOf (c : Category) : Aside k (labelOf c) := by
  unfold labelOf
  cases c.typeName? with
  | some label => exact aside_pure label
  | none => exact aside_fail _

theorem aside_raiseText (message : String) :
    Aside k (onMachine k (Vm.raiseText message) : Action HostValue) := by
  refine ⟨fun s l hk => ?_, fun s => ?_⟩
  · have hraise : ∀ vm : Vm, (Vm.raiseText message : Vm.Action HostValue) vm
        = .error (.machine (.str (utf8 message)) none) vm := fun _ => rfl
    rw [onMachine_withSlots_error hk (hraise _), onMachine_error (hraise _), withVm_vm]
    rfl
  · have hsame : final (onMachine k (Vm.raiseText message : Vm.Action HostValue) s) = s :=
      withVm_vm s k
    rw [hsame]
    exact Std.Refl.refl s

theorem answers_raising (hh : Raises h) : Answers ctx run k h := by
  intro actual expected
  cases h with
  | standard =>
      exact (aside_labelOf expected).bind fun _ => (aside_labelOf actual).bind fun _ =>
        aside_raiseText _
  | strict => exact aside_fail _
  | badArgument position function =>
      exact (aside_labelOf expected).bind fun _ => (aside_labelOf actual).bind fun _ =>
        aside_raiseText _
  | custom block result => exact hh.elim

-- ==================================================================== reads

/-- Where there is a value in a slot, the running frame begins on the stack. -/
theorem stands_of_slot (hk : k < s.machines.size) (hindex : index ≠ registryIndex)
    (hw : Vm.valueAt? index (s.vm k) = .ok (some w) (s.vm k)) :
    Stands k (s.machine k).slots s := by
  obtain ⟨b, fs, hf⟩ := Vm.framed_of_valueAt? hw hindex
  refine ⟨hk, b, fs, hf, ?_⟩
  by_cases hpos : 0 < index
  · have hget : Vm.valueAt? index (s.vm k)
        = .ok (s.machine k).slots[b + (index - 1).toNat]? (s.vm k) := Vm.valueAt?_pos hf hpos
    obtain ⟨hlt, -⟩ := List.getElem?_eq_some_iff.mp
      (EStateM.Result.ok.inj (hget.symm.trans hw)).1
    omega
  · obtain ⟨l, v, r, hs, hb, -⟩ := Vm.valueAt?_below hw hf hpos hindex
    have hslots : (s.machine k).slots = l ++ v :: r := hs
    rw [hslots, List.length_append]
    omega

/-- The registry has no slot, but an open machine stands anyway. -/
theorem stands_of_shown (hs : Reachable ctx s) (hk : k < s.machines.size)
    (hw : Vm.valueAt? index (s.vm k) = .ok (some w) (s.vm k))
    (hregistry : index = registryIndex → (s.machine k).closed = false) :
    Stands k (s.machine k).slots s := by
  by_cases hindex : index = registryIndex
  · obtain ⟨-, b, fs, hf, hb⟩ := hs.live (hregistry hindex)
    exact ⟨hk, b, fs, hf, hb⟩
  · exact stands_of_slot hk hindex hw

/-- A read answers what the direct reading of the value does, and leaves what it does. -/
theorem readValue_of_direct {v : HostValue} {u : Session}
    (hstands : Stands k (s.machine k).slots s) (hkept : s.heap.WellKept)
    (hw : Vm.valueAt? index (s.vm k) = .ok (some w) (s.vm k)) (hanswers : Answers ctx run k h)
    (hdirect : Direct.value ctx k (handle ctx run k h) readLimit w t s = .ok v u) :
    ∃ enough, ∀ fuel ≥ enough, readValue ctx run fuel k h index t s = .ok v u := by
  have hreads := readsDirectly hanswers readLimit
  obtain ⟨enough, henough⟩ := eventually_atTop.mp (hreads.level t hstands hkept hw)
  refine ⟨enough, fun fuel hfuel => ?_⟩
  have hlevel := henough fuel hfuel
  have hslots : (u.machine k).slots = (s.machine k).slots := ((hreads.stays w t).of_ok hdirect).slots
  rw [withSlots_self, hdirect] at hlevel
  have hread : readValue ctx run fuel k h index t s
      = .ok v (u.withSlots k (s.machine k).slots) := hlevel
  rw [hread, ← hslots, withSlots_self]

/-- The state after a list of a text, a number and a boolean has been pushed. -/
def mixedPushed : Session :=
  final (step bare (runBlock bare 9) 9
    (.push (.sequence .list [.value (.str "x"), .value (.int 7), .value (.bool true)]) .none)
    (Session.start 1 true))

/-- A handler whose block does nothing and whose result is zero. -/
def zeroing : Handler := .custom 0 (.value (.int 0))

theorem answers_zeroing : Answers bare (runBlock bare 9) 0 zeroing := by
  refine answers_custom (aside_pure ()) ?_
  unfold eval
  exact aside_individual _

/-- The categories that handlers have been called with, the last ones first. -/
def called (s : Session) : List (String × String) :=
  s.reports.filterMap fun
    | .handler actual expected => some (actual, expected)
    | _ => none

/-- The integers that a list is of. -/
def numbers : HostValue → Option (List Int)
  | .list vs => vs.mapM fun
    | .integer .plain n => some n
    | _ => none
  | _ => none

end Bridge

end StackBridge
