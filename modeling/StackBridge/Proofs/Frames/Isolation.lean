import Mathlib.Data.List.DropRight
import StackBridge.Proofs.Frames.Calls
import StackBridge.Proofs.Session.Reachable

/-!
Frame isolation: what a called function cannot do to its caller. Operations run
blocks only within the frames that they began in, so what is visited is within
(`visits_within`). All of `call_isolated` follows from that and from what a call
leaves.
-/

namespace StackBridge

theorem Machine.Framed.live {m : Machine} (h : m.Framed) (hopen : m.closed = false) : m.Live :=
  have ⟨fs, hf⟩ := h.frames_eq
  ⟨hopen, _, fs, hf, h.base_le⟩

namespace Session

open Bridge

variable {ctx : Context} {k : MachineId} {s t : Session} {α : Type}

-- ================================================================ reachable

theorem start_framed (machines : Nat) (checks : Bool) (k : MachineId) :
    ((Session.start machines checks).machine k).Framed := by
  obtain ⟨registry, hfresh⟩ := start_fresh machines checks k
  rw [hfresh]
  exact Machine.fresh_framed registry

/-- An operation that runs blocks only within the frames of a state visits no
state that is not. -/
theorem visits_within {fuel : Nat} {F : (BlockId → Action Unit) → Action α} {s₀ : Session}
    (hF : ∀ run, (∀ b u, Within s₀ u → run b u = runBlock ctx fuel b u) →
      F run s = F (runBlock ctx fuel) s)
    (hv : Visits ctx fuel F s t) : Within s₀ t :=
  visits_onWay Confined hF hv

/-- Whatever a program comes to is within the frames that it started in. -/
theorem Reachable.within (h : Reachable ctx s) :
    Within (Session.start ctx.program.machines ctx.program.checks) s :=
  h.onWay Within Confined

/-- On every machine that has not been closed there is a frame, and the bases
of the frames never increase outwards and lie on the stack. -/
theorem Reachable.framed (h : Reachable ctx s) (hc : (s.machine k).closed = false) :
    (s.machine k).Framed :=
  (h.within.machine k).framed hc (start_framed _ _ k)

theorem Reachable.live (h : Reachable ctx s) (hc : (s.machine k).closed = false) :
    (s.machine k).Live :=
  (h.framed hc).live hc

-- ================================================================= results

/-- The results of a function are the last slots of its frame. -/
theorem results_spec {vm vm' : Vm} {count : Int} {values : List Value}
    (hm : vm.machine.Framed) (h : Vm.results count vm = .ok values vm') :
    count ≤ (vm.machine.frameSlots.length : Int)
      ∧ values = vm.machine.frameSlots.rtake count.toNat
      ∧ values.length = count.toNat := by
  obtain ⟨fs, hf⟩ := hm.frames_eq
  have hb := hm.base_le
  have hslots : vm.machine.frameSlots = vm.machine.slots.drop vm.machine.baseOf := by
    unfold Machine.frameSlots
    rw [hf]
  have hlen : vm.machine.frameSlots.length = vm.machine.slots.length - vm.machine.baseOf := by
    rw [hslots, List.length_drop]
  unfold Vm.results at h
  rw [bind_ok (Vm.getTop_eq hf)] at h
  by_cases hmany : (vm.machine.slots.length : Int) - vm.machine.baseOf < count
  · rw [if_pos hmany] at h
    cases h
  · rw [if_neg hmany] at h
    cases h
    refine ⟨by omega, ?_, ?_⟩
    · show vm.machine.slots.drop (vm.machine.slots.length - count.toNat) = _
      unfold List.rtake
      rw [hlen, hslots, List.drop_drop]
      congr 1
      omega
    · show (vm.machine.slots.drop (vm.machine.slots.length - count.toNat)).length = _
      rw [List.length_drop]
      omega

theorem adjustResults_all (values : List Value) : Vm.adjustResults (-1) values = values := rfl

theorem adjustResults_exactly {wanted : Int} (h : 0 ≤ wanted) (values : List Value) :
    Vm.adjustResults wanted values
      = values.take wanted.toNat ++ List.replicate (wanted.toNat - values.length) .nil := by
  unfold Vm.adjustResults
  rw [if_neg (by omega), if_neg (by omega)]

-- =============================================================== isolation

/-- A frame is kept to below a position: the bases of the frames lie on the
stack in order, and the slots below the position are what they were. -/
structure Isolated (k : MachineId) (position : Nat) (s t : Session) : Prop where
  framed : (t.machine k).Framed
  below : (t.machine k).slots.take position = (s.machine k).slots.take position

/-- What a call that has returned leaves of a machine: its slots below the
function, and then the last slots of the frame in which the function ran, as
many as it answered, brought to the wanted count. -/
def LeavesResults (ctx : Context) (fuel : Nat) (k : MachineId) (position : Nat) (wanted : Int)
    (s t : Session) : Prop :=
  ∃ f count u, functionAt? s k position = some f
    ∧ invoke ctx (runBlock ctx fuel) fuel k f (entering k (position + 1) s) = .ok count u
    ∧ (u.machine k).frames = (position + 1) :: (s.machine k).frames
    ∧ count ≤ ((u.machine k).frameSlots.length : Int)
    ∧ (wanted = -1 → (t.machine k).slots
        = (s.machine k).slots.take position ++ (u.machine k).frameSlots.rtake count.toNat)
    ∧ (0 ≤ wanted → (t.machine k).slots
        = (s.machine k).slots.take position
          ++ (((u.machine k).frameSlots.rtake count.toNat).take wanted.toNat
            ++ List.replicate (wanted.toNat - count.toNat) .nil))

/-- The results of the called function, read off what ran in its frame. -/
theorem leavesResults {fuel : Nat} {wanted : Int} {position : Nat} {f : FunctionObject}
    {values : List Value} {v : Session} (hk : k < s.machines.size)
    (hbase : (s.machine k).baseOf ≤ position) (hlt : position < (s.machine k).slots.length)
    (hf : functionAt? s k position = some f) (hm : (s.machine k).Framed)
    (hv : callee ctx fuel k f (runBlock ctx fuel) (entering k (position + 1) s) = .ok values v)
    (hc : (v.machine k).closed = false)
    (hslots : (t.machine k).slots
      = (s.machine k).slots.take position ++ Vm.adjustResults wanted values) :
    LeavesResults ctx fuel k position wanted s t := by
  unfold callee at hv
  rw [bind_apply] at hv
  have hinvoke := (@contained_invoke ctx k fuel f).keeps_of_run
    (keeps_runBlock ctx fuel) (entering k (position + 1) s)
  cases hr : invoke ctx (runBlock ctx fuel) fuel k f (entering k (position + 1) s) with
  | error e u =>
      rw [hr] at hv
      cases hv
  | ok count u =>
      rw [hr] at hv hinvoke
      dsimp only at hv
      obtain ⟨vm, hvm⟩ := onMachine_answered hv
      -- taking the results only looks at the machine
      have hlook := onMachine_looks (s := u) (k := k) (Vm.looks_results count)
      rw [hv] at hlook
      obtain rfl : v = u := hlook
      have hentered := hinvoke.machine k
      rw [entering_machine hk] at hentered
      have hframed := hm.enter (Nat.le_succ_of_le hbase) hlt
      obtain ⟨hcount, hvalues, hlength⟩ := results_spec (hentered.framed hc hframed) hvm
      refine ⟨f, count, v, hf, hr, hentered.frames hc hframed, hcount, fun hall => ?_,
        fun hexact => ?_⟩
      · rw [hslots, hall, adjustResults_all, hvalues]
        rfl
      · rw [hslots, adjustResults_exactly hexact, hlength, hvalues]
        rfl

/-- What a call visits is within the frame of the function that it calls. -/
theorem call_visits {fuel : Nat} {args wanted : Int} {position : Nat}
    (hposition : position = ((s.machine k).slots.length - args - 1 : Int).toNat)
    (hs : (s.machine k).closed = false → (s.machine k).Framed)
    (hv : Visits ctx fuel (fun run => call ctx run fuel k args wanted) s t)
    (hc : (t.machine k).closed = false) : Isolated k position s t := by
  rcases call_cases ctx fuel k args wanted s with ⟨e, hfail⟩ | ⟨p, f, hp, hlt, hbase, _, hcall⟩
  · -- a call that fails at once runs nothing
    obtain ⟨other, hne⟩ := hv
    exact absurd ((hfail _).trans (hfail _).symm) hne
  · obtain rfl : p = position := by omega
    have hk := lt_size_of_slots hlt
    have hin : Within (entering k (p + 1) s) t := by
      refine visits_within (fun run hrun => ?_) hv
      have hcallee : Contained (callee ctx fuel k f) := contained_callee fuel f
      obtain ⟨heq, _⟩ := hcallee.apply (keeps_runBlock ctx fuel) hrun
      rw [hcall run, hcall (runBlock ctx fuel)]
      unfold returning
      simp only [bind_apply, ensuring, heq]
    have hentered : ((entering k (p + 1) s).machine k).Framed := by
      have hopened := (hin.machine k).opened hc
      rw [entering_machine hk] at hopened ⊢
      exact (hs hopened).enter (Nat.le_succ_of_le hbase) hlt
    have hslots := congrArg (List.take p) ((hin.machine k).slots hc hentered)
    rw [entering_machine hk] at hslots
    have hmin : min p (p + 1) = p := Nat.min_eq_left (Nat.le_succ p)
    refine ⟨(hin.machine k).framed hc hentered, ?_⟩
    have hbase' : ({ s.machine k with frames := (p + 1) :: (s.machine k).frames } :
      Machine).baseOf = p + 1 := rfl
    rw [hbase', List.take_take, List.take_take, hmin] at hslots
    exact hslots

/-- A called function cannot touch its caller. Whatever it does, at every
moment of the call and after it the slots below the function are what they
were and the frames lie in order on the stack; however the call ends, the
frames are those from before it; and when it returns, the results stand where
the function stood. -/
theorem call_isolated (hs : Reachable ctx s) (fuel : Nat) (k : MachineId) (args wanted : Int)
    {position : Nat} (hposition : position = ((s.machine k).slots.length - args - 1 : Int).toNat) :
    (∀ t, Visits ctx fuel (fun run => call ctx run fuel k args wanted) s t →
        (t.machine k).closed = false → Isolated k position s t)
      ∧ (∀ t, final (call ctx (runBlock ctx fuel) fuel k args wanted s) = t →
        (t.machine k).closed = false →
          Isolated k position s t ∧ (t.machine k).frames = (s.machine k).frames)
      ∧ (∀ t, call ctx (runBlock ctx fuel) fuel k args wanted s = .ok () t →
        (t.machine k).closed = false → LeavesResults ctx fuel k position wanted s t) := by
  have hframed : ∀ t, Confined s t → (t.machine k).closed = false → (s.machine k).Framed :=
    fun t ht hc => hs.framed ((ht.machine k).opened hc)
  refine ⟨fun t hv hc => ?_, ?_⟩
  · exact call_visits hposition hs.framed hv hc
  rcases call_cases ctx fuel k args wanted s with ⟨e, hfail⟩ | ⟨p, f, hp, hlt, hbase, hf, hcall⟩
  · rw [hfail]
    refine ⟨fun t ht hc => ?_, fun t ht => by cases ht⟩
    obtain rfl : s = t := ht
    exact ⟨⟨hs.framed hc, rfl⟩, rfl⟩
  · obtain rfl : p = position := by omega
    have hk := lt_size_of_slots hlt
    have hbody := (@contained_callee ctx k fuel f).keeps_of_run
      (keeps_runBlock ctx fuel) (entering k (p + 1) s)
    obtain ⟨hreturned, hanswer⟩ := returning_returned hk hbase hlt wanted hbody
    rw [hcall]
    refine ⟨fun t ht hc => ?_, fun t ht hc => ?_⟩
    · rw [← ht] at hc ⊢
      have hm := hframed _ hreturned.confined hc
      exact ⟨⟨(hreturned.confined.machine k).framed hc hm, hreturned.below hc hm⟩,
        (hreturned.confined.machine k).frames hc hm⟩
    · rw [ht] at hreturned
      have hm := hframed _ hreturned.confined hc
      obtain ⟨values, v, hv, hclosed, hslots⟩ := hanswer t ht
      exact leavesResults hk hbase hlt hf hm hv (hclosed.symm.trans hc) (hslots hc hm)

/-- A function that empties its frame and leaves one slot of the two that it
claims, called above a slot of its caller for all of its results. -/
theorem call_isolated_all_results :
    ∃ ctx s, Reachable ctx s ∧ 1 = ((s.machine 0).slots.length - 0 - 1 : Int).toNat
      ∧ (∀ t, Visits ctx 9 (fun run => call ctx run 9 0 0 (-1)) s t →
          (t.machine 0).closed = false → Isolated 0 1 s t)
      ∧ (∀ t, final (call ctx (runBlock ctx 9) 9 0 0 (-1) s) = t →
          (t.machine 0).closed = false →
            Isolated 0 1 s t ∧ (t.machine 0).frames = (s.machine 0).frames)
      ∧ ∃ t, call ctx (runBlock ctx 9) 9 0 0 (-1) s = .ok () t
          ∧ LeavesResults ctx 9 0 1 (-1) s t := by
  let ctx : Context := ⟨[], ⟨[], 1, false, #[[], [.setTop 0, .pushNil]], #[], 0⟩⟩
  have hstart : Reachable ctx (Session.start 1 false) := Reachable.start rfl
  have hnil := hstart.step 9 .pushNil
  have hcalled := hnil.step 9 (.pushFunction (some "f") 1 (some 1))
  let s : Session := final (step ctx (runBlock ctx 9) 9 (.pushFunction (some "f") 1 (some 1))
    (final (step ctx (runBlock ctx 9) 9 .pushNil (Session.start 1 false))))
  have hposition : 1 = ((s.machine 0).slots.length - 0 - 1 : Int).toNat := by decide
  obtain ⟨hduring, hafter, hreturned⟩ := call_isolated hcalled 9 0 0 (-1) hposition
  obtain ⟨_, t, ht, hopen⟩ : ∃ x t, call ctx (runBlock ctx 9) 9 0 0 (-1) s = .ok x t
      ∧ (t.machine 0).closed = false := Ends.eq_ok (by decide +kernel)
  exact ⟨ctx, s, hcalled, hposition, hduring, hafter, t, ht, hreturned t ht hopen⟩

end Session

end StackBridge
