import StackBridge.Proofs.Genuine.Push
import StackBridge.Proofs.Isolation.Isolating

/-!
The law that sessions stay in order (`valuing`): it holds of all that operations are
made of, but for writing to tables of the program's choice and for protected calls. A
value that is raised is genuine, or it is one that a function of the program raises, a
host value that may be none of the machine's.

What machines, wrappers and pushes raise of their own are words. They do so whatever
is written to tables, which is a law by itself (`wording`).
-/

namespace StackBridge

/-- A failure that raises no other value on a machine than a genuine one. -/
def Failure.Genuine (f : Failure) : Prop := ∀ v cause, f = .machine v cause → v.Genuine

theorem Failure.Plain.genuine {f : Failure} (h : f.Plain) : f.Genuine := by
  rintro v cause rfl
  cases v with
  | str b => trivial
  | _ => exact h.elim

/-- A value that some function of a program raises on a machine. -/
def Context.Raises (ctx : Context) (v : Value) : Prop :=
  ∃ (body : Nat) (args : List HostValue) (s t : Session) (cause : Option ErrorKind),
    Bridge.finish ctx args (ctx.program.body body).finish s
      = .error (.failed (.machine v cause)) t

namespace Session

open Bridge Law

variable {s s' t u : Session} {k : MachineId} {v : Value} {α : Type} {ctx : Context} {fuel : Nat}
  {args wanted : Int} {M : Session → Prop} {r r' : EStateM.Result Stop Session α} {op : Op}

-- ===================================================================== words

/-- The law that what is raised is genuine, of whatever is done to tables. -/
def wording : Law where
  Valid _ := True
  Same s s' := s' = s
  Way _ _ := True
  Kept _ _ := True
  Stops _ f _ := f.Genuine
  Parts := False

theorem alike_wording (h : ∀ f t, r = .error (.failed f) t → f.Genuine) :
    wording.Alike M s r r := by
  cases r with
  | ok x t => exact .ok rfl trivial
  | error e t =>
      cases e with
      | failed f => exact .failed rfl trivial (h f t rfl)
      | exhausted => exact .exhausted rfl trivial

theorem wording_of {a : Action α} (h : ∀ s f t, a s = .error (.failed f) t → f.Genuine) :
    wording.Holds fun _ => a := by
  rintro _ _ _ s _ rfl _
  exact alike_wording (h _)

instance : Lawful wording where
  refl _ := trivial
  trans _ _ := trivial
  onWay _ := trivial
  further _ _ := trivial
  checks := by
    rintro s _ rfl
    rfl
  current _ := trivial
  home _ _ := trivial
  there _ _ _ := trivial
  plain _ hf := hf.genuine
  later _ h := h
  after h _ _ := h
  parts h _ := h.elim
  unseen := by
    rintro s _ t rfl _ _ _ _ hchecks _
    refine ⟨?_, trivial⟩
    show { t with checks := _ } = t
    rw [← hchecks]

/-- What an action raises of which the law holds. -/
theorem genuine_of_wording {a : Action α} {f : Failure} (ha : wording.Holds fun _ => a)
    (h : a s = .error (.failed f) t) : f.Genuine := by
  have halike : wording.Alike Unmarked s (a s) (a s) := ha.apply rfl
  rw [h] at halike
  cases halike with
  | failed _ _ stops => exact stops
  | passed parts => exact parts.elim

theorem wording_confined {a : Vm.Action α} (ha : Vm.Confined a) :
    wording.Holds fun _ => onMachine k a := by
  refine wording_of fun s f t hr => ?_
  have h := ha (s.vm k)
  cases hvm : a (s.vm k) with
  | ok x vm =>
      rw [onMachine_ok hvm] at hr
      cases hr
  | error e vm =>
      rw [hvm] at h
      rw [onMachine_error hvm] at hr
      cases hr
      exact h.2.plain.genuine

instance : Law.Moves wording where
  primitive _ ha := wording_confined ha.steady.confined
  pushTable _ := wording_confined Vm.confined_pushTable

instance : Law.Closes wording where
  close _ := wording_of fun _ _ _ hr => by cases hr

instance : Law.Writes wording where
  rawSet index _ := wording_confined (Vm.confined_rawSet index)
  setKey index key _ _ := wording_confined (Vm.confined_setKey index key)
  ref index _ := wording_confined (Vm.confined_ref index)
  unref index r _ := wording_confined (Vm.confined_unref index r)

instance : Law.Checks wording where
  same h := h
  imbalance _ _ := fun _ _ hf => by cases hf
  setChecks _ := wording_of fun _ _ _ hr => by cases hr

instance : Law.Describes ctx wording where
  describe t operation := wording_of fun s f u hr => by
    have h := describe_ends ctx t operation s
    rw [hr] at h
    obtain ⟨⟨f', heq, hplain⟩, _⟩ := h
    cases heq
    exact hplain.genuine

instance : Law.Wraps wording where
  wrap index hk := (holds_primitive hk (.pushCopy index)).bind fun _ =>
    (Law.Writes.ref registryIndex hk).bind fun r => wording_of fun _ _ _ hr => by cases hr
  release id := by
    refine .ask (fun _ _ => rfl) fun s s' hsame => ?_
    have hforget : wording.Holds fun _ => (modify fun t => { t with
        wrappers := t.wrappers.setIfInBounds id { s.wrapper id with anchor := .released } } :
          Action Unit) := wording_of fun _ _ _ hr => by cases hr
    dsimp only
    split
    · exact .pure _
    · refine holds_isClosed.bind fun closed => ?_
      split
      · exact (Law.Writes.unref _ _ trivial).bind fun _ => hforget
      · exact hforget

instance : Law.Pushes ctx wording where
  pushValue v t hk := holds_pushAs hk pushLimit v t

-- ================================================================ the pushes

/-- A push leaves a session in order. -/
theorem saves_pushAs (fuel : Nat) (v : HostValue) (type : TypeExpr) :
    Keeps Saves (pushAs ctx k fuel v type) := by
  intro s
  have hst := swells_pushAs ctx k fuel v type s
  have htidy : Keeps (OnHeap (Heap.Stays Table.Tidy)) (pushAs ctx k fuel v type) :=
    (holds_pushAs trivial fuel v type).keeps
  exact .fresh (htidy s) hst.fresh fun hs =>
    (hst.genuine hs).imp_right fun hlong => .inr (hlong.mono (Nat.zero_le _))

instance : Kept ctx Saves where
  describe := Describes.describe
  pushValue _ v t := saves_pushAs pushLimit v t

-- ==================================================================== the law

/-- The law that sessions stay in order: what is raised is genuine, or a function of the
program raises it, or there is no room left. -/
def valuing (ctx : Context) : Law where
  Valid _ := True
  Same s s' := s' = s ∧ s.Sane
  Way _ _ := True
  Kept s t := s.Cramped → t.Cramped
  Stops _ f t := ∀ v cause, f = .machine v cause → v.Genuine ∨ ctx.Raises v ∨ t.Cramped
  Parts := False

theorem stops_genuine {f : Failure} (hf : f.Genuine) : (valuing ctx).Stops s f t :=
  fun v cause h => .inl (hf v cause h)

theorem alike_valuing : (valuing ctx).Alike M s r r' ↔ r' = r ∧ (final r).Sane
    ∧ (s.Cramped → (final r).Cramped)
    ∧ ∀ f t, r = .error (.failed f) t → (valuing ctx).Stops s f t := by
  constructor
  · intro h
    cases h with
    | ok same kept => exact ⟨by rw [same.1], same.2, kept, fun _ _ hr => by cases hr⟩
    | failed same kept stops =>
        refine ⟨by rw [same.1], same.2, kept, fun f t hr => ?_⟩
        cases hr
        exact stops
    | exhausted same kept => exact ⟨by rw [same.1], same.2, kept, fun _ _ hr => by cases hr⟩
    | passed parts => exact parts.elim
  · rintro ⟨rfl, hsane, hkept, hstops⟩
    cases r' with
    | ok x t => exact .ok ⟨rfl, hsane⟩ hkept
    | error e t =>
        cases e with
        | failed f => exact .failed ⟨rfl, hsane⟩ hkept (hstops f t rfl)
        | exhausted => exact .exhausted ⟨rfl, hsane⟩ hkept

/-- What leaves sessions in order and raises words of its own. -/
theorem valuing_of {a : Action α} (ha : Keeps Saves a) (hf : wording.Holds fun _ => a) :
    (valuing ctx).Holds fun _ => a := by
  rintro _ _ _ s _ ⟨rfl, hs⟩ _
  obtain ⟨hsane, hkept⟩ := ha _ hs
  exact alike_valuing.2 ⟨rfl, hsane, hkept, fun f t hr => stops_genuine (genuine_of_wording hf hr)⟩

instance : Lawful (valuing ctx) where
  refl _ := id
  trans h h' := h' ∘ h
  onWay _ := trivial
  further _ _ := trivial
  checks := by
    rintro s _ ⟨rfl, _⟩
    rfl
  current _ := trivial
  home _ _ := trivial
  there _ _ _ := trivial
  plain _ hf := stops_genuine hf.genuine
  later _ h := h
  after h _ hkept v cause hf := (h v cause hf).imp_right fun h => h.imp_right hkept
  parts h _ := h.elim
  unseen {s s' t} hsame hheap hmachines hwrappers _ hchecks _ := by
    obtain ⟨rfl, hs⟩ := hsame
    have hsaved : Saves s' t := Saves.same hheap hmachines hwrappers
    obtain ⟨ht, hkept⟩ := hsaved hs
    refine ⟨⟨?_, ht⟩, hkept⟩
    rw [← hchecks]

instance {ctx' : Context} : Law.Describes ctx' (valuing ctx) where
  describe t operation :=
    valuing_of (Describes.describe t operation) (Law.Describes.describe t operation)

instance : Law.Moves (valuing ctx) where
  primitive _ ha := valuing_of (Moves.steady _ ha.steady) (Law.Moves.primitive trivial ha)
  pushTable _ := valuing_of (Moves.pushTable _) (Law.Moves.pushTable trivial)

instance : Law.Closes (valuing ctx) where
  close _ := valuing_of (Moves.close _) (Law.Closes.close trivial)

instance : Law.Checks (valuing ctx) where
  same h := h.1
  imbalance _ _ := fun _ _ hf => by cases hf
  setChecks b := valuing_of (fun _ => Calm.unseen rfl rfl rfl rfl) (Law.Checks.setChecks b)

instance : Law.Wraps (valuing ctx) where
  wrap index _ := valuing_of (Wraps.wrap _ index) (Law.Wraps.wrap index trivial)
  release id := valuing_of (Wraps.release id) (Law.Wraps.release id)

instance : Law.Pushes ctx (valuing ctx) where
  pushValue v t _ := valuing_of (saves_pushAs pushLimit v t) (Law.Pushes.pushValue v t trivial)

/-- What is raised from a stack has been there. -/
instance : Law.Raises (valuing ctx) where
  raiseTop {α k} _ := by
    rintro _ _ _ _ s ⟨rfl, hs⟩ _
    have hsaved : Saves s (final (onMachine k Vm.raiseTop s : EStateM.Result _ _ α)) :=
      keeps_raiseTop s
    obtain ⟨hsane, hkept⟩ := hsaved hs
    refine alike_valuing.2 ⟨rfl, hsane, hkept, ?_⟩
    rintro f t (hr : onMachine k Vm.raiseTop s = _) v cause rfl
    rcases hs.genuine with hg | hc
    · left
      have htake := Vm.yields_take (s.vm k) (hg.vm k)
      have hconfined := Vm.steady_take.confined (s.vm k)
      cases hv : Vm.take (s.vm k) with
      | ok w vm =>
          rw [hv] at htake
          have hraise : (Vm.raiseTop : Vm.Action α) (s.vm k) = .error (.machine w none) vm := by
            unfold Vm.raiseTop
            rw [bind_ok hv]
            rfl
          rw [onMachine_error hraise] at hr
          cases hr
          exact htake.1
      | error e vm =>
          rw [hv] at hconfined
          have hraise : (Vm.raiseTop : Vm.Action α) (s.vm k) = .error e vm := by
            unfold Vm.raiseTop
            exact bind_error hv
          rw [onMachine_error hraise] at hr
          cases hr
          exact hconfined.2.plain.genuine v cause rfl
    · refine .inr (.inr ?_)
      have hcramped := hkept hc
      rw [hr] at hcramped
      exact hcramped

-- ====================================================================== calls

/-- Other slots of a machine that are genuine as long as there is room, and other frames. -/
theorem Saves.shuffled (s : Session) (k : MachineId) (slots : List Value) (frames : List Nat)
    (hslots : s.Genuine → ¬ s.Cramped → ∀ w ∈ slots, w.Genuine) :
    Saves s (s.withVm k { s.vm k with machine := { s.machine k with slots, frames } }) := by
  have hfresh : Fresh s
      (s.withVm k { s.vm k with machine := { s.machine k with slots, frames } }) := by
    refine ⟨rfl, withVm_size s k _, Nat.le_refl _, fun _ _ => rfl, fun j => .inl ?_⟩
    by_cases hjk : k = j
    · subst hjk
      by_cases hk : k < s.machines.size
      · rw [withVm_machine hk]
        exact ⟨rfl, rfl, rfl⟩
      · rw [withVm_machine_none hk]
        exact ⟨rfl, rfl, rfl⟩
    · rw [withVm_machine_ne hjk]
      exact ⟨rfl, rfl, rfl⟩
  refine .fresh (Std.Refl.refl s.heap) hfresh fun hg => ?_
  by_cases hc : s.Cramped
  · exact .inr (hc.crowds hfresh.crowds)
  · exact .inl (hg.withVm ⟨hslots hg hc, (hg.vm k).tables, (hg.vm k).refs⟩ (Nat.le_refl _)
      (hg.registry k))

theorem valuing_finish (args : List HostValue) (body : Nat) :
    (valuing ctx).Holds fun _ => finish ctx args (ctx.program.body body).finish := by
  rintro _ _ _ _ s ⟨rfl, hs⟩ _
  have hsaved : Keeps Saves (finish ctx args (ctx.program.body body).finish) :=
    (passes_finish args _).keeps
  obtain ⟨hsane, hkept⟩ := hsaved s hs
  refine alike_valuing.2 ⟨rfl, hsane, hkept, ?_⟩
  rintro f t hr v cause rfl
  exact .inr (.inl ⟨body, args, s, t, cause, hr⟩)

theorem saves_leaveFrame (k : MachineId) : Keeps Saves (onMachine k Vm.leaveFrame) := by
  intro s
  rw [onMachine_final]
  cases hf : (s.machine k).frames with
  | nil =>
      rw [leaveFrame_none hf]
      show Saves s (s.withVm k (s.vm k))
      rw [withVm_vm]
      exact Std.Refl.refl s
  | cons b fs =>
      rw [leaveFrame_eq hf]
      exact .shuffled s k (s.machine k).slots fs fun hg _ => (hg.vm k).slots

theorem wording_leaveFrame (k : MachineId) : wording.Holds fun _ => onMachine k Vm.leaveFrame := by
  refine wording_of fun s f t hr => ?_
  cases hf : (s.machine k).frames with
  | nil =>
      rw [onMachine_error (leaveFrame_none hf)] at hr
      cases hr
      exact fun _ _ h => by cases h
  | cons b fs =>
      rw [onMachine_ok (leaveFrame_eq hf)] at hr
      cases hr

/-- Results come from the slots of the machine that they are put back on. -/
theorem valuing_call (hcallee : ∀ f, (valuing ctx).Holds (callee ctx fuel k f)) :
    (valuing ctx).Holds fun run => call ctx run fuel k args wanted := by
  refine holds_call_of fun s s' position f hsame _ _ M run run' hrun => ?_
  obtain ⟨rfl, hs⟩ := hsame
  have hentered : Saves s' (entering k (position + 1) s') :=
    .shuffled s' k (s'.machine k).slots _ fun hg _ => (hg.vm k).slots
  obtain ⟨hsane, hkept⟩ := hentered hs
  have hleave : (valuing ctx).Holds fun _ => onMachine k Vm.leaveFrame :=
    valuing_of (saves_leaveFrame k) (wording_leaveFrame k)
  have hleft := ((hcallee f).ensuring hleave) M run run' (entering k (position + 1) s') _
    ⟨rfl, hsane⟩ hrun
  refine Alike.later (hleft.bind fun values t t' hvalues ht _ => ?_) hkept
  obtain ⟨rfl, ht⟩ := ht
  obtain ⟨u, hcalled, hu⟩ := ensuring_ok hvalues
  have hput : Saves t' (final (onMachine k (Vm.replaceFrom position
      (Vm.adjustResults wanted values)) t')) := by
    rw [onMachine_final]
    refine .shuffled t' k _ (t'.machine k).frames fun hg _ v hv => ?_
    rcases List.mem_append.mp hv with hold | hnew
    · exact (hg.vm k).slots v (List.mem_of_mem_take hold)
    · rcases adjustResults_mem hnew with hresult | rfl
      · have hslot := callee_mem hcalled v hresult
        rw [← leaveFrame_slots hu] at hslot
        exact (hg.vm k).slots v hslot
      · trivial
  obtain ⟨hsane, hkept⟩ := hput ht
  exact alike_valuing.2 ⟨rfl, hsane, hkept, fun f u hr => by cases hr⟩

instance : Law.Calls ctx (valuing ctx) where
  finish body args := valuing_finish args body
  call _ _ _ hcallee := valuing_call hcallee

end Session

end StackBridge
