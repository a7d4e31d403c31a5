import StackBridge.Bridge.Guard
import StackBridge.Bridge.Describe
import StackBridge.Proofs.Session.Focus

/-!
The parts that bridge operations on a machine are put together of, told apart
by what they leave on its stack. An idle part leaves nothing, whether it
answers or stops; a part that settles leaves nothing if it answers; an attempt
leaves one value if it answers. The last two may leave anything when they
stop, and restoring the top is what makes all or nothing of them.

What a part may do to the heap is the relation `R`, and which stops it may come
to is `stop`; failures are always among them.
-/

namespace StackBridge

/-- A choice of stops that failures are among. -/
class Fails (stop : Stop → Prop) : Prop where
  failed : ∀ f, stop (.failed f)

instance : Fails Stop.Met := ⟨fun f => ⟨f, rfl⟩⟩

instance : Fails fun _ => True := ⟨fun _ => trivial⟩

namespace Session

section

variable {α : Type} (R : Session → Session → Prop) (stop : Stop → Prop) (k : MachineId)
  (a : Action α)

/-- A part that leaves nothing. -/
def Idle : Prop :=
  ∀ s, k < s.machines.size → (s.machine k).Live →
    Ends (a s) (fun _ t => Leaves R k [] s t) fun e t => stop e ∧ Leaves R k [] s t

/-- A part that leaves nothing, unless it stops. -/
def Settles : Prop :=
  ∀ s, k < s.machines.size → (s.machine k).Live →
    Ends (a s) (fun _ t => Leaves R k [] s t) fun e t => stop e ∧ ∃ xs, Leaves R k xs s t

/-- A part that leaves one value, or anything when it stops. -/
def Attempts : Prop :=
  ∀ s, k < s.machines.size → (s.machine k).Live →
    Ends (a s) (fun _ t => ∃ w, Leaves R k [w] s t) fun e t => stop e ∧ ∃ xs, Leaves R k xs s t

/-- A part that leaves one value or, when it stops, nothing. -/
def AddsOne : Prop :=
  ∀ s, k < s.machines.size → (s.machine k).Live →
    Ends (a s) (fun _ t => ∃ w, Leaves R k [w] s t) fun e t => stop e ∧ Leaves R k [] s t

end

variable {α β : Type} {R : Session → Session → Prop} {stop : Stop → Prop} {k : MachineId}
  {s s₀ t : Session} {xs : List Value}

theorem Idle.settles {a : Action α} (h : Idle R stop k a) : Settles R stop k a :=
  fun s hk hl => (h s hk hl).mono (fun _ _ h => h) fun _ _ h => ⟨h.1, [], h.2⟩

theorem AddsOne.attempts {a : Action α} (h : AddsOne R stop k a) : Attempts R stop k a :=
  fun s hk hl => (h s hk hl).mono (fun _ _ h => h) fun _ _ h => ⟨h.1, [], h.2⟩

-- =================================================================== guards

/-- A guard finds nothing wrong with what adds one value or nothing. -/
theorem AddsOne.guarded {a : Action α} (ha : AddsOne R stop k a) (what : String) :
    AddsOne R stop k (Bridge.guardedIfChecking k 1 what a) := by
  intro s hk hl
  have hguard := Bridge.guardedIfChecking_transparent hl 1 what <|
    (ha s hk hl).mono (fun _ _ ⟨w, hw⟩ => ⟨[w], rfl, hw⟩) fun _ _ h => h.2
  rw [show (1 : Int) = ((1 : Nat) : Int) from rfl, hguard]
  exact ha s hk hl

/-- A guard finds nothing wrong with what is idle. -/
theorem Idle.guarded {a : Action α} (ha : Idle R stop k a) (what : String) :
    Idle R stop k (Bridge.guardedIfChecking k 0 what a) := by
  intro s hk hl
  have hguard := Bridge.guardedIfChecking_transparent hl 0 what <|
    (ha s hk hl).mono (fun _ _ h => ⟨[], rfl, h⟩) fun _ _ h => h.2
  rw [show (0 : Int) = ((0 : Nat) : Int) from rfl, hguard]
  exact ha s hk hl

-- ======================================================== one after another

section

variable [SeesMemory k R]

/-- An idle part, after some have come before it. -/
theorem Idle.after {a : Action α} (ha : Idle R stop k a) (hk : k < s₀.machines.size)
    (hl : (s₀.machine k).Live) (h : Leaves R k xs s₀ s) :
    Ends (a s) (fun _ t => Leaves R k xs s₀ t) fun e t => stop e ∧ Leaves R k xs s₀ t := by
  have happ : ∀ t, Leaves R k [] s t → Leaves R k xs s₀ t := by
    intro t ht
    rw [← List.append_nil xs]
    exact h.trans ht
  exact (ha s (by rw [h.size]; exact hk) (h.live hl)).mono (fun _ t ht => happ t ht)
    fun _ t ht => ⟨ht.1, happ t ht.2⟩

/-- A part that settles, after some have come before it. -/
theorem Settles.after {a : Action α} (ha : Settles R stop k a) (hk : k < s₀.machines.size)
    (hl : (s₀.machine k).Live) (h : Leaves R k xs s₀ s) :
    Ends (a s) (fun _ t => Leaves R k xs s₀ t)
      fun e t => stop e ∧ ∃ ys, Leaves R k ys s₀ t := by
  refine (ha s (by rw [h.size]; exact hk) (h.live hl)).mono ?_ ?_
  · intro _ t ht
    rw [← List.append_nil xs]
    exact h.trans ht
  · rintro e t ⟨he, ys, ht⟩
    exact ⟨he, xs ++ ys, h.trans ht⟩

/-- An attempt, after some have come before it. -/
theorem Attempts.after {a : Action α} (ha : Attempts R stop k a) (hk : k < s₀.machines.size)
    (hl : (s₀.machine k).Live) (h : Leaves R k xs s₀ s) :
    Ends (a s) (fun _ t => ∃ w, Leaves R k (xs ++ [w]) s₀ t)
      fun e t => stop e ∧ ∃ ys, Leaves R k ys s₀ t := by
  refine (ha s (by rw [h.size]; exact hk) (h.live hl)).mono ?_ ?_
  · rintro _ t ⟨w, ht⟩
    exact ⟨w, h.trans ht⟩
  · rintro e t ⟨he, ys, ht⟩
    exact ⟨he, xs ++ ys, h.trans ht⟩

/-- What comes after a part that settles is attempted on the same stack. -/
theorem Settles.bind_attempts {a : Action α} {f : α → Action β} (ha : Settles R stop k a)
    (hf : ∀ x, Attempts R stop k (f x)) : Attempts R stop k (a >>= f) := by
  intro s hk hl
  exact (ha s hk hl).bind fun x t ht => (hf x).after hk hl ht

theorem Settles.bind {a : Action α} {f : α → Action β} (ha : Settles R stop k a)
    (hf : ∀ x, Settles R stop k (f x)) : Settles R stop k (a >>= f) := by
  intro s hk hl
  exact (ha s hk hl).bind fun x t ht => (hf x).after hk hl ht

theorem Idle.bind {a : Action α} {f : α → Action β} (ha : Idle R stop k a)
    (hf : ∀ x, Idle R stop k (f x)) : Idle R stop k (a >>= f) := by
  intro s hk hl
  exact (ha s hk hl).bind fun x t ht => (hf x).after hk hl ht

/-- Restoring the top makes an attempt all or nothing. -/
theorem Attempts.restoring {a : Action α} (ha : Attempts R stop k a) :
    AddsOne R stop k (Bridge.restoringTop k a) :=
  fun s hk hl => Bridge.restoringTop_ends hk hl (ha s hk hl)

/-- Restoring the top makes a part that settles idle. -/
theorem Settles.restoring {a : Action α} (ha : Settles R stop k a) :
    Idle R stop k (Bridge.restoringTop k a) :=
  fun s hk hl => Bridge.restoringTop_ends hk hl (ha s hk hl)

-- ============================================================== idle parts

theorem idle_pure (x : α) : Idle R stop k (pure x) := fun s _ _ => Leaves.refl s

theorem idle_get : Idle R stop k (get : Action Session) := fun s _ _ => Leaves.refl s

theorem idle_nextIndividual : Idle R stop k nextIndividual :=
  fun _ _ _ => Leaves.same rfl rfl rfl rfl rfl

theorem idle_individualFloat (x : Double) : Idle R stop k (individualFloat x) := by
  unfold individualFloat
  split
  · exact idle_nextIndividual.bind fun _ => idle_pure _
  · exact idle_pure _

theorem idle_individual (v : HostValue) : Idle R stop k (individual v) := by
  unfold individual
  split
  · exact (idle_individualFloat _).bind fun _ => idle_pure _
  · exact idle_nextIndividual.bind fun _ => idle_pure _
  · exact idle_nextIndividual.bind fun _ => idle_pure _
  · exact idle_pure _

variable [Fails stop]

theorem idle_fail (f : Failure) : Idle R stop k (fail f : Action α) :=
  fun s _ _ => ⟨Fails.failed f, Leaves.refl s⟩

theorem idle_onMachine {a : Vm.Action α} (ha : Vm.Looks a) :
    Idle R stop k (onMachine k a) := by
  intro s _ _
  refine (onMachine_looks ha).mono ?_ ?_
  · rintro _ t rfl
    exact Leaves.refl t
  · rintro e t ⟨⟨f, rfl⟩, rfl⟩
    exact ⟨Fails.failed f, Leaves.refl t⟩

theorem idle_ofHost (r : Except HostFault α) : Idle R stop k (ofHost r) := by
  cases r with
  | ok x => exact idle_pure x
  | error f => exact idle_fail _

theorem idle_encodeText (text : String) : Idle R stop k (encodeText text) := by
  refine idle_get.bind fun s => ?_
  cases s.encoding.encode text with
  | ok b => exact idle_pure b
  | error f => exact idle_fail _

theorem idle_decodeText (b : Bytes) : Idle R stop k (decodeText b) := by
  refine idle_get.bind fun s => ?_
  cases s.encoding.decode b with
  | ok t => exact idle_pure t
  | error f => exact idle_fail _

/-- Describing a type only notes it. -/
theorem idle_describe (ctx : Context) (t : TypeExpr) (operation : String) :
    Idle R stop k (Bridge.describe ctx t operation) := by
  intro s _ _
  unfold Bridge.describe
  cases Bridge.describeIn ctx.classes operation t s.described with
  | error f noted => exact ⟨Fails.failed f, Leaves.same rfl rfl rfl rfl rfl⟩
  | ok _ noted =>
      cases t.hostType? with
      | some h => exact Leaves.same rfl rfl rfl rfl rfl
      | none => exact ⟨Fails.failed _, Leaves.same rfl rfl rfl rfl rfl⟩

end

end Session

end StackBridge
