import StackBridge.Proofs.Frames.Isolation
import StackBridge.Proofs.Push.Atomic
import StackBridge.Proofs.Read.Untouched

/-!
Two runs from the same state, one of which may check the stack where the other one
does not. As long as no machine is closed every machine is open and has a frame
(`Sound`), so every push and every read meets the depth that its guard asks for,
and the guard adds nothing: the two runs go alike, in whatever frame and whichever
way an operation ends (`comparing`). No failure is ever about the depth of the
stack.
-/

namespace StackBridge

-- ================================================================ failures

/-- A failure that is not about the depth of the stack. -/
def Failure.Balanced (f : Failure) : Prop := f.kind ≠ .imbalance

theorem Failure.Plain.balanced {f : Failure} (h : f.Plain) : f.Balanced := by
  unfold Failure.Balanced
  intro hkind
  cases f with
  | imbalance i => exact h
  | stated kind message =>
      rw [show kind = .imbalance from hkind] at h
      exact h
  | host fault => cases fault <;> cases hkind
  | refusal r => cases r <;> cases hkind
  | _ => cases hkind

-- ============================================================= one machine

namespace Vm

/-- The machine of one state is confined to the running frame of the other, and
as open. -/
structure StaysOpen (vm vm' : Vm) : Prop where
  confines : vm.machine.Confines vm'.machine
  closed : vm'.machine.closed = vm.machine.closed

instance : Std.Refl StaysOpen := ⟨fun _ => ⟨.refl _, rfl⟩⟩

instance : IsTrans Vm StaysOpen :=
  ⟨fun _ _ _ h h' => ⟨h.confines.trans h'.confines, h'.closed.trans h.closed⟩⟩

instance : Lasts StaysOpen where
  steady h := ⟨h.confines, h.closed⟩
  store _ := ⟨.refl _, rfl⟩
  setFree _ _ _ := ⟨.of_same rfl rfl rfl, rfl⟩

theorem staysOpen_pushTable : Keeps StaysOpen pushTable :=
  fun vm => ⟨confined_pushTable.keeps vm, rfl⟩

theorem staysOpen_raiseTop {α : Type} : Keeps StaysOpen (raiseTop : Action α) := by
  unfold raiseTop
  exact (keeps_steady steady_take).bind fun _ => Keeps.throw _

end Vm

namespace Session

open Bridge Law

variable {s s' t u : Session} {k : MachineId} {n : Nat} {check : Bool → Bool}
  {α : Type} {ctx : Context}

-- ================================================================== sessions

/-- A session of `n` machines, all of them open and framed; the current one and
the ones of the wrappers are among them. -/
structure Sound (n : Nat) (s : Session) : Prop where
  size : s.machines.size = n
  current : s.current < n
  home : ∀ id, (s.wrapper id).machine < n
  framed : ∀ k, (s.machine k).Framed
  opened : ∀ k, (s.machine k).closed = false

/-- Every machine is as open as it was. -/
def AsOpen (s t : Session) : Prop := ∀ k, (t.machine k).closed = (s.machine k).closed

/-- Every machine is confined to its running frame, and as open as it was; the stack is
checked if it was. -/
structure StaysOpen (s t : Session) : Prop where
  confined : Confined s t
  closed : AsOpen s t
  checks : t.checks = s.checks

theorem AsOpen.trans (h : AsOpen s t) (h' : AsOpen t u) : AsOpen s u :=
  fun k => (h' k).trans (h k)

theorem StaysOpen.refl (s : Session) : StaysOpen s s := ⟨Std.Refl.refl s, fun _ => rfl, rfl⟩

theorem StaysOpen.trans (h : StaysOpen s t) (h' : StaysOpen t u) : StaysOpen s u :=
  ⟨h.confined.trans h'.confined, h.closed.trans h'.closed, h'.checks.trans h.checks⟩

theorem StaysOpen.of_machines (h : t.machines = s.machines) (hchecks : t.checks = s.checks) :
    StaysOpen s t := by
  refine ⟨.of_machines h, fun k => ?_, hchecks⟩
  unfold Session.machine
  rw [h]

/-- The checks are none of the machines' concern. -/
theorem Sound.recheck (h : Sound n s) (b : Bool) : Sound n { s with checks := b } :=
  ⟨h.size, h.current, h.home, h.framed, h.opened⟩

/-- Putting back a machine that is as open as it was. -/
theorem asOpen_withVm {vm : Vm} (h : vm.machine.closed = (s.machine k).closed) :
    AsOpen s (s.withVm k vm) := by
  intro j
  by_cases hjk : k = j
  · subst hjk
    by_cases hk : k < s.machines.size
    · rw [withVm_machine hk]
      exact h
    · rw [withVm_machine_none hk]
  · rw [withVm_machine_ne hjk]

theorem Sound.live (h : Sound n s) (k : MachineId) : (s.machine k).Live :=
  (h.framed k).live (h.opened k)

theorem Sound.lt_size (h : Sound n s) (hk : k < n) : k < s.machines.size := by
  rw [h.size]
  exact hk

/-- What stays open is sound if its wrappers and its current machine are. -/
theorem Sound.kept (h : Sound n s) (hkept : StaysOpen s t) (hcurrent : t.current < n)
    (hhome : ∀ id, (t.wrapper id).machine < n) : Sound n t := by
  have hopened : ∀ k, (t.machine k).closed = false :=
    fun k => (hkept.closed k).trans (h.opened k)
  exact ⟨hkept.confined.size.trans h.size, hcurrent, hhome,
    fun k => (hkept.confined.machine k).framed (hopened k) (h.framed k), hopened⟩

theorem Sound.withVm (h : Sound n s) {vm : Vm} (hkept : StaysOpen s (s.withVm k vm)) :
    Sound n (s.withVm k vm) :=
  h.kept hkept h.current h.home

theorem asOpen_entering (s : Session) (k : MachineId) (position : Nat) :
    AsOpen s (entering k position s) :=
  asOpen_withVm rfl

/-- Another frame of a machine. -/
theorem Sound.entering (h : Sound n s) {position : Nat} (hk : k < n)
    (hbase : (s.machine k).baseOf ≤ position) (hlt : position ≤ (s.machine k).slots.length) :
    Sound n (entering k position s) where
  size := (withVm_size s k _).trans h.size
  current := h.current
  home := h.home
  framed j := by
    have hwithin := (entering_within (h.lt_size hk) hbase hlt).machine j
    exact hwithin.framed ((asOpen_entering s k position j).trans (h.opened j)) (h.framed j)
  opened j := (asOpen_entering s k position j).trans (h.opened j)

theorem staysOpen_onMachine {a : Vm.Action α} (ha : Keeps Vm.StaysOpen a) :
    Keeps StaysOpen (onMachine k a) := by
  intro s
  have h := ha (s.vm k)
  rw [onMachine_final]
  exact ⟨Confined.withVm (Std.Refl.refl s) h.confines, asOpen_withVm h.closed, rfl⟩

-- =================================================================== the law

/-- A result in a session that checks the stack, or does not. -/
def rechecked (b : Bool) : EStateM.Result Stop Session α → EStateM.Result Stop Session α
  | .ok x t => .ok x { t with checks := b }
  | .error e t => .error e { t with checks := b }

theorem rechecked_self {b : Bool} {r : EStateM.Result Stop Session α}
    (h : (final r).checks = b) : rechecked b r = r := by
  subst h
  cases r <;> rfl

/-- A session that is sound, and stays open from the one before. -/
def StaysSound (n : Nat) (s t : Session) : Prop := Sound n t ∧ StaysOpen s t

/-- Stopping with something else than a failure about the depth of the stack. -/
def Balances : Stop → Prop
  | .failed f => f.Balanced
  | .exhausted => True

/-- The law of two runs, where the second one checks the stack or not as `check`
says for the first one: they come to the same, and neither fails because of the
depth of the stack. -/
def comparing (check : Bool → Bool) (n : Nat) : Law where
  Valid k := k < n
  Same s s' := Sound n s ∧ s' = { s with checks := check s.checks }
  Way _ _ := True
  Kept := StaysOpen
  Stops _ f _ := f.Balanced
  Parts := False

/-- Two runs go alike if the second comes to the same as the first but for the
checks, and the first to a sound session. -/
theorem alike_comparing {M : Session → Prop} {r r' : EStateM.Result Stop Session α} :
    (comparing check n).Alike M s r r' ↔
      r' = rechecked (check s.checks) r ∧ Follows (StaysSound n) Balances s r := by
  constructor
  · intro h
    cases h with
    | ok same kept => exact ⟨by rw [same.2, kept.checks]; rfl, same.1, kept⟩
    | failed same kept stops =>
        exact ⟨by rw [same.2, kept.checks]; rfl, ⟨same.1, kept⟩, stops⟩
    | exhausted same kept =>
        exact ⟨by rw [same.2, kept.checks]; rfl, ⟨same.1, kept⟩, trivial⟩
    | passed parts => exact parts.elim
  · rintro ⟨rfl, h⟩
    cases r with
    | ok x t => exact .ok ⟨h.1, by rw [h.2.checks]⟩ h.2
    | error e t =>
        obtain ⟨⟨hsound, hkept⟩, hstop⟩ := h
        cases e with
        | failed f => exact .failed ⟨hsound, by rw [hkept.checks]⟩ hkept hstop
        | exhausted => exact .exhausted ⟨hsound, by rw [hkept.checks]⟩ hkept

/-- What does not see the checks goes alike if it comes to sound sessions. -/
theorem comparing_blind {a : Action α}
    (hblind : ∀ s b, a { s with checks := b } = rechecked b (a s))
    (ha : ∀ s, Sound n s → Follows (StaysSound n) Balances s (a s)) :
    (comparing check n).Holds fun _ => a := by
  rintro _ _ _ s _ ⟨hsound, rfl⟩ _
  exact alike_comparing.2 ⟨hblind s _, ha s hsound⟩

instance : Law.Lawful (comparing check n) where
  refl := StaysOpen.refl
  trans h h' := StaysOpen.trans h h'
  onWay _ := trivial
  further _ _ := trivial
  checks h := by rw [h.2]
  current h := h.1.current
  home h id := h.1.home id
  there h k hk := by
    show k < n
    rw [← h.1.size]
    exact hk
  plain _ h := h.balanced
  later _ h := h
  after h _ _ := h
  parts h _ := h.elim
  unseen {s s' t} hsame _ hmachines hwrappers _ hchecks hcurrent := by
    obtain ⟨hsound, rfl⟩ := hsame
    have hkept : StaysOpen s t := .of_machines hmachines hchecks
    refine ⟨⟨hsound.kept hkept hcurrent fun id => ?_, by rw [hchecks]⟩, hkept⟩
    unfold Session.wrapper
    rw [hwrappers]
    exact hsound.home id

theorem onMachine_rechecked (a : Vm.Action α) (s : Session) (b : Bool) :
    onMachine k a { s with checks := b } = rechecked b (onMachine k a s) := by
  have hvm : ({ s with checks := b } : Session).vm k = s.vm k := rfl
  unfold onMachine
  rw [hvm]
  cases a (s.vm k) <;> rfl

/-- What stays open on a machine, and fails with something else than an imbalance. -/
theorem comparing_onMachine {a : Vm.Action α} (ha : Keeps Vm.StaysOpen a)
    (hfails : ∀ vm f vm', a vm = .error f vm' → f.Balanced) :
    (comparing check n).Holds fun _ => onMachine k a := by
  refine comparing_blind (onMachine_rechecked a) fun s hsound => ?_
  have hkept := staysOpen_onMachine (k := k) ha s
  refine onMachine_ends ?_
  rw [onMachine_final] at hkept
  cases hr : a (s.vm k) with
  | ok x vm =>
      rw [hr] at hkept
      exact ⟨hsound.withVm hkept, hkept⟩
  | error f vm =>
      rw [hr] at hkept
      exact ⟨⟨hsound.withVm hkept, hkept⟩, hfails _ _ _ hr⟩

/-- What fails with a failure of its own. -/
theorem comparing_confined {a : Vm.Action α} (ha : Keeps Vm.StaysOpen a) (hfails : Vm.Confined a) :
    (comparing check n).Holds fun _ => onMachine k a := by
  refine comparing_onMachine ha fun vm f vm' hr => ?_
  have h := hfails vm
  rw [hr] at h
  exact h.2.plain.balanced

instance : Law.Moves (comparing check n) where
  primitive _ ha := comparing_confined (Vm.keeps_steady ha.steady) ha.steady.confined
  pushTable _ := comparing_confined Vm.staysOpen_pushTable Vm.confined_pushTable

instance : Law.Writes (comparing check n) where
  rawSet index _ := comparing_confined (Vm.keeps_rawSet index) (Vm.confined_rawSet index)
  setKey index key _ _ :=
    comparing_confined (Vm.keeps_setKey index key) (Vm.confined_setKey index key)
  ref index _ := comparing_confined (Vm.keeps_ref index) (Vm.confined_ref index)
  unref index r _ := comparing_confined (Vm.keeps_unref index r) (Vm.confined_unref index r)

instance : Law.Raises (comparing check n) where
  raiseTop _ := by
    refine comparing_onMachine Vm.staysOpen_raiseTop fun vm f vm' hr => ?_
    unfold Vm.raiseTop at hr
    rw [bind_apply] at hr
    have htake := Vm.steady_take vm
    cases hv : Vm.take vm with
    | ok v vm'' =>
        rw [hv] at hr
        cases hr
        exact fun hkind => by cases hkind
    | error g vm'' =>
        rw [hv] at hr htake
        cases hr
        exact htake.2.plain.balanced

instance : Law.Describes ctx (comparing check n) where
  describe t operation := by
    refine comparing_blind (fun s b => ?_) fun s hsound => ?_
    · unfold describe
      dsimp only
      cases describeIn ctx.classes operation t s.described with
      | error f noted => rfl
      | ok _ noted => cases t.hostType? <;> rfl
    · have hnoted : ∀ noted, StaysSound n s { s with described := noted } := fun noted =>
        have hkept : StaysOpen s { s with described := noted } := .of_machines rfl rfl
        ⟨hsound.kept hkept hsound.current hsound.home, hkept⟩
      refine (describe_ends ctx t operation s).mono ?_ ?_
      · rintro _ _ ⟨noted, rfl⟩
        exact hnoted noted
      · rintro _ _ ⟨⟨f, rfl, hplain⟩, noted, rfl⟩
        exact ⟨hnoted noted, hplain.balanced⟩

/-- Noting what becomes of a wrapper. -/
theorem comparing_rewrap {a : Action α} {x : Session → α} {g : Session → Array Wrapper}
    (ha : ∀ s, a s = .ok (x s) { s with wrappers := g s })
    (hx : ∀ s b, x { s with checks := b } = x s) (hg : ∀ s b, g { s with checks := b } = g s)
    (hhome : ∀ s, Sound n s → ∀ id,
      (({ s with wrappers := g s } : Session).wrapper id).machine < n) :
    (comparing check n).Holds fun _ => a := by
  refine comparing_blind (fun s b => ?_) fun s hsound => ?_
  · rw [ha, ha, hx, hg]
    rfl
  · rw [ha]
    have hkept : StaysOpen s { s with wrappers := g s } := .of_machines rfl rfl
    exact ⟨hsound.kept hkept hsound.current (hhome s hsound), hkept⟩

instance : Law.Wraps (comparing check n) where
  wrap {k} index hk := by
    refine (holds_primitive hk (.pushCopy index)).bind fun _ =>
      (Law.Writes.ref registryIndex hk).bind fun r => ?_
    refine comparing_rewrap (fun _ => rfl) (fun _ _ => rfl)
      (fun _ _ => rfl) fun s hs id => ?_
    rw [wrapper_push]
    split
    · exact hk
    · exact hs.home id
  release id := by
    refine .ask (fun _ _ => rfl) fun s s' hsame => ?_
    have hhome := hsame.1.home id
    have hforget : (comparing check n).Holds fun _ => (modify fun t => { t with
        wrappers := t.wrappers.setIfInBounds id { s.wrapper id with anchor := .released } } :
          Action Unit) := by
      refine comparing_rewrap (fun _ => rfl) (fun _ _ => rfl)
        (fun _ _ => rfl) fun t ht id' => ?_
      rw [wrapper_set]
      split
      · exact hhome
      · exact ht.home id'
    dsimp only
    split
    · exact .pure _
    · refine holds_isClosed.bind fun closed => ?_
      split
      · exact (Law.Writes.unref _ _ hhome).bind fun _ => hforget
      · exact hforget

-- ============================================================ pushes and reads

/-- A guard adds nothing to what changes the depth as promised, and not at all when
it fails. -/
theorem comparing_guarded {R : Session → Session → Prop} (hk : k < n) (delta : Nat)
    {F : Runner → Action α} (hF : (comparing check n).Holds F)
    (ha : ∀ run s, k < s.machines.size → (s.machine k).Live →
      Ends (F run s) (fun _ t => ∃ xs, xs.length = delta ∧ Leaves R k xs s t)
        fun _ t => Leaves R k [] s t)
    (what : String) :
    (comparing check n).Holds fun run => guardedIfChecking k delta what (F run) := by
  have hguard : ∀ run s, Sound n s → guardedIfChecking k delta what (F run) s = F run s :=
    fun run s hs => guardedIfChecking_transparent (hs.live k) delta what
      (ha run s (hs.lt_size hk) (hs.live k))
  rintro M run run' s _ ⟨hsound, rfl⟩ hrun
  dsimp only
  rw [hguard run s hsound, hguard run' _ (hsound.recheck _)]
  exact hF M run run' s _ ⟨hsound, rfl⟩ hrun

theorem comparing_pushAs (hk : k < n) (fuel : Nat) (v : HostValue) (t : TypeExpr) :
    (comparing check n).Holds fun _ => pushAs ctx k fuel v t := by
  induction fuel generalizing v t with
  | zero => exact .fail trivial
  | succ fuel ih =>
      refine (holds_describe _ _).bind fun host => ?_
      refine comparing_guarded (R := KeepsTables k) hk 1
        (holds_restoringTop hk (holds_pushShape hk ih v host)) (fun _ s hsize hl => ?_) _
      exact ((attempts_pushShape (addsOne_pushAs ctx fuel) ctx v host).restoring s hsize hl).mono
        (fun _ _ ⟨w, hw⟩ => ⟨[w], rfl, hw⟩) fun _ _ h => h.2

instance : Law.Pushes ctx (comparing check n) where
  pushValue v t hk := comparing_pushAs hk pushLimit v t

theorem raises_of_notOwn {h : Handler} (hh : h.isOwn = false) : Bridge.Raises h := by
  cases h with
  | custom block result => cases hh
  | _ => trivial

theorem comparing_readAs (hk : k < n) (fuel : Nat) {h : Handler} (hh : h.isOwn = false)
    (depth : Nat) (index : Int) (t : TypeExpr) :
    (comparing check n).Holds fun run => readAs ctx run fuel k h depth index t := by
  induction depth generalizing index t with
  | zero => exact .fail trivial
  | succ depth ih =>
      refine (holds_describe _ _).bind fun host => ?_
      refine comparing_guarded (R := GainsEntries k) hk 0 (holds_readHost hk ih fuel index host h)
        (fun run s hsize hl => ?_) _
      exact (readsOnly_readHost
        (fun i t => readsOnly_readAs ctx run (raises_of_notOwn hh) fuel depth i t)
        (raises_of_notOwn hh) fuel index host s hsize hl).mono
          (fun _ _ h => ⟨[], rfl, h⟩) fun _ _ h => h.2

instance : Law.Reads ctx (comparing check n) where
  readValue fuel _ index t hk hh := comparing_readAs hk fuel hh readLimit index t

end Session

end StackBridge
