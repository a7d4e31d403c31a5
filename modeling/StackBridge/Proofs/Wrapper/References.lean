import StackBridge.Proofs.Push.Atomic
import StackBridge.Proofs.RoundTrip.Describe
import StackBridge.Proofs.Wrapper.Sparing

/-!
Wrapper references never alias or dangle (`references_kept`): as long as a
program leaves the registry of a machine to wrappers, the registry holds one
entry for each wrapper that holds on to something and nothing else, and a wrapper
pushes the very value that it was made of until it is released.

That it was made of that value is said of the run itself: `MadeOf` names the
moment at which the wrapper was made, the slot that it was made of, and a course
from there on.
-/

namespace StackBridge

namespace Session

open Bridge

variable {s t u s₀ : Session} {i j k : MachineId} {id : Nat} {ctx : Context} {a : Anchor}
  {v : Value}

-- ================================================================= the start

/-- A session whose machines are new: nothing is wrapped, and the tables are the
empty registries. -/
structure Pristine (n : Nat) (s : Session) : Prop where
  wrappers : s.wrappers = #[]
  machines : s.machines.size = n
  tables : s.heap.tables.size = n
  fresh : ∀ i < n, s.machine i = .fresh i
  table : ∀ id, s.heap.table id = .empty

theorem Pristine.addMachine {n : Nat} (h : Pristine n s) : Pristine (n + 1) s.addMachine where
  wrappers := h.wrappers
  machines := by
    show (s.machines.push _).size = n + 1
    rw [Array.size_push, h.machines]
  tables := by
    show (s.heap.tables.push .empty).size = n + 1
    rw [Array.size_push, h.tables]
  fresh i hi := by
    have hpush : s.addMachine.machine i
        = if i = n then .fresh s.heap.tables.size else s.machine i := by
      simp only [Session.addMachine, Session.machine, Heap.newTable, Array.getD_eq_getD_getElem?,
        Array.getElem?_push, h.machines]
      split <;> rfl
    rw [hpush]
    split
    · rename_i heq
      rw [h.tables, heq]
    · exact h.fresh i (by omega)
  table id := by
    have hsame : s.addMachine.heap.table id = s.heap.table id := by
      simp only [Session.addMachine, Heap.newTable, Heap.table, Array.getD_eq_getD_getElem?,
        Array.getElem?_push]
      split
      · rename_i heq
        simp [heq]
      · rfl
    rw [hsame]
    exact h.table id

theorem start_pristine (machines : Nat) (checks : Bool) :
    Pristine machines (Session.start machines checks) := by
  induction machines with
  | zero => exact ⟨rfl, rfl, rfl, nofun, fun _ => rfl⟩
  | succ n ih =>
      rw [start_succ]
      exact ih.addMachine

/-- An empty registry and no wrappers account for each other. -/
theorem Pristine.tracked {n : Nat} (h : Pristine n s) (hj : j < n) : Tracked j s := by
  have hwrapper : ∀ id, s.wrapper id = ⟨0, .released⟩ := fun id =>
    wrapper_beyond (by rw [h.wrappers]; exact Nat.zero_le id)
  have hnone : ∀ {p : Prop} {id r}, s.wrapper id = ⟨j, .entry r⟩ → p := by
    intro p id r hid
    rw [hwrapper] at hid
    cases hid
  have hregistry : s.registryTable j = .empty := h.table _
  have hgiven : s.givenBack j = [] := by
    unfold givenBack
    rw [h.fresh j hj]
    rfl
  refine ⟨by rw [h.machines]; exact hj, by rw [h.fresh j hj]; rfl, ?_, fun i hi hij => ?_,
    fun id hid => ?_, fun hid _ => hnone hid, fun hid => hnone hid, fun hid => hnone hid,
    fun hkey => ?_, ?_, ?_, fun r hr => ?_⟩
  · rw [h.fresh j hj, h.tables]
    exact hj
  · rw [h.machines] at hi
    rw [h.fresh i hi, h.fresh j hj]
    exact hij
  · rw [h.wrappers] at hid
    exact absurd hid (Nat.not_lt_zero id)
  · rw [hregistry] at hkey
    cases hkey
  · rw [hregistry]
    exact List.nodup_nil
  · rw [hgiven]
    exact List.nodup_nil
  · rw [hgiven] at hr
    cases hr

-- =================================================================== history

/-- Some way along a run a wrapper was made of the value in a slot, and the run
has gone on from there. -/
def MadeOf (j : MachineId) (s₀ s : Session) (id : Nat) (v : Value) : Prop :=
  ∃ u index u', Course j s₀ u ∧ Vm.valueAt? index (u.vm j) = .ok (some v) (u.vm j)
    ∧ wrap j index u = .ok id u' ∧ Course j u' s

theorem wrapper_congr (h : t.wrappers = s.wrappers) (id : Nat) : t.wrapper id = s.wrapper id := by
  unfold Session.wrapper
  rw [h]

/-- Releasing one wrapper leaves the others what they are. -/
theorem release_wrapper (n : Nat) (s : Session) (id : Nat) :
    (final (release n s)).wrapper id = s.wrapper id
      ∨ (final (release n s)).wrapper id = ⟨(s.wrapper id).machine, .released⟩ := by
  have hset : ∀ (m : Session), m.wrappers
        = s.wrappers.setIfInBounds n ⟨(s.wrapper n).machine, .released⟩ →
      m.wrapper id = s.wrapper id ∨ m.wrapper id = ⟨(s.wrapper id).machine, .released⟩ := by
    intro m hm
    have hset : m.wrapper id = _ := wrapper_congr (s := { s with
      wrappers := s.wrappers.setIfInBounds n ⟨(s.wrapper n).machine, .released⟩ }) hm id
    rw [hset, wrapper_set]
    split
    · rename_i heq
      rw [heq.1]
      exact Or.inr rfl
    · exact Or.inl rfl
  by_cases hreleased : (s.wrapper n).anchor = .released
  · rw [release_released hreleased]
    exact Or.inl rfl
  · cases hclosed : (s.machine (s.wrapper n).machine).closed with
    | true =>
        rw [release_closed hreleased hclosed]
        exact hset _ rfl
    | false =>
        by_cases hr : (s.wrapper n).anchor.number < 0
        · rw [release_open hreleased hclosed (Vm.unref_none hr)]
          exact hset _ rfl
        · rw [release_open hreleased hclosed (Vm.unref_apply (Int.not_lt.mp hr))]
          exact hset _ rfl

/-- A wrapper that holds on to something after a part of a run has done so
before it, or was made by it. -/
theorem Part.holder (h : Part j s t) (hw : t.wrapper id = ⟨j, a⟩) (ha : a ≠ .released) :
    s.wrapper id = ⟨j, a⟩ ∨ ∃ index, Bridge.wrap j index s = .ok id t := by
  have hsame : t.wrappers = s.wrappers → s.wrapper id = ⟨j, a⟩ :=
    fun heq => (wrapper_congr heq id).symm.trans hw
  cases h with
  | other spares => exact Or.inl (hsame spares.wrappers)
  | release n =>
      rcases release_wrapper n s id with hkept | hreleased
      · exact Or.inl (hkept.symm.trans hw)
      · rw [hreleased] at hw
        cases hw
        exact absurd rfl ha
  | wrap i index =>
      have hpushed : ∀ (anchor : Anchor) (m : Session),
          m.wrappers = s.wrappers.push ⟨i, anchor⟩ → m.wrapper id = ⟨j, a⟩ →
            s.wrapper id = ⟨j, a⟩ ∨ id = s.wrappers.size ∧ i = j := by
        intro anchor m hm hid
        have hpush : m.wrapper id = _ :=
          wrapper_congr (s := { s with wrappers := s.wrappers.push ⟨i, anchor⟩ }) hm id
        rw [hpush, wrapper_push] at hid
        split at hid
        · rename_i heq
          cases hid
          exact Or.inr ⟨heq, rfl⟩
        · exact Or.inl hid
      rcases wrap_cases i index s with ⟨e, l, heq⟩ | ⟨v, _, _, ⟨_, heq⟩ | ⟨_, heq⟩⟩
      · rw [heq] at hsame
        exact Or.inl (hsame rfl)
      · rw [heq] at hw
        rcases hpushed _ _ rfl hw with hbefore | ⟨rfl, rfl⟩
        · exact Or.inl hbefore
        · refine Or.inr ⟨index, ?_⟩
          rw [heq]
          rfl
      · rw [heq] at hw
        rcases hpushed _ _ rfl hw with hbefore | ⟨rfl, rfl⟩
        · exact Or.inl hbefore
        · refine Or.inr ⟨index, ?_⟩
          rw [heq]
          rfl

/-- A new wrapper holds the value of the slot that it was made of. -/
theorem Tracked.wrapped?_new (h : Tracked j s) {index : Int} (hwrap : wrap j index s = .ok id t)
    (hopen : (t.machine j).closed = false) :
    ∃ v a, Vm.valueAt? index (s.vm j) = .ok (some v) (s.vm j) ∧ t.wrapper id = ⟨j, a⟩
      ∧ a ≠ .released ∧ t.wrapped? id = some v := by
  rcases wrap_cases j index s with ⟨e, l, heq⟩ | ⟨v, hj, hvalue, ⟨rfl, heq⟩ | ⟨_, heq⟩⟩
  · rw [heq] at hwrap
    cases hwrap
  · rw [heq] at hwrap
    cases hwrap
    have hnew : ({ s with wrappers := s.wrappers.push ⟨j, .nil⟩ } : Session).wrapper
        s.wrappers.size = ⟨j, .nil⟩ := by
      rw [wrapper_push, if_pos rfl]
    exact ⟨.nil, .nil, hvalue, hnew, nofun, wrapped?_nil hnew⟩
  · rw [heq] at hwrap
    cases hwrap
    have hpos := h.nextRef_new.1
    have hanchor : Anchor.ofRef (s.vm j).nextRef = .entry (s.vm j).nextRef := by
      unfold Anchor.ofRef Vm.nilRef
      rw [if_neg (by omega)]
    have hclosed : ((s.withVm j ((s.vm j).afterRef (s.machine j).slots v)).machine j).closed
        = false := hopen
    rw [withVm_machine hj] at hclosed
    refine ⟨v, .entry (s.vm j).nextRef, hvalue, ?_, nofun,
      h.keep_wrapped (l := (s.machine j).slots) (v := v)
        ⟨hclosed, Vm.afterRef_registry .., Heap.setTable_size .., rfl, rfl⟩ (by rw [hanchor])⟩
    rw [hanchor]
    exact (wrapper_push (s.withVm j _) _ _).trans (if_pos rfl)

/-- Whatever holds on to something was made along the way. -/
theorem Course.madeOf (h : Course j s₀ s) (hnone : s₀.wrappers = #[])
    (hw : s.wrapper id = ⟨j, a⟩) (ha : a ≠ .released) : ∃ v, MadeOf j s₀ s id v := by
  induction h generalizing id a with
  | refl =>
      have hid := lt_size_of_wrapper hw ha
      rw [hnone] at hid
      exact absurd hid (Nat.not_lt_zero id)
  | @tail s t hcourse hpart ih =>
      rcases hpart.holder hw ha with hheld | ⟨index, hwrap⟩
      · obtain ⟨v, u, index, u', hu, hvalue, hmade, hafter⟩ := ih hheld ha
        exact ⟨v, u, index, u', hu, hvalue, hmade, hafter.trans (.of_part hpart)⟩
      · rcases wrap_cases j index s with ⟨e, l, heq⟩ | ⟨v, _, hvalue, _⟩
        · rw [heq] at hwrap
          cases hwrap
        · exact ⟨v, s, index, t, hcourse, hvalue, hwrap, .refl j t⟩

/-- What a wrapper was made of is what it holds for as long as it holds on to
something. -/
theorem MadeOf.wrapped? (h : MadeOf j s₀ s id v) (hs₀ : Tracked j s₀)
    (hopen : (s.machine j).closed = false) (hlive : (s.wrapper id).anchor ≠ .released) :
    s.wrapped? id = some v := by
  obtain ⟨u, index, u', hu, hvalue, hwrap, hafter⟩ := h
  have hmaking : Course j u u' := by
    have hpart : Part j u (final (wrap j index u)) := .wrap j index u
    rw [hwrap] at hpart
    exact .of_part hpart
  obtain ⟨hopen', hlater⟩ := hafter.tracks hopen
  obtain ⟨hopen'', hlater'⟩ := hmaking.tracks hopen'
  have hbefore := ((hu.tracks hopen'').2 hs₀).tracked
  obtain ⟨v', a, hv', hw, ha, hheld⟩ := hbefore.wrapped?_new hwrap hopen'
  obtain rfl : v' = v := by
    rw [hvalue] at hv'
    cases hv'
    rfl
  rcases (hlater (hlater' hbefore).tracked).held id (lt_size_of_wrapper hw ha) (by rw [hw]) with
    hreleased | ⟨_, hsame⟩
  · rw [hreleased] at hlive
    exact absurd rfl hlive
  · rw [hsame, hheld]

-- =================================================================== pushing

/-- The wrapper that a wrapper or a bound function holds on to its value by. -/
def holder? : HostValue → Option Nat
  | .wrapper id _ | .bound id _ _ => some id
  | _ => none

/-- The value of a wrapper comes on top; only a value without a category, which
no slot of a program has, is refused after that. -/
theorem pushWrapped_live (hw : s.wrapper id = ⟨j, a⟩) (hv : s.wrapped? id = some v)
    {c : Category} (hc : v.category? = some c) :
    pushWrapped id s = .ok () (s.withSlots j ((s.machine j).slots ++ [v])) := by
  unfold pushWrapped
  rw [bind_ok (get_apply s), hw]
  cases a with
  | released =>
      rw [wrapped?_released hw] at hv
      cases hv
  | nil =>
      rw [wrapped?_nil hw] at hv
      cases hv
      exact push_eq s j .nil
  | entry r =>
      rw [wrapped?_entry hw] at hv
      cases hv
      have hnumber : (Value.int r).category? = some .number := rfl
      have hget : Vm.getKey registryIndex (.int r) (s.vm j)
          = .ok c ((s.vm j).withSlots
              ((s.machine j).slots ++ [(s.registryTable j).get (.int r)])) := by
        rw [Vm.getKey_apply (Vm.valueAt?_registry _)]
        exact Vm.fetch_eq hnumber hc
      dsimp only
      rw [bind_ok (onMachine_ok hget)]
      rfl

theorem pushWrapped_released (hw : s.wrapper id = ⟨j, .released⟩) :
    pushWrapped id s = .error (.failed (.misuse .released)) s := by
  unfold pushWrapped
  rw [bind_ok (get_apply s), hw]
  rfl

/-- Pushing a wrapper or a bound function by its class onto its own machine is
pushing its value, under a guard. -/
theorem pushAs_holder (ctx : Context) (fuel : Nat) {x : HostValue} (hx : holder? x = some id)
    (hw : s.wrapper id = ⟨j, a⟩) :
    ∃ noted what block, pushAs ctx j (fuel + 1) x .none s
        = guardedIfChecking j 1 what (restoringTop j block) { s with described := noted }
      ∧ block { s with described := noted } = pushWrapped id { s with described := noted } := by
  have haccepts : ∀ c, (∀ name, c ≠ .record name) → (TypeExpr.cls c).hostType?.isNone = false →
      Bridge.Accepts (describeIn ctx.classes "push" (.cls c)) := by
    intro c hc hshape
    refine accepts_enrol hshape ?_
    split
    · rename_i name
      exact absurd rfl (hc name)
    · exact Bridge.accepts_pure
  have hown : ∀ noted, ({ s with described := noted } : Session).wrapper id = ⟨j, a⟩ :=
    fun _ => hw
  unfold pushAs
  rw [if_pos rfl]
  cases x with
  | wrapper id' guessed =>
      cases hx
      obtain ⟨noted, hnoted⟩ :=
        describe_ok _ (haccepts (.wrapper guessed) (fun _ => HostClass.noConfusion) rfl) s
      refine ⟨noted, _, _, bind_ok (hnoted _ rfl), ?_⟩
      unfold pushShape
      dsimp only [pushDynamic]
      rw [bind_ok (get_apply _), hown, if_neg (fun h => h rfl)]
  | bound id' params returns =>
      cases hx
      obtain ⟨noted, hnoted⟩ := describe_ok _ (haccepts .bound (fun _ => HostClass.noConfusion) rfl) s
      refine ⟨noted, _, _, bind_ok (hnoted _ rfl), ?_⟩
      unfold pushShape
      dsimp only [pushCallable]
      rw [bind_ok (get_apply _), hown, if_neg (fun h => h rfl)]
  | _ => cases hx

theorem pushValue_live (ctx : Context) {x : HostValue} (hx : holder? x = some id)
    (hw : s.wrapper id = ⟨j, a⟩) (hv : s.wrapped? id = some v) {c : Category}
    (hc : v.category? = some c) (hj : j < s.machines.size) (hl : (s.machine j).Live) :
    ∃ t, pushValue ctx j x .none s = .ok () t ∧ Adds j [v] s t := by
  obtain ⟨noted, what, block, heq, hblock⟩ := pushAs_holder ctx 489 hx hw
  let u : Session := { s with described := noted }
  have hu : (u.machine j).Live := hl
  have hpush : block u = .ok () (u.withSlots j ((u.machine j).slots ++ [v])) := by
    rw [hblock]
    exact pushWrapped_live (s := u) hw hv hc
  have hadds : Adds j [v] u (u.withSlots j ((u.machine j).slots ++ [v])) :=
    push_leaves (s := u) hj v
  have hguard := guardedIfChecking_ok (R := KeepsTables j) hu what (restoringTop_ok hu hpush) hadds
  exact ⟨_, heq.trans hguard, (Leaves.same (k := j) (s := s) (t := u) rfl rfl rfl rfl rfl).trans hadds⟩

theorem pushValue_released (ctx : Context) {x : HostValue} (hx : holder? x = some id)
    (hw : s.wrapper id = ⟨j, .released⟩) (hj : j < s.machines.size) (hl : (s.machine j).Live) :
    ∃ t, pushValue ctx j x .none s = .error (.failed (.misuse .released)) t ∧ Adds j [] s t := by
  obtain ⟨noted, what, block, heq, hblock⟩ := pushAs_holder ctx 489 hx hw
  let u : Session := { s with described := noted }
  have hu : (u.machine j).Live := hl
  have hsame : Adds j [] s u := Leaves.same (k := j) rfl rfl rfl rfl rfl
  have hends : Ends (restoringTop j block u) (fun _ _ => False)
      fun e t => e = .failed (.misuse .released) ∧ Adds j [] u t := by
    refine restoringTop_ends (s := u) hj hu ?_
    rw [hblock, pushWrapped_released (s := u) hw]
    exact ⟨rfl, [], .refl u⟩
  have hguard : guardedIfChecking j 1 what (restoringTop j block) u = restoringTop j block u :=
    guardedIfChecking_transparent (R := KeepsTables j) hu 1 what
      (hends.mono (fun _ _ h => h.elim) fun _ _ h => h.2)
  cases hr : restoringTop j block u with
  | ok x t =>
      rw [hr] at hends
      exact hends.elim
  | error e t =>
      rw [hr] at hends
      obtain ⟨rfl, hadds⟩ := hends
      exact ⟨t, heq.trans (hguard.trans hr), hsame.trans hadds⟩

-- ================================================================ the result

/-- Pushing a wrapper, directly or by its class, puts a value on top. -/
def PushesHeld (ctx : Context) (j : MachineId) (s : Session) (id : Nat) (v : Value) : Prop :=
  (∃ t, pushWrapped id s = .ok () t ∧ Adds j [v] s t)
    ∧ ∀ x, holder? x = some id → ∃ t, pushValue ctx j x .none s = .ok () t ∧ Adds j [v] s t

/-- A wrapper can no longer be pushed, neither directly nor by its class, and
trying to do so leaves the stack as it was. -/
def RefusesHeld (ctx : Context) (j : MachineId) (s : Session) (id : Nat) : Prop :=
  pushWrapped id s = .error (.failed (.misuse .released)) s
    ∧ ∀ x, holder? x = some id → ∃ t,
      pushValue ctx j x .none s = .error (.failed (.misuse .released)) t ∧ Adds j [] s t

/-- Wrapper references neither alias nor dangle. As long as a program leaves the
registry of an open machine to wrappers, whatever else it does, wrappers that
hold on to something other than nil have references of their own, and the
registry has one entry for each of them and no other. A wrapper that has not been
released was made of some slot, and the value that the slot held then is what
every push of the wrapper puts on the stack, on its own or somewhere in a
composite; one that has been released is refused. -/
theorem references_kept (hj : j < ctx.program.machines) (hs : Spared ctx j s)
    (hopen : (s.machine j).closed = false) :
    (∀ id id' r, s.wrapper id = ⟨j, .entry r⟩ → s.wrapper id' = ⟨j, .entry r⟩ → id = id')
    ∧ ((s.registryTable j).entries.map (·.1)).Nodup
    ∧ (∀ key, (s.registryTable j).has key = true
        ↔ ∃ id r, key = .int r ∧ s.wrapper id = ⟨j, .entry r⟩)
    ∧ (∀ id a, s.wrapper id = ⟨j, a⟩ → a ≠ .released →
        (∃ v, MadeOf j (.start ctx.program.machines ctx.program.checks) s id v)
        ∧ ∀ v, MadeOf j (.start ctx.program.machines ctx.program.checks) s id v →
          s.wrapped? id = some v ∧ (v.category?.isSome = true → PushesHeld ctx j s id v))
    ∧ (∀ id, s.wrapper id = ⟨j, .released⟩ → s.wrapped? id = none ∧ RefusesHeld ctx j s id)
    ∧ ∀ x type t, pushValue ctx j x type s = .ok () t →
        ∃ w, (t.machine j).slots = (s.machine j).slots ++ [w]
          ∧ Placed ctx s.wrapped? t.heap s.heap.tables.size x type w := by
  have hstart := start_pristine ctx.program.machines ctx.program.checks
  have htracked := ((hs.course.tracks hopen).2 (hstart.tracked hj)).tracked
  have haccounts := htracked.accounts
  have hlive := (hs.framed hopen).live hopen
  refine ⟨fun _ _ _ => haccounts.distinct, haccounts.once, fun key => ⟨haccounts.owned, ?_⟩,
    fun id a hw ha => ⟨hs.course.madeOf hstart.wrappers hw ha, fun v hv => ?_⟩,
    fun id hw => ⟨wrapped?_released hw, pushWrapped_released hw,
      fun x hx => pushValue_released ctx hx hw htracked.there hlive⟩,
    fun x type t hpush => ?_⟩
  · rintro ⟨id, r, rfl, hw⟩
    exact haccounts.kept hw
  · have hheld := hv.wrapped? (hstart.tracked hj) hopen (by rw [hw]; exact ha)
    refine ⟨hheld, fun hcategory => ?_⟩
    obtain ⟨c, hc⟩ := Option.isSome_iff_exists.mp hcategory
    exact ⟨⟨_, pushWrapped_live hw hheld hc, push_leaves htracked.there v⟩,
      fun x hx => pushValue_live ctx hx hw hheld hc htracked.there hlive⟩
  · have hadds := addsOne_pushAs ctx pushLimit x type s htracked.there hlive
    have hpush' : pushAs ctx j pushLimit x type s = .ok () t := hpush
    rw [hpush'] at hadds
    obtain ⟨_, hadds⟩ := hadds
    obtain ⟨w, hlays⟩ := (places_pushAs ctx j pushLimit x type).lays hpush'
    refine ⟨w, hlays.lifted (by rw [hadds.size]; exact htracked.there),
      hlays.placed _ (hadds.closed.trans hopen) ⟨htracked.registry, fun _ _ => rfl⟩⟩

/-- One more operation of a program, not in a block. -/
def afterOp (s : Session) (op : Op) : Session :=
  final (sparingStep plain 0 (sparingBlock plain 0 9) 9 op s)

theorem Spared.afterOps (h : Spared plain 0 s) (ops : List Op) :
    Spared plain 0 (ops.foldl afterOp s) := by
  induction ops generalizing s with
  | nil => exact h
  | cons op ops ih => exact ih (h.step 9 op)

/-- A table has been wrapped and released twice, and a string wrapped then. -/
def reused : Session :=
  [.newTable, .wrapperNew (-1) "a", .wrapperRelease "a", .wrapperRelease "a",
    .plainPush .lString (.value (.bytes .plain [104, 105])), .wrapperNew (-1) "b"].foldl afterOp
      (.start 1 true)

/-- The second of two wrappers has taken the reference of the first. -/
theorem references_kept_reused :
    0 < plain.program.machines ∧ Spared plain 0 reused ∧ (reused.machine 0).closed = false
      ∧ reused.wrapper 0 = ⟨0, .released⟩ ∧ RefusesHeld plain 0 reused 0
      ∧ reused.wrapper 1 = ⟨0, .entry 1⟩
      ∧ (∃ v, MadeOf 0 (.start 1 true) reused 1 v)
      ∧ ∀ v, MadeOf 0 (.start 1 true) reused 1 v →
        v = .str [104, 105] ∧ PushesHeld plain 0 reused 1 v := by
  have hs : Spared plain 0 reused := (Spared.start rfl).afterOps _
  have hopen : (reused.machine 0).closed = false := by decide +kernel
  have hreleased : reused.wrapper 0 = ⟨0, .released⟩ := rfl
  have hentry : reused.wrapper 1 = ⟨0, .entry 1⟩ := rfl
  have hheld : reused.wrapped? 1 = some (.str [104, 105]) := by decide +kernel
  obtain ⟨_, _, _, hlive, hgone, _⟩ := references_kept (by decide) hs hopen
  obtain ⟨hmade, hpushes⟩ := hlive 1 _ hentry Anchor.noConfusion
  refine ⟨by decide, hs, hopen, hreleased, (hgone 0 hreleased).2, hentry, hmade, fun v hv => ?_⟩
  obtain ⟨hsame, hpush⟩ := hpushes v hv
  obtain rfl : v = .str [104, 105] := by
    rw [hheld] at hsame
    cases hsame
    rfl
  exact ⟨rfl, hpush rfl⟩

end Session

end StackBridge
