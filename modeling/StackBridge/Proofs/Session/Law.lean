import StackBridge.Bridge.Call
import StackBridge.Session.Settings
import StackBridge.Proofs.Describe.Nested
import StackBridge.Proofs.Frames.Primitives
import StackBridge.Proofs.Session.Focus

/-!
What is asked of runs, whatever the program does. A `Law` compares two runs, so
that one law can ask that they go alike, another that a state is like that of a
run under watch, and every law what is kept from the state before to the state
after, and with which failures an action may stop.

Operations run blocks of the program through a runner that they are given. A law
holds of an operation (`Law.Holds`) if, given runners that go alike wherever the
operation comes, it makes the two runs go alike. There is one rule for each way
in which operations are put together; what they are made of is asked of a law by
the classes at the end: values that move on a machine (`Moves`), wrappers
(`Wraps`), pushes (`Pushes`), reads (`Reads`), calls (`Calls`), and what only
some laws allow: writing to tables, closing, guards, raising, and the
configuration.
-/

namespace StackBridge

/-- Handlers of the program's own. -/
def Handler.isOwn : Handler → Bool
  | .custom .. => true
  | _ => false

/-- The values that the bridge itself uses as keys. -/
def Value.IsName : Value → Prop
  | .int _ | .str _ => True
  | _ => False

namespace Session

/-- What runs the blocks of a program. -/
abbrev Runner := BlockId → Action Unit

/-- What is asked of two runs. -/
structure Law where
  /-- The machines that there are. -/
  Valid : MachineId → Prop
  /-- What the two runs have in common at any moment. -/
  Same : Session → Session → Prop
  /-- What may be come to on the way from a state. -/
  Way : Session → Session → Prop
  /-- What is kept from before an action to after it. -/
  Kept : Session → Session → Prop
  /-- With what an action may fail, from the state before to the one after. -/
  Stops : Session → Failure → Session → Prop
  /-- Whether the second run may ever be left to itself. -/
  Parts : Prop

/-- What a cleanup makes of the stop that it comes after. -/
def stoppedBy {α : Type} (e : Stop) :
    EStateM.Result Stop Session Unit → EStateM.Result Stop Session α
  | .ok _ t => .error e t
  | .error e' t => .error (match e with | .exhausted => .exhausted | .failed _ => e') t

section

variable {α : Type} {s : Session}

theorem fail_after (c : Action Unit) (f : Failure) (s : Session) :
    (c >>= fun _ => (fail f : Action α)) s = stoppedBy (.failed f) (c s) := by
  rw [bind_apply]
  cases c s <;> rfl

/-- The cleanup comes last, whatever the action has come to. -/
theorem ensuring_eq (a : Action α) (c : Action Unit) (s : Session) :
    ensuring a c s = match a s with
      | .ok x t => (c >>= fun _ => pure x) t
      | .error e t => stoppedBy e (c t) := by
  unfold ensuring
  cases a s with
  | ok x t =>
      dsimp only
      rw [bind_apply]
      cases c t <;> rfl
  | error e t =>
      dsimp only
      cases c t <;> rfl

theorem onStop_eq (a : Action α) (c : Action Unit) (s : Session) :
    onStop a c s = match a s with
      | .ok x t => .ok x t
      | .error e t => stoppedBy e (c t) := by
  unfold onStop
  cases a s with
  | ok x t => rfl
  | error e t =>
      dsimp only
      cases c t <;> rfl

/-- A cleanup that always comes is one that comes after a stop, and otherwise comes
next. -/
theorem ensuring_onStop (a : Action α) (c : Action Unit) :
    ensuring a c = onStop a c >>= fun x => c >>= fun _ => pure x := by
  funext s
  rw [ensuring_eq, bind_apply, onStop_eq]
  cases a s with
  | ok x t => rfl
  | error e t =>
      dsimp only
      cases c t <;> rfl

end

namespace Law

variable {α β : Type}

/-- What a run may come to from a state. -/
structure Alone (L : Law) (s : Session) (r : EStateM.Result Stop Session α) : Prop where
  same : L.Same (final r) (final r)
  kept : L.Kept s (final r)
  stops : ∀ f t, r = .error (.failed f) t → L.Stops s f t

/-- What a run may come to from a mark that it has come through. -/
def Through (L : Law) (M : Session → Prop) (s : Session) (r : EStateM.Result Stop Session α) :
    Prop :=
  ∃ m, M m ∧ L.Way s m ∧ L.Alone m r

/-- What may be come to from wherever one was may be come to from the mark. -/
theorem Through.imp {L : Law} {M : Session → Prop} {s : Session}
    {r : EStateM.Result Stop Session α} {r' : EStateM.Result Stop Session β}
    (h : L.Through M s r) (himp : ∀ m, L.Alone m r → L.Alone m r') : L.Through M s r' :=
  let ⟨m, hm, hway, hsince⟩ := h
  ⟨m, hm, hway, himp m hsince⟩

/-- No marks at all. -/
abbrev Unmarked : Session → Prop := fun _ => False

/-- Two runs from a state come to the same, in states that go together. Or the first
one has come through a mark and gone on from there as it may, and it does not matter
what the second one has come to. -/
inductive Alike (L : Law) (M : Session → Prop) (s : Session) :
    EStateM.Result Stop Session α → EStateM.Result Stop Session α → Prop where
  | ok {x : α} {t u : Session} (same : L.Same t u) (kept : L.Kept s t) :
      Alike L M s (.ok x t) (.ok x u)
  | failed {f : Failure} {t u : Session} (same : L.Same t u) (kept : L.Kept s t)
      (stops : L.Stops s f t) : Alike L M s (.error (.failed f) t) (.error (.failed f) u)
  | exhausted {t u : Session} (same : L.Same t u) (kept : L.Kept s t) :
      Alike L M s (.error .exhausted t) (.error .exhausted u)
  | passed {r r' : EStateM.Result Stop Session α} (parts : L.Parts) (alone : L.Alone s r)
      (through : L.Through M s r) : Alike L M s r r'

/-- An operation goes alike in two runs if what runs its blocks does, wherever
it comes. -/
def Holds (L : Law) (F : Runner → Action α) : Prop :=
  ∀ M run run' s s', L.Same s s' →
    (∀ b t t', L.Way s t → L.Same t t' → L.Alike M t (run b t) (run' b t')) →
      L.Alike M s (F run s) (F run' s')

/-- What makes sense as a law: what is kept adds up, states that go together
differ in the checks only, and nothing else is seen than the heap, the
machines, the wrappers and the types described. -/
class Lawful (L : Law) : Prop where
  refl : ∀ s, L.Kept s s
  trans : ∀ {s t u}, L.Kept s t → L.Kept t u → L.Kept s u
  onWay : ∀ {s t}, L.Kept s t → L.Way s t
  further : ∀ {s t u}, L.Way s t → L.Way t u → L.Way s u
  checks : ∀ {s s'}, L.Same s s' → s' = { s with checks := s'.checks }
  current : ∀ {s s'}, L.Same s s' → L.Valid s.current
  home : ∀ {s s'}, L.Same s s' → ∀ id, L.Valid (s.wrapper id).machine
  there : ∀ {s s'}, L.Same s s' → ∀ k < s.machines.size, L.Valid k
  plain : ∀ {s s' f}, L.Same s s' → f.Plain → L.Stops s f s
  later : ∀ {s t u f}, L.Kept s t → L.Stops t f u → L.Stops s f u
  after : ∀ {s t u u' f}, L.Stops s f t → L.Same u u' → L.Kept t u → L.Stops s f u
  parts : ∀ {s s'}, L.Parts → L.Same s s' → L.Same s s
  unseen : ∀ {s s' t}, L.Same s s' → t.heap = s.heap → t.machines = s.machines →
    t.wrappers = s.wrappers → t.described = s.described → t.checks = s.checks →
    L.Valid t.current → L.Same t { t with checks := s'.checks } ∧ L.Kept s t

variable {L : Law} {s s' t t' : Session} {M : Session → Prop}

section

variable [Lawful L]

-- ============================================================== one run alone

namespace Alone

variable {r : EStateM.Result Stop Session α}

/-- What may be come to from later on may be come to from the beginning. -/
theorem later (h : L.Alone t r) (hkept : L.Kept s t) : L.Alone s r :=
  ⟨h.same, Lawful.trans hkept h.kept, fun f u hr => Lawful.later hkept (h.stops f u hr)⟩

omit [Lawful L] in
theorem error {e : Stop} (h : L.Alone s (.error e t : EStateM.Result Stop Session α)) :
    L.Alone s (.error e t : EStateM.Result Stop Session β) :=
  ⟨h.same, h.kept, fun f u hr => h.stops f u (by cases hr; rfl)⟩

omit [Lawful L] in
theorem answering {a : Action α} {x : β} (h : L.Alone s (a t)) :
    L.Alone s ((a >>= fun _ => pure x) t) := by
  rw [bind_apply]
  cases hr : a t with
  | ok y u =>
      rw [hr] at h
      exact ⟨h.same, h.kept, fun _ _ hr => by cases hr⟩
  | error e u =>
      rw [hr] at h
      exact h.error

/-- A cleanup after a stop. -/
theorem stoppedBy {e : Stop} {q : EStateM.Result Stop Session Unit} (hq : L.Alone t q)
    (h : L.Alone s (.error e t : EStateM.Result Stop Session α)) :
    L.Alone s (Session.stoppedBy e q : EStateM.Result Stop Session β) := by
  have hkept : L.Kept s (final q) := Lawful.trans h.kept hq.kept
  cases q with
  | ok _ u =>
      refine ⟨hq.same, hkept, fun f v hr => ?_⟩
      cases hr
      exact Lawful.after (h.stops f t rfl) hq.same hq.kept
  | error e' u =>
      refine ⟨hq.same, hkept, fun f v hr => ?_⟩
      cases e with
      | exhausted => cases hr
      | failed g =>
          cases hr
          exact Lawful.later h.kept (hq.stops f u rfl)

end Alone

-- =================================================================== two runs

namespace Alike

/-- What goes alike from later on goes alike from the beginning. -/
theorem later {r r' : EStateM.Result Stop Session α} (h : L.Alike M t r r')
    (hkept : L.Kept s t) : L.Alike M s r r' := by
  cases h with
  | ok hsame hk => exact .ok hsame (Lawful.trans hkept hk)
  | failed hsame hk hstops =>
      exact .failed hsame (Lawful.trans hkept hk) (Lawful.later hkept hstops)
  | exhausted hsame hk => exact .exhausted hsame (Lawful.trans hkept hk)
  | passed parts alone through =>
      obtain ⟨m, hm, hway, hsince⟩ := through
      exact .passed parts (alone.later hkept)
        ⟨m, hm, Lawful.further (Lawful.onWay hkept) hway, hsince⟩

/-- The first run by itself, where the second one may be left to itself. -/
theorem alone {r r' : EStateM.Result Stop Session α} (h : L.Alike M s r r')
    (parts : L.Parts) : L.Alone s r := by
  cases h with
  | ok hsame hkept => exact ⟨Lawful.parts parts hsame, hkept, fun _ _ hr => by cases hr⟩
  | failed hsame hkept hstops =>
      exact ⟨Lawful.parts parts hsame, hkept, fun _ _ hr => by cases hr; exact hstops⟩
  | exhausted hsame hkept =>
      exact ⟨Lawful.parts parts hsame, hkept, fun _ _ hr => by cases hr⟩
  | passed _ alone _ => exact alone

/-- One action after another. -/
theorem bind {a a' : Action α} {f f' : α → Action β} (h : L.Alike M s (a s) (a' s'))
    (hf : ∀ x t t', a s = .ok x t → L.Same t t' → L.Kept s t → L.Alike M t (f x t) (f' x t')) :
    L.Alike M s ((a >>= f) s) ((a' >>= f') s') := by
  simp only [bind_apply]
  generalize hr : a s = r, a' s' = r' at h
  cases h with
  | ok hsame hkept => exact (hf _ _ _ hr hsame hkept).later hkept
  | failed hsame hkept hstops => exact .failed hsame hkept hstops
  | exhausted hsame hkept => exact .exhausted hsame hkept
  | passed parts alone through =>
      cases r with
      | ok x t =>
          have hrest := (hf x t t hr alone.same alone.kept).alone parts
          exact .passed parts (hrest.later alone.kept) (through.imp fun _ h => hrest.later h.kept)
      | error e t => exact .passed parts alone.error (through.imp fun _ h => h.error)

omit [Lawful L] in
/-- Answering something else makes no difference. -/
theorem answering {a a' : Action α} {x : β} (h : L.Alike M s (a t) (a' t')) :
    L.Alike M s ((a >>= fun _ => pure x) t) ((a' >>= fun _ => pure x) t') := by
  generalize hr : a t = r, hr' : a' t' = r' at h
  cases h with
  | ok same kept =>
      rw [bind_ok hr, bind_ok hr']
      exact .ok same kept
  | failed same kept stops =>
      rw [bind_error hr, bind_error hr']
      exact .failed same kept stops
  | exhausted same kept =>
      rw [bind_error hr, bind_error hr']
      exact .exhausted same kept
  | passed parts alone through =>
      subst hr
      exact .passed parts alone.answering (through.imp fun _ h => h.answering)

/-- Meeting a failure. -/
theorem handling {a a' : Action α} {f f' : Failure → Action α}
    (h : L.Alike M s (a s) (a' s'))
    (hf : ∀ s₀ e t t', L.Same t t' → L.Kept s t → L.Kept s₀ t → L.Stops s₀ e t →
      L.Alike M s₀ (f e t) (f' e t')) :
    L.Alike M s (Session.handling a f s) (Session.handling a' f' s') := by
  simp only [Session.handling]
  generalize a s = r, a' s' = r' at h
  cases h with
  | ok hsame hkept => exact .ok hsame hkept
  | failed hsame hkept hstops => exact hf _ _ _ _ hsame hkept hkept hstops
  | exhausted hsame hkept => exact .exhausted hsame hkept
  | passed parts alone through =>
      cases r with
      | ok x t => exact .passed parts alone through
      | error e t =>
          cases e with
          | exhausted => exact .passed parts alone through
          | failed e =>
              have hmet : ∀ s₀, L.Alone s₀ (.error (.failed e) t : EStateM.Result _ _ α) →
                  L.Alone s₀ (f e t) := fun s₀ h₀ =>
                (hf s₀ e t t h₀.same alone.kept h₀.kept (h₀.stops e t rfl)).alone parts
              exact .passed parts (hmet s alone) (through.imp hmet)

/-- A cleanup after a stop; there are no marks to be passed in it. -/
theorem stoppedBy {e : Stop} {q q' : EStateM.Result Stop Session Unit}
    (hq : L.Alike Unmarked t q q')
    (h : L.Alike M s (.error e t : EStateM.Result Stop Session α) (.error e t')) :
    L.Alike M s (Session.stoppedBy e q : EStateM.Result Stop Session β)
      (Session.stoppedBy e q') := by
  cases h with
  | failed _ hkept hstops =>
      cases hq with
      | ok hsame hkept' =>
          exact .failed hsame (Lawful.trans hkept hkept') (Lawful.after hstops hsame hkept')
      | failed hsame hkept' hstops' =>
          exact .failed hsame (Lawful.trans hkept hkept') (Lawful.later hkept hstops')
      | exhausted hsame hkept' => exact .exhausted hsame (Lawful.trans hkept hkept')
      | passed _ _ through => exact through.elim fun _ h => h.1.elim
  | exhausted _ hkept =>
      cases hq with
      | ok hsame hkept' => exact .exhausted hsame (Lawful.trans hkept hkept')
      | failed hsame hkept' _ => exact .exhausted hsame (Lawful.trans hkept hkept')
      | exhausted hsame hkept' => exact .exhausted hsame (Lawful.trans hkept hkept')
      | passed _ _ through => exact through.elim fun _ h => h.1.elim
  | passed parts alone through =>
      have hcleaned := hq.alone parts
      exact .passed parts (hcleaned.stoppedBy alone)
        (through.imp fun _ h => hcleaned.stoppedBy h)

/-- Doing something about a failure, and failing with it all the same. -/
theorem rethrowing {a a' : Action α} {f f' : Failure → Action Unit}
    (h : L.Alike M s (a s) (a' s'))
    (hf : ∀ e t t', L.Same t t' → L.Alike Unmarked t (f e t) (f' e t')) :
    L.Alike M s (Session.handling a (fun e => f e >>= fun _ => Session.fail e) s)
      (Session.handling a' (fun e => f' e >>= fun _ => Session.fail e) s') := by
  refine h.handling fun s₀ e t t' hsame _ hkept hstops => ?_
  rw [fail_after, fail_after]
  exact (hf e t t' hsame).stoppedBy (.failed (α := α) hsame hkept hstops)

end Alike

/-- Where runners go alike from the beginning they do from later on. -/
theorem agree_later {run run' : Runner} (hkept : L.Kept s t)
    (hrun : ∀ b u u', L.Way s u → L.Same u u' → L.Alike M u (run b u) (run' b u')) :
    ∀ b u u', L.Way t u → L.Same u u' → L.Alike M u (run b u) (run' b u') :=
  fun b u u' hu hsame => hrun b u u' (Lawful.further (Lawful.onWay hkept) hu) hsame

end

namespace Holds

variable [Lawful L] {F : Runner → Action α}

theorem pure (x : α) : L.Holds fun _ => (Pure.pure x : Action α) :=
  fun _ _ _ s _ hsame _ => .ok hsame (Lawful.refl s)

theorem fail {f : Failure} (hf : f.Plain) : L.Holds fun _ => (Session.fail f : Action α) :=
  fun _ _ _ s _ hsame _ => .failed hsame (Lawful.refl s) (Lawful.plain hsame hf)

theorem exhausted : L.Holds fun _ => (throw .exhausted : Action α) :=
  fun _ _ _ s _ hsame _ => .exhausted hsame (Lawful.refl s)

/-- Running a block. -/
theorem run (b : BlockId) : L.Holds fun run => run b :=
  fun _ _ _ s s' hsame hrun => hrun b s s' (Lawful.onWay (Lawful.refl s)) hsame

theorem bind {G : α → Runner → Action β} (hF : L.Holds F) (hG : ∀ x, L.Holds (G x)) :
    L.Holds fun run => F run >>= fun x => G x run :=
  fun M run run' s s' hsame hrun =>
    (hF M run run' s s' hsame hrun).bind fun x t t' _ ht hkept =>
      hG x M run run' t t' ht (agree_later hkept hrun)

/-- What runs no blocks goes alike whatever runs them. -/
theorem apply {a : Action α} (ha : L.Holds fun _ => a) (hsame : L.Same s s') :
    L.Alike M s (a s) (a s') :=
  ha M (fun _ => Pure.pure ()) (fun _ => Pure.pure ()) s s' hsame
    fun _ t _ _ ht => .ok ht (Lawful.refl t)

/-- Looking at the session, though not at whether it checks the stack. -/
theorem ask {G : Session → Runner → Action α} (hblind : ∀ s b, G { s with checks := b } = G s)
    (hG : ∀ s s', L.Same s s' → L.Holds (G s)) :
    L.Holds fun run => get >>= fun s => G s run := by
  intro M run run' s s' hsame hrun
  have hsees : G s' = G s := by
    rw [Lawful.checks hsame]
    exact hblind s s'.checks
  have h := hG s s' hsame M run run' s s' hsame hrun
  simp only [bind_apply, get_apply, hsees]
  exact h

/-- Answering and noting what the law does not see. -/
theorem note {a : Action α} {x : Session → α} {g : Session → Session}
    (ha : ∀ s, a s = .ok (x s) (g s)) (hx : ∀ s b, x { s with checks := b } = x s)
    (hg : ∀ s b, g { s with checks := b } = { g s with checks := b })
    (hseen : ∀ s s', L.Same s s' → (g s).heap = s.heap ∧ (g s).machines = s.machines
      ∧ (g s).wrappers = s.wrappers ∧ (g s).described = s.described ∧ (g s).checks = s.checks
      ∧ L.Valid (g s).current) :
    L.Holds fun _ => a := by
  intro _ _ _ s s' hsame _
  obtain ⟨hheap, hmachines, hwrappers, hdescribed, hchecks, hcurrent⟩ := hseen s s' hsame
  obtain ⟨hsame', hkept⟩ :=
    Lawful.unseen hsame hheap hmachines hwrappers hdescribed hchecks hcurrent
  have hanswer : a s' = .ok (x s) { g s with checks := s'.checks } := by
    rw [Lawful.checks hsame, ha, hx, hg]
  dsimp only
  rw [ha, hanswer]
  exact .ok hsame' hkept

/-- Noting what the law does not see. -/
theorem tell {g : Session → Session} (hg : ∀ s b, g { s with checks := b } = { g s with checks := b })
    (hseen : ∀ s, (g s).heap = s.heap ∧ (g s).machines = s.machines
      ∧ (g s).wrappers = s.wrappers ∧ (g s).described = s.described ∧ (g s).checks = s.checks
      ∧ (g s).current = s.current) :
    L.Holds fun _ => (modify g : Action Unit) := by
  refine note (x := fun _ => ()) (g := g) (fun _ => rfl) (fun _ _ => rfl) hg fun s s' hsame => ?_
  obtain ⟨hheap, hmachines, hwrappers, hdescribed, hchecks, hcurrent⟩ := hseen s
  refine ⟨hheap, hmachines, hwrappers, hdescribed, hchecks, ?_⟩
  rw [hcurrent]
  exact Lawful.current hsame

/-- Making a machine the current one. -/
theorem focus {k : MachineId} (hk : L.Valid k) :
    L.Holds fun _ => (modify (fun s => { s with current := k }) : Action Unit) :=
  note (x := fun _ => ()) (fun _ => rfl) (fun _ _ => rfl) (fun _ _ => rfl)
    fun _ _ _ => ⟨rfl, rfl, rfl, rfl, rfl, hk⟩

theorem onStop {c : Action Unit} (hF : L.Holds F) (hc : L.Holds fun _ => c) :
    L.Holds fun run => Session.onStop (F run) c := by
  intro M run run' s s' hsame hrun
  have h := hF M run run' s s' hsame hrun
  simp only [onStop_eq]
  generalize F run s = r, F run' s' = r' at h
  cases h with
  | ok hsame' hkept => exact .ok hsame' hkept
  | failed hsame' hkept hstops =>
      exact (hc.apply hsame').stoppedBy (.failed (α := α) hsame' hkept hstops)
  | exhausted hsame' hkept =>
      exact (hc.apply hsame').stoppedBy (.exhausted (α := α) hsame' hkept)
  | passed parts alone through =>
      have hcleaned := (hc.apply (M := M) alone.same).alone parts
      cases r with
      | ok x t => exact .passed parts alone through
      | error e t =>
          exact .passed parts (hcleaned.stoppedBy alone)
            (through.imp fun _ h => hcleaned.stoppedBy h)

/-- A cleanup whatever happens comes after a stop or after the answer. -/
theorem ensuring {c : Action Unit} (hF : L.Holds F) (hc : L.Holds fun _ => c) :
    L.Holds fun run => Session.ensuring (F run) c := by
  simp only [ensuring_onStop]
  exact (hF.onStop hc).bind fun x => hc.bind fun _ => pure x

/-- Meeting a failure with something of which the law holds after it. -/
theorem handling {H : Failure → Runner → Action α} (hF : L.Holds F)
    (hH : ∀ f M run run' s t t', L.Stops s f t → L.Kept s t → L.Same t t' →
      (∀ b u u', L.Way t u → L.Same u u' → L.Alike M u (run b u) (run' b u')) →
        L.Alike M s (H f run t) (H f run' t')) :
    L.Holds fun run => Session.handling (F run) fun f => H f run := by
  intro M run run' s s' hsame hrun
  refine (hF M run run' s s' hsame hrun).handling fun s₀ f t t' ht hkept hkept' hstops => ?_
  exact hH f M run run' s₀ t t' hstops hkept' ht (agree_later hkept hrun)

/-- Meeting a failure whatever it is. -/
theorem meeting {H : Failure → Runner → Action α} (hF : L.Holds F) (hH : ∀ f, L.Holds (H f)) :
    L.Holds fun run => Session.handling (F run) fun f => H f run :=
  hF.handling fun f M run run' _ t t' _ hkept hsame hrun =>
    (hH f M run run' t t' hsame hrun).later hkept

/-- Doing something about a failure, and failing with it all the same. -/
theorem rethrowing {h : Failure → Action Unit} (hF : L.Holds F)
    (hh : ∀ f, L.Holds fun _ => h f) :
    L.Holds fun run => Session.handling (F run) fun f => h f >>= fun _ => Session.fail f :=
  fun M run run' s s' hsame hrun =>
    (hF M run run' s s' hsame hrun).rethrowing fun f _ _ ht => (hh f).apply ht

end Holds

/-- What leaves a function made of a host callable is the failure itself, or one
that carries no value of the program's. -/
theorem escaping_cases (f : Failure) :
    Bridge.escaping f = f ∨ (Bridge.escaping f).Plain := by
  unfold Bridge.escaping
  split
  · exact Or.inl rfl
  · cases (HostText.ofString (f.kind.label ++ ": ") ++ f.text).encode with
    | ok b => exact Or.inr trivial
    | error loose => exact Or.inr trivial

theorem Holds.escaping [Lawful L] {F : Runner → Action α} (hF : L.Holds F) :
    L.Holds fun run => Session.handling (F run) fun f => Session.fail (Bridge.escaping f) := by
  refine hF.handling (H := fun f _ => Session.fail (Bridge.escaping f))
    fun f M run run' s t t' hstops hkept hsame _ => ?_
  refine .failed hsame hkept ?_
  rcases escaping_cases f with heq | hplain
  · rw [heq]
    exact hstops
  · exact Lawful.later hkept (Lawful.plain hsame hplain)

/-- What holds of every block holds of what an operation does with them. -/
theorem Holds.of_alike {F : Runner → Action α} (hF : L.Holds F) {run : Runner}
    (hrun : ∀ b t t', L.Same t t' → L.Alike M t (run b t) (run b t')) {s s' : Session}
    (hsame : L.Same s s') : L.Alike M s (F run s) (F run s') :=
  hF M run run s s' hsame fun b t t' _ => hrun b t t'

-- ===================================================================== parts

/-- A law that holds of describing types. -/
class Describes (ctx : Context) (L : Law) : Prop extends Lawful L where
  describe : ∀ (t : TypeExpr) (operation : String),
    L.Holds fun _ => Bridge.describe ctx t operation

/-- A law that holds of what moves values in the running frame of a machine, and
of new tables. -/
class Moves (L : Law) : Prop extends Lawful L where
  primitive : ∀ {α : Type} {a : Vm.Action α} {k : MachineId}, L.Valid k → Vm.Primitive a →
    L.Holds fun _ => onMachine k a
  pushTable : ∀ {k : MachineId}, L.Valid k → L.Holds fun _ => onMachine k Vm.pushTable

/-- And of making and releasing wrappers. -/
class Wraps (L : Law) : Prop extends Moves L where
  wrap : ∀ {k : MachineId} (index : Int), L.Valid k → L.Holds fun _ => Bridge.wrap k index
  release : ∀ id : Nat, L.Holds fun _ => Bridge.release id

/-- And of describing types and pushing host values. -/
class Pushes (ctx : Context) (L : Law) : Prop extends Wraps L, Describes ctx L where
  pushValue : ∀ {k : MachineId} (v : HostValue) (t : TypeExpr), L.Valid k →
    L.Holds fun _ => Bridge.pushValue ctx k v t

/-- And of reading values, unless a handler of the program's own runs. -/
class Reads (ctx : Context) (L : Law) : Prop extends Pushes ctx L where
  readValue : ∀ {k : MachineId} (fuel : Nat) {h : Handler} (index : Int) (t : TypeExpr),
    L.Valid k → h.isOwn = false →
      L.Holds fun run => Bridge.readValue ctx run fuel k h index t

/-- A law that holds of writing to tables. -/
class Writes (L : Law) : Prop extends Moves L where
  rawSet : ∀ {k : MachineId} (index : Int), L.Valid k →
    L.Holds fun _ => onMachine k (Vm.rawSet index)
  setKey : ∀ {k : MachineId} (index : Int) {key : Value}, L.Valid k → key.IsName →
    L.Holds fun _ => onMachine k (Vm.setKey index key)
  ref : ∀ {k : MachineId} (index : Int), L.Valid k → L.Holds fun _ => onMachine k (Vm.ref index)
  unref : ∀ {k : MachineId} (index r : Int), L.Valid k →
    L.Holds fun _ => onMachine k (Vm.unref index r)

/-- A law about a single run, which may look whether the session checks the stack
and stop where a guard does. -/
class Checks (L : Law) : Prop extends Moves L where
  same : ∀ {s s' : Session}, L.Same s s' → s' = s
  imbalance : ∀ {s s' : Session} (i : Imbalance), L.Same s s' → L.Stops s (.imbalance i) s
  setChecks : ∀ b : Bool, L.Holds fun _ => Session.setChecks b

/-- A law that holds of closing machines. -/
class Closes (L : Law) : Prop extends Moves L where
  close : ∀ {k : MachineId}, L.Valid k → L.Holds fun _ => onMachine k Vm.close

/-- A law that holds of raising the value on top, whatever it is. -/
class Raises (L : Law) : Prop extends Moves L where
  raiseTop : ∀ {α : Type} {k : MachineId}, L.Valid k →
    L.Holds fun _ => (onMachine k Vm.raiseTop : Action α)

-- ============================================================ on a machine

variable {ctx : Context} {k : MachineId}

section

variable [Lawful L]

theorem holds_look {a : Vm.Action α} (ha : Vm.Looks a) : L.Holds fun _ => onMachine k a := by
  intro _ _ _ s s' hsame _
  have hvm : s'.vm k = s.vm k := by
    rw [Lawful.checks hsame]
    rfl
  have hlook := ha (s.vm k)
  dsimp only
  cases hr : a (s.vm k) with
  | ok x vm =>
      rw [hr] at hlook
      obtain rfl : s.vm k = vm := hlook
      rw [onMachine_look hr, onMachine_look (by rw [hvm]; exact hr)]
      exact .ok hsame (Lawful.refl s)
  | error f vm =>
      rw [hr] at hlook
      obtain rfl : s.vm k = vm := hlook.1
      have hfails : ∀ t : Session, t.vm k = s.vm k →
          onMachine k a t = .error (.failed f) t := by
        intro t ht
        rw [onMachine_error (by rw [ht]; exact hr), ← ht, withVm_vm]
      rw [hfails s rfl, hfails s' hvm]
      exact .failed hsame (Lawful.refl s) (Lawful.plain hsame hlook.2.plain)

theorem holds_getTop : L.Holds fun _ => getTop k := holds_look Vm.looks_getTop

theorem holds_isClosed : L.Holds fun _ => isClosed k :=
  .ask (fun _ _ => rfl) fun _ _ _ => .pure _

end

theorem holds_primitive [Moves L] (hk : L.Valid k) {a : Vm.Action α} (ha : Vm.Primitive a) :
    L.Holds fun _ => onMachine k a :=
  Moves.primitive hk ha

theorem holds_push [Moves L] (hk : L.Valid k) {v : Value} (hv : v.Native) :
    L.Holds fun _ => push k v :=
  holds_primitive hk (.push hv)

/-- Dropping the slots above a height. -/
theorem holds_droppingAbove [Moves L] (hk : L.Valid k) (top : Int) : L.Holds fun _ => (do
    if !(← isClosed k) then
      if top < (← getTop k) then onMachine k (Vm.setTop top)) := by
  refine holds_isClosed.bind fun closed => ?_
  split
  · refine holds_getTop.bind fun top' => ?_
    split
    · exact holds_primitive hk (.setTop _)
    · exact .pure _
  · exact .pure _

theorem holds_restoringTop [Moves L] (hk : L.Valid k) {F : Runner → Action α} (hF : L.Holds F) :
    L.Holds fun run => Bridge.restoringTop k (F run) :=
  holds_getTop.bind fun top => hF.onStop (holds_droppingAbove hk top)

section

variable [Checks L] {F : Runner → Action α}

theorem holds_get : L.Holds fun _ => (get : Action Session) := by
  intro _ _ _ s s' hsame _
  obtain rfl := Checks.same hsame
  exact .ok hsame (Lawful.refl s')

theorem holds_imbalance (i : Imbalance) : L.Holds fun _ => (Session.fail (.imbalance i) : Action α) :=
  fun _ _ _ s _ hsame _ => .failed hsame (Lawful.refl s) (Checks.imbalance i hsame)

theorem holds_guarded (delta : Int) (what : String) (hF : L.Holds F) :
    L.Holds fun run => Bridge.guarded k delta what (F run) := by
  have hcheck : ∀ (expected : Int) (raised : Option ErrorKind), L.Holds fun _ => (do
      if ← isClosed k then return
      let actual ← getTop k
      if actual ≠ expected then
        Session.fail (← Bridge.imbalance k what raised actual expected)) := by
    intro expected raised
    refine holds_isClosed.bind fun closed => ?_
    split
    · exact .pure _
    · refine holds_getTop.bind fun actual => ?_
      split
      · unfold Bridge.imbalance
        simp only [bind_assoc, pure_bind]
        exact (holds_look (Vm.looks_renderStack _)).bind fun _ => holds_imbalance _
      · exact .pure _
  refine holds_getTop.bind fun top => ?_
  refine Holds.bind (hF.rethrowing fun f => hcheck top (some f.kind)) fun a => ?_
  exact (hcheck _ _).bind fun _ => .pure a

theorem holds_guardedIfChecking (delta : Int) (what : String) (hF : L.Holds F) :
    L.Holds fun run => Bridge.guardedIfChecking k delta what (F run) := by
  intro M run run' s s' hsame hrun
  obtain rfl := Checks.same hsame
  unfold Bridge.guardedIfChecking
  dsimp only
  rw [bind_ok (get_apply s'), bind_ok (get_apply s')]
  cases s'.checks with
  | false => exact hF M run run' s' s' hsame hrun
  | true => exact holds_guarded delta what hF M run run' s' s' hsame hrun

end

end Law

end Session

end StackBridge
