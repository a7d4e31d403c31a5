import StackBridge.Proofs.Checks.Balanced

/-!
Checking the stack changes nothing. A program is quiet (`Program.Quiet`) if it
closes no machine, makes no check of its own, does not look at the checks or turn
them on or off, and none of its host functions raises a failure about the depth of
the stack. Whatever a quiet program does, two runs that differ in the checks come
to the same, and no operation fails because of the depth of the stack
(`checks_transparent`).

The law that compares the two runs holds of pushes and reads; what is left is
what happens in the frame of a called function, which is entered and left in both
runs alike (`comparing_returning`), and from there the rules for operations and
blocks carry it through the run.
-/

namespace StackBridge

/-- Operations that close no machine, make no check, and neither look at the checks nor
change them. -/
def Op.isQuiet (op : Op) : Bool := !op.closes && !op.seesChecks

/-- Host functions that do not raise a failure about the depth of the stack. -/
def Finish.isBalanced : Finish → Bool
  | .raise kind _ => kind ≠ .imbalance
  | _ => true

/-- A program of quiet operations and balanced host functions. -/
def Program.Quiet (p : Program) : Prop :=
  (∀ ops ∈ p.blocks.toList, ∀ op ∈ ops, op.isQuiet = true)
    ∧ ∀ body ∈ p.bodies.toList, body.finish.isBalanced = true

instance (p : Program) : Decidable p.Quiet := by
  unfold Program.Quiet
  infer_instance

theorem Program.Quiet.block {p : Program} (h : p.Quiet) (b : BlockId) :
    ∀ op ∈ p.block b, op.isQuiet = true := by
  unfold Program.block
  rw [Array.getD_eq_getD_getElem?]
  cases hb : p.blocks[b]? with
  | none => exact fun op hop => absurd hop List.not_mem_nil
  | some ops => exact h.1 ops (Array.mem_toList_iff.2 (Array.mem_of_getElem? hb))

theorem Program.Quiet.body {p : Program} (h : p.Quiet) (b : Nat) :
    (p.body b).finish.isBalanced = true := by
  unfold Program.body
  rw [Array.getD_eq_getD_getElem?]
  cases hb : p.bodies[b]? with
  | none => rfl
  | some body => exact h.2 body (Array.mem_toList_iff.2 (Array.mem_of_getElem? hb))

namespace Session

open Bridge Law

variable {s s' t u : Session} {k : MachineId} {n fuel : Nat} {check : Bool → Bool}
  {args wanted : Int} {α : Type} {ctx : Context} {M : Session → Prop}

-- ==================================================================== calls

/-- Nothing but slots and frames is different. -/
structure Shuffled (s t : Session) : Prop where
  closed : AsOpen s t
  checks : t.checks = s.checks
  current : t.current = s.current
  wrappers : t.wrappers = s.wrappers

instance : Std.Refl Shuffled := ⟨fun _ => ⟨fun _ => rfl, rfl, rfl, rfl⟩⟩

instance : IsTrans Session Shuffled :=
  ⟨fun _ _ _ h h' => ⟨h.closed.trans h'.closed, h'.checks.trans h.checks,
    h'.current.trans h.current, h'.wrappers.trans h.wrappers⟩⟩

theorem shuffled_onMachine {a : Vm.Action α}
    (ha : ∀ vm, (final (a vm)).machine.closed = vm.machine.closed) :
    Keeps Shuffled (onMachine k a) := by
  intro s
  rw [onMachine_final]
  exact ⟨asOpen_withVm (ha _), rfl, rfl, rfl⟩

theorem shuffled_leaveFrame : Keeps Shuffled (onMachine k Vm.leaveFrame) := by
  refine shuffled_onMachine fun vm => ?_
  cases hf : vm.machine.frames with
  | nil => rw [leaveFrame_none hf]; rfl
  | cons b fs => rw [leaveFrame_eq hf]; rfl

theorem shuffled_replaceFrom (position : Nat) (values : List Value) :
    Keeps Shuffled (onMachine k (Vm.replaceFrom position values)) :=
  shuffled_onMachine fun _ => rfl

theorem shuffled_recover (frames : Nat) (position : Int) (raised : Value) :
    Keeps Shuffled (onMachine k (Vm.recover frames position raised)) := by
  refine shuffled_onMachine fun vm => ?_
  obtain ⟨slots, _, hfinal⟩ := recover_shuffles frames position raised vm
  rw [hfinal]

/-- What keeps to the running frames, and but for slots and frames has come from what is
sound and as open as before. -/
theorem StaysSound.of_shuffled (hs : Sound n s) (hu : Sound n u) (hopen : AsOpen s u)
    (hchecks : u.checks = s.checks) (hconfined : Confined s t) (h : Shuffled u t) :
    StaysSound n s t := by
  have hkept : StaysOpen s t := ⟨hconfined, hopen.trans h.closed, h.checks.trans hchecks⟩
  refine ⟨hs.kept hkept ?_ fun id => ?_, hkept⟩
  · rw [h.current]
    exact hu.current
  · unfold Session.wrapper
    rw [h.wrappers]
    exact hu.home id

section

variable {position : Nat} {body body' : Action (List Value)}

/-- Leaving a frame and putting the results in place shuffles slots and frames. -/
theorem returning_shuffles (s : Session) :
    Shuffled (final (body s)) (final (returning k position wanted body s)) := by
  have hleft : Shuffled (final (body s)) (final (ensuring body (onMachine k Vm.leaveFrame) s)) := by
    rw [ensuring_final]
    exact shuffled_leaveFrame _
  unfold returning
  rw [bind_apply]
  cases hr : ensuring body (onMachine k Vm.leaveFrame) s with
  | ok values v =>
      rw [hr] at hleft
      exact IsTrans.trans _ _ _ hleft (shuffled_replaceFrom position _ v)
  | error e v =>
      rw [hr] at hleft
      exact hleft

/-- Leaving a frame fails with what the body has failed with, or where there is no frame. -/
theorem returning_fails {e : Stop} (h : returning k position wanted body s = .error e t) :
    (∃ u, body s = .error e u) ∨ Balances e := by
  have hleave : ∀ {f : Stop} {u v : Session}, onMachine k Vm.leaveFrame u = .error f v →
      Balances f := by
    intro f u v hf
    cases hframes : (u.machine k).frames with
    | nil =>
        rw [onMachine_error (leaveFrame_none hframes)] at hf
        cases hf
        exact fun hkind => by cases hkind
    | cons b fs =>
        rw [onMachine_ok (leaveFrame_eq hframes)] at hf
        cases hf
  unfold returning at h
  rw [bind_apply] at h
  unfold ensuring at h
  cases hb : body s with
  | ok values u =>
      rw [hb] at h
      dsimp only at h
      cases hl : onMachine k Vm.leaveFrame u with
      | ok _ v =>
          rw [hl] at h
          cases h
      | error f v =>
          rw [hl] at h
          cases h
          exact .inr (hleave hl)
  | error f u =>
      rw [hb] at h
      dsimp only at h
      cases hl : onMachine k Vm.leaveFrame u with
      | ok _ v =>
          rw [hl] at h
          cases h
          exact .inl ⟨u, rfl⟩
      | error g v =>
          rw [hl] at h
          cases f with
          | exhausted => cases h; exact .inl ⟨u, rfl⟩
          | failed f => cases h; exact .inr (hleave hl)

/-- Leaving a frame does not see the checks. -/
theorem returning_rechecked {b : Bool} (h : body' s' = rechecked b (body s)) :
    returning k position wanted body' s' = rechecked b (returning k position wanted body s) := by
  unfold returning
  rw [bind_apply, bind_apply]
  unfold ensuring
  rw [h]
  cases body s with
  | ok values u =>
      simp only [rechecked, onMachine_rechecked]
      cases onMachine k Vm.leaveFrame u with
      | ok _ v => simp only [rechecked, onMachine_rechecked]
      | error e v => rfl
  | error e u =>
      simp only [rechecked, onMachine_rechecked]
      cases onMachine k Vm.leaveFrame u <;> cases e <;> rfl

/-- Two calls go alike if what runs in the frame of the called function does. -/
theorem comparing_returning (hs : Sound n s) (hk : k < n)
    (hbase : (s.machine k).baseOf ≤ position) (hlt : position < (s.machine k).slots.length)
    (h : (comparing check n).Alike M (entering k (position + 1) s)
      (body (entering k (position + 1) s)) (body' (entering k (position + 1) s'))) :
    (comparing check n).Alike M s (returning k position wanted body (entering k (position + 1) s))
      (returning k position wanted body' (entering k (position + 1) s')) := by
  obtain ⟨hsame, hfollows⟩ := alike_comparing.1 h
  obtain ⟨hsound, hkept⟩ := hfollows.final
  have hreturned := (returning_returned (hs.lt_size hk) hbase hlt wanted hkept.confined).1
  refine alike_comparing.2 ⟨returning_rechecked hsame, follows_of_final ?_ fun e t ht => ?_⟩
  · exact .of_shuffled hs hsound ((asOpen_entering s k _).trans hkept.closed) hkept.checks
      hreturned.confined (returning_shuffles _)
  · rcases returning_fails ht with ⟨u, hu⟩ | hbalances
    · rw [hu] at hfollows
      exact hfollows.2
    · exact hbalances

end

/-- A call goes alike in two runs if what runs in the frame of the function does. -/
theorem comparing_call (hk : k < n)
    (hcallee : ∀ f, (comparing check n).Holds (callee ctx fuel k f)) :
    (comparing check n).Holds fun run => call ctx run fuel k args wanted := by
  refine holds_call_of ?_
  rintro s _ position f ⟨hs, rfl⟩ hlt hbase M run run' hrun
  have hentered := hs.entering hk (Nat.le_succ_of_le hbase) hlt
  exact comparing_returning hs hk hbase hlt <|
    hcallee f M run run' _ _ ⟨hentered, rfl⟩ fun b t t' _ => hrun b t t' trivial

/-- Going back to earlier frames does not see the checks, and fails only where there is
no frame. -/
theorem comparing_recover (hs : Sound n s) (hu : Sound n u) (hkept : StaysOpen s u)
    (position : Int) (raised : Value) :
    (comparing check n).Alike M s
      (onMachine k (Vm.recover (s.machine k).frames.length position raised) u)
      (onMachine k (Vm.recover (s.machine k).frames.length position raised)
        { u with checks := check u.checks }) := by
  refine alike_comparing.2 ⟨?_, follows_of_final ?_ fun e t ht => ?_⟩
  · rw [hkept.checks]
    exact onMachine_rechecked _ u _
  · refine .of_shuffled hs hu hkept.closed hkept.checks ?_ (shuffled_recover _ position raised u)
    rw [onMachine_final]
    exact hkept.confined.withVm (recover_confines (hkept.confined.machine k) position raised)
  · cases hr : Vm.recover (s.machine k).frames.length position raised (u.vm k) with
    | ok _ vm =>
        rw [onMachine_ok hr] at ht
        cases ht
    | error f vm =>
        rw [onMachine_error hr] at ht
        cases ht
        exact (recover_plain hr).balanced

/-- A protected call goes alike in two runs if the call does. -/
theorem comparing_protectedCall
    (hcall : (comparing check n).Holds fun run => call ctx run fuel k args wanted) :
    (comparing check n).Holds fun run => protectedCall ctx run fuel k args wanted := by
  have hattempt : (comparing check n).Holds fun run => (do
      call ctx run fuel k args wanted
      return statusOk) :=
    hcall.bind fun _ => .pure _
  rintro M run run' s _ ⟨hs, rfl⟩ hrun
  have h := hattempt M run run' s _ ⟨hs, rfl⟩ hrun
  unfold protectedCall
  dsimp only
  rw [bind_ok (get_apply s), bind_ok (get_apply _)]
  unfold handling
  dsimp only at h ⊢
  generalize (call ctx run fuel k args wanted >>= fun _ => pure statusOk : Action Int) s = r,
    (call ctx run' fuel k args wanted >>= fun _ => pure statusOk : Action Int)
      { s with checks := check s.checks } = r' at h
  cases h with
  | ok same kept => exact .ok same kept
  | exhausted same kept => exact .exhausted same kept
  | passed parts => exact parts.elim
  | @failed f t t' same kept stops =>
      cases f with
      | machine v cause =>
          obtain ⟨ht, rfl⟩ := same
          exact (comparing_recover hs ht kept _ v).answering
      | _ => exact .failed same kept stops

-- ============================================================== operations

section

variable (hquiet : ctx.program.Quiet)

include hquiet

theorem comparing_finish (body : Nat) (args : List HostValue) :
    (comparing check n).Holds fun _ => finish ctx args (ctx.program.body body).finish := by
  have hbalanced := hquiet.body body
  cases hf : (ctx.program.body body).finish with
  | raiseValue e =>
      -- a value is raised as a machine error
      refine (holds_eval e).bind fun v => .ask (fun _ _ => rfl) fun s s' hsame => ?_
      refine (holds_admitted (Lawful.current hsame) v).bind fun value => ?_
      intro _ _ _ t t' ht _
      exact .failed ht (.refl t) fun hkind => by cases hkind
  | raise kind message =>
      rw [hf] at hbalanced
      have hplain : (raised kind message).Plain := by cases kind <;> trivial
      exact .fail hplain
  | _ => exact holds_finish args (fun _ _ h => by cases h) fun _ h => by cases h

theorem comparing_calls : Law.Protects ctx (comparing check n) where
  finish := comparing_finish hquiet
  call _ _ hk hcallee := comparing_call hk hcallee
  protectedCall _ hcall := comparing_protectedCall hcall

/-- Every quiet operation goes alike, whether or not the stack is checked. -/
theorem comparing_perform {op : Op} (hop : op.isQuiet = true) (fuel : Nat) (hk : k < n) :
    (comparing check n).Holds fun run => perform ctx run fuel k op := by
  have : Law.Protects ctx (comparing check n) := comparing_calls hquiet
  obtain ⟨hcloses, hsees⟩ : op.closes = false ∧ op.seesChecks = false := by
    simpa [Op.isQuiet] using hop
  cases hwrites : op.writesTables with
  | true => exact holds_writing hk fuel hwrites
  | false =>
      cases hraises : op.raises with
      | true =>
          cases op with
          | error => exact Raises.raiseTop hk
          | _ => cases hraises
      | false => exact holds_plain hk fuel (by simp [Op.isPlain, *])

theorem comparing_step {op : Op} (hop : op.isQuiet = true) (fuel : Nat) :
    (comparing check n).Holds fun run => step ctx run fuel op :=
  holds_step fun _ hk => comparing_perform hquiet hop fuel hk

theorem comparing_block (fuel : Nat) (b : BlockId) (hsame : (comparing check n).Same s s') :
    (comparing check n).Alike M s (runBlock ctx fuel b s) (runBlock ctx fuel b s') :=
  alike_block (fun b op hop fuel _ hk => comparing_perform hquiet (hquiet.block b op hop) fuel hk)
    fuel b hsame

-- ===================================================================== runs

/-- A quiet operation runs blocks in sound sessions only, and comes to one. -/
theorem step_agrees {op : Op} (hop : op.isQuiet = true) (fuel : Nat) {run : Runner}
    (hagree : ∀ b t, Sound n t → run b t = runBlock ctx fuel b t) (hs : Sound n s) :
    step ctx run fuel op s = step ctx (runBlock ctx fuel) fuel op s
      ∧ Sound n (final (step ctx (runBlock ctx fuel) fuel op s)) := by
  have h : (comparing id n).Alike Unmarked s (step ctx (runBlock ctx fuel) fuel op s)
      (step ctx run fuel op s) := by
    refine comparing_step hquiet hop fuel _ (runBlock ctx fuel) run s s ⟨hs, rfl⟩ ?_
    rintro b t _ _ ⟨ht, rfl⟩
    show (comparing id n).Alike Unmarked t (runBlock ctx fuel b t) (run b t)
    rw [hagree b t ht]
    exact comparing_block hquiet fuel b ⟨ht, rfl⟩
  obtain ⟨heq, hfollows⟩ := alike_comparing.1 h
  exact ⟨heq.trans (rechecked_self hfollows.final.2.checks), hfollows.final.1⟩

/-- Watching quiet operations makes no difference where all sound sessions are allowed. -/
theorem watchedSteps_sound {ok : Session → Prop} {other : Action Unit}
    (hok : ∀ t, Sound n t → ok t) {run : Runner}
    (hagree : ∀ b t, Sound n t → run b t = runBlock ctx fuel b t) {ops : List Op}
    (hops : ∀ op ∈ ops, op.isQuiet = true) (hs : Sound n s) :
    watchedSteps ctx ok other run fuel ops s = steps ctx (runBlock ctx fuel) fuel ops s := by
  induction ops generalizing s with
  | nil => rfl
  | cons op ops ih =>
      obtain ⟨heq, hfinal⟩ := step_agrees hquiet (hops op List.mem_cons_self) fuel hagree hs
      unfold watchedSteps steps
      refine watching_bind (hok s hs) heq (hok _ hfinal) fun t ht =>
        ih (fun op hop => hops op (List.mem_cons_of_mem _ hop)) ?_
      rwa [ht] at hfinal

/-- And neither does watching a block. -/
theorem watchedBlock_sound {ok : Session → Prop} {other : Action Unit}
    (hok : ∀ t, Sound n t → ok t) (fuel : Nat) (b : BlockId) (hs : Sound n s) :
    watchedBlock ctx ok other fuel b s = runBlock ctx fuel b s := by
  induction fuel generalizing b s with
  | zero => rfl
  | succ fuel ih =>
      unfold watchedBlock runBlock
      exact watchedSteps_sound hquiet hok (fun b t ht => ih b ht) (hquiet.block b) hs

/-- What a quiet operation visits is sound. -/
theorem visits_sound {op : Op} (hop : op.isQuiet = true) (hs : Sound n s)
    (hv : Visits ctx fuel (fun run => step ctx run fuel op) s t) : Sound n t := by
  by_contra hunsound
  obtain ⟨other, hne⟩ := hv
  refine hne (step_agrees hquiet hop fuel (fun b u hu => ?_) hs).1
  refine watchedBlock_sound hquiet (fun v hsound hvt => ?_) fuel b hu
  subst hvt
  exact hunsound hsound

end

/-- A session begins with machines that are framed and open. -/
theorem start_sound {machines : Nat} (hmachines : 0 < machines) (checks : Bool) :
    Sound machines (Session.start machines checks) := by
  have hstart : ∀ n, (Session.start n checks).machines.size = n
      ∧ (Session.start n checks).current = 0 ∧ (Session.start n checks).wrappers = #[] := by
    intro n
    induction n with
    | zero => exact ⟨rfl, rfl, rfl⟩
    | succ n ih =>
        rw [start_succ]
        refine ⟨?_, ih.2⟩
        show ((Session.start n checks).machines.push _).size = n + 1
        rw [Array.size_push, ih.1]
  obtain ⟨hsize, hcurrent, hwrappers⟩ := hstart machines
  refine ⟨hsize, ?_, fun id => ?_, start_framed machines checks, fun k => ?_⟩
  · rw [hcurrent]
    exact hmachines
  · unfold Session.wrapper
    rw [hwrappers]
    exact hmachines
  · obtain ⟨registry, hfresh⟩ := start_fresh machines checks k
    rw [hfresh]
    rfl

/-- Sessions that differ in the checks begin alike. -/
theorem start_recheck (machines : Nat) (b b' : Bool) :
    Session.start machines b' = { Session.start machines b with checks := b' } := by
  induction machines with
  | zero => rfl
  | succ n ih =>
      rw [start_succ, start_succ, ih]
      rfl

/-- Defining classes runs no blocks. -/
theorem comparing_classes (p : Program) (hsame : (comparing check n).Same s s') :
    (comparing check n).Alike M s (evalClasses p p.classes [] s) (evalClasses p p.classes [] s') :=
  (holds_evalClasses p p.classes []).apply hsame

/-- A quiet program goes alike, whether or not the stack is checked. -/
theorem comparing_execute {p : Program} (hp : p.Quiet) (fuel : Nat)
    (hsame : (comparing check n).Same s s') :
    (comparing check n).Alike M s (p.execute fuel s) (p.execute fuel s') := by
  refine (comparing_classes p hsame).bind fun classes t t' _ ht _ => ?_
  have hops : ∀ b, ∀ op ∈ p.block b, ∀ fuel k, k < n →
      (comparing check n).Holds fun run => perform ⟨classes, p⟩ run fuel k op :=
    fun b op hop fuel k hk => comparing_perform hp (hp.block b op hop) fuel hk
  exact alike_stepsRegardless hops fuel (hops p.main) ht

/-- The states that quiet operations of a program come to: its session at the start,
and what they lead to, through whatever blocks, or visit on their way. -/
inductive QuietlyReachable (ctx : Context) (checks : Bool) : Session → Prop where
  | start {s : Session}
      (defined : evalClasses ctx.program ctx.program.classes []
        (Session.start ctx.program.machines checks) = .ok ctx.classes s) :
      QuietlyReachable ctx checks s
  | step {s : Session} (fuel : Nat) {op : Op} (quiet : op.isQuiet = true)
      (before : QuietlyReachable ctx checks s) :
      QuietlyReachable ctx checks (final (step ctx (runBlock ctx fuel) fuel op s))
  | inside {s t : Session} (fuel : Nat) {op : Op} (quiet : op.isQuiet = true)
      (before : QuietlyReachable ctx checks s)
      (visited : Visits ctx fuel (fun run => Session.step ctx run fuel op) s t) :
      QuietlyReachable ctx checks t

theorem QuietlyReachable.sound {checks : Bool} (hquiet : ctx.program.Quiet)
    (hmachines : 0 < ctx.program.machines) (h : QuietlyReachable ctx checks s) :
    Sound ctx.program.machines s := by
  induction h with
  | start defined =>
      have hclasses : (comparing id ctx.program.machines).Alike Unmarked _ _ _ :=
        comparing_classes ctx.program ⟨start_sound hmachines checks, rfl⟩
      rw [defined] at hclasses
      exact (alike_comparing.1 hclasses).2.final.1
  | step fuel quiet _ ih => exact (step_agrees hquiet quiet fuel (fun _ _ _ => rfl) ih).2
  | inside fuel quiet _ visited ih => exact visits_sound hquiet quiet ih visited

/-- Checking the stack changes nothing in a quiet program. It ends in the same way, with
the same reports and in the same state but for the setting itself; and wherever it comes
to, every operation answers or fails with the same in the same state, and never fails
because of the depth of the stack. -/
theorem checks_transparent (hquiet : ctx.program.Quiet) (hmachines : 0 < ctx.program.machines) :
    (∀ fuel, ctx.program.execute fuel (Session.start ctx.program.machines false)
        = rechecked false (ctx.program.execute fuel (Session.start ctx.program.machines true)))
      ∧ ∀ {checks s}, QuietlyReachable ctx checks s →
          ∀ (fuel : Nat) {op : Op}, op.isQuiet = true →
          (∀ b, step ctx (runBlock ctx fuel) fuel op { s with checks := b }
              = rechecked b (step ctx (runBlock ctx fuel) fuel op s))
            ∧ ∀ f t, step ctx (runBlock ctx fuel) fuel op s = .error (.failed f) t →
                f.kind ≠ .imbalance := by
  refine ⟨fun fuel => ?_, fun {checks s} hs fuel op hop => ?_⟩
  · rw [start_recheck ctx.program.machines true false]
    have halike : (comparing (fun _ => false) ctx.program.machines).Alike Unmarked _
        (ctx.program.execute fuel (Session.start ctx.program.machines true)) _ :=
      comparing_execute hquiet fuel ⟨start_sound hmachines true, rfl⟩
    exact (alike_comparing.1 halike).1
  · have halike : ∀ check, (comparing check ctx.program.machines).Alike Unmarked s
        (step ctx (runBlock ctx fuel) fuel op s)
        (step ctx (runBlock ctx fuel) fuel op { s with checks := check s.checks }) :=
      fun check => (comparing_step hquiet hop fuel).of_alike
        (fun b t t' ht => comparing_block hquiet fuel b ht) ⟨hs.sound hquiet hmachines, rfl⟩
    refine ⟨fun b => (alike_comparing.1 (halike fun _ => b)).1, fun f t ht => ?_⟩
    have hfollows := (alike_comparing.1 (halike id)).2
    rw [ht] at hfollows
    exact hfollows.2

/-- A program whose function reads a list of integers from a list that has a text in it,
in a protected call. -/
def mistypedRead : Program :=
  let integers : TypeExpr := .generic (.sequence .list) [.cls (.integer .plain)]
  { classes := []
    machines := 1
    checks := true
    blocks := #[
      [.pushFunction (some "f") 1 (some 1),
        .push (.value (.list [.int 1, .str "x"])) .none, .pcall 1 1],
      [.get 1 integers .standard none]]
    bodies := #[]
    main := 0 }

/-- The mismatch comes out of the second level of the read, inside a call, and leaves one
slot, the error, whether or not the stack is checked. -/
theorem checks_transparent_mistyped :
    let ctx : Context := ⟨[], mistypedRead⟩
    mistypedRead.Quiet ∧ 0 < mistypedRead.machines
      ∧ mistypedRead.execute 9 (Session.start 1 false)
          = rechecked false (mistypedRead.execute 9 (Session.start 1 true))
      ∧ ((final (mistypedRead.execute 9 (Session.start 1 true))).machine 0).slots.length = 1
      ∧ ∀ op : Op, op.isQuiet = true → ∀ f t,
          step ctx (runBlock ctx 9) 9 op (Session.start 1 true) = .error (.failed f) t →
            f.kind ≠ .imbalance := by
  intro ctx
  have hquiet : mistypedRead.Quiet := by decide
  obtain ⟨hruns, hops⟩ := @checks_transparent ctx hquiet (by decide)
  have hstart : QuietlyReachable ctx true (Session.start 1 true) := .start rfl
  exact ⟨hquiet, by decide, hruns 9, by decide +kernel, fun op hop => (hops hstart 9 hop).2⟩

end Session

end StackBridge
