import StackBridge.Proofs.Session.Operations

/-!
What a session keeps through a run, whatever the program does. A relation
between the sessions before and after is kept by every operation if it is kept
by the few things that operations are made of, and those are what the classes
here ask for: `Calm` and `Describes` for what touches no machine, `Moves` for
what moves values on one, `Wraps` and `Kept` for wrappers and pushes as wholes,
and `Writes` for a relation that not even a write to a table breaks.

Such a relation makes a law (`keeping`): two runs from one state come to the
same, related to where they began, and run blocks only in states on the way, so
that a runner that differs elsewhere makes no difference. An operation of which
the law holds is said to pass the relation on (`Passes`).
-/

namespace StackBridge

namespace Session

variable {R : Session → Session → Prop} {ctx : Context} {k : MachineId} {α β : Type}

-- ================================================================= the classes

/-- A relation that sees no more of a session than its heap, its machines, its
wrappers and the types described. -/
class Calm (R : Session → Session → Prop) : Prop extends Std.Refl R, IsTrans Session R where
  unseen : ∀ {s t : Session}, t.heap = s.heap → t.machines = s.machines →
    t.wrappers = s.wrappers → t.described = s.described → R s t

/-- And kept by describing types among some classes. -/
class Describes (ctx : Context) (R : Session → Session → Prop) : Prop extends Calm R where
  describe : ∀ (t : TypeExpr) (operation : String), Keeps R (Bridge.describe ctx t operation)

/-- A calm relation that is kept by what moves values in the running frame of a
machine, by new tables, and by closing. -/
class Moves (R : Session → Session → Prop) : Prop extends Calm R where
  steady : ∀ {α : Type} {a : Vm.Action α} (k : MachineId), Vm.Steady a → Keeps R (onMachine k a)
  pushTable : ∀ k : MachineId, Keeps R (onMachine k Vm.pushTable)
  close : ∀ k : MachineId, Keeps R (onMachine k Vm.close)

/-- And kept by making and releasing wrappers. -/
class Wraps (R : Session → Session → Prop) : Prop extends Moves R where
  wrap : ∀ (k : MachineId) (index : Int), Keeps R (Bridge.wrap k index)
  release : ∀ id : Nat, Keeps R (Bridge.release id)

/-- And kept by describing types and by pushing host values. -/
class Kept (ctx : Context) (R : Session → Session → Prop) : Prop extends
    Wraps R, Describes ctx R where
  pushValue : ∀ (k : MachineId) (v : HostValue) (t : TypeExpr),
    Keeps R (Bridge.pushValue ctx k v t)

/-- Kept by whatever is written to a table, and blind to wrappers. -/
class Writes (R : Session → Session → Prop) : Prop extends Moves R where
  rewrapped : ∀ {s t : Session}, t.heap = s.heap → t.machines = s.machines →
    t.described = s.described → R s t
  rawSet : ∀ (k : MachineId) (index : Int), Keeps R (onMachine k (Vm.rawSet index))
  setKey : ∀ (k : MachineId) (index : Int) (key : Value),
    Keeps R (onMachine k (Vm.setKey index key))
  ref : ∀ (k : MachineId) (index : Int), Keeps R (onMachine k (Vm.ref index))
  unref : ∀ (k : MachineId) (index r : Int), Keeps R (onMachine k (Vm.unref index r))

/-- What is on the way: at least what has been kept so far. -/
class OnWay (Way R : Session → Session → Prop) : Prop where
  way : ∀ {s t : Session}, R s t → Way s t
  trans : ∀ {s t u : Session}, Way s t → Way t u → Way s u

instance [Calm R] : OnWay R R := ⟨fun h => h, fun h h' => IsTrans.trans _ _ _ h h'⟩

/-- Relations that a call passes on from what runs in the frame of the called
function: the frame is on the way; leaving it and putting values where the
function was, and going back to the frames from before, leave nothing to be
seen. -/
class Encloses (Way R : Session → Session → Prop) : Prop extends OnWay Way R where
  entering : ∀ {s : Session} {k : MachineId} {position : Nat}, k < s.machines.size →
    (s.machine k).baseOf ≤ position → position ≤ (s.machine k).slots.length →
    Way s (Session.entering k position s)
  leaving : ∀ {s u : Session} {k : MachineId} {position : Nat}, k < s.machines.size →
    (s.machine k).baseOf ≤ position → position < (s.machine k).slots.length →
    R (Session.entering k (position + 1) s) u →
    R s (final (onMachine k Vm.leaveFrame u))
      ∧ ∀ t, onMachine k Vm.leaveFrame u = .ok () t →
        ∀ values, R s (final (onMachine k (Vm.replaceFrom position values) t))
  recovering : ∀ {s t : Session} (k : MachineId) (position : Int) (raised : Value), R s t →
    R s (final (onMachine k (Vm.recover (s.machine k).frames.length position raised) t))

-- ===================================================================== the law

/-- The law of a relation: the two runs come to the same, related to where they
began. -/
def keeping (Way R : Session → Session → Prop) : Law where
  Valid _ := True
  Same s s' := s' = s
  Way := Way
  Kept := R
  Stops _ _ _ := True
  Parts := False

/-- An operation, given what runs its blocks, keeps a relation if that does, and
runs blocks only in states on the way from the one that it began in. -/
abbrev Passes (Way R : Session → Session → Prop) (F : Runner → Action α) : Prop :=
  (keeping Way R).Holds F

section

variable {Way : Session → Session → Prop} {F : Runner → Action α} {s t : Session}

/-- Coming to the same, related to where it began. -/
theorem alike_keeping {M : Session → Prop} {r r' : EStateM.Result Stop Session α} :
    (keeping Way R).Alike M s r r' ↔ r' = r ∧ R s (final r) := by
  constructor
  · intro h
    cases h with
    | ok hsame hkept => exact ⟨by rw [show _ = _ from hsame], hkept⟩
    | failed hsame hkept _ => exact ⟨by rw [show _ = _ from hsame], hkept⟩
    | exhausted hsame hkept => exact ⟨by rw [show _ = _ from hsame], hkept⟩
    | passed parts => exact parts.elim
  · rintro ⟨rfl, hkept⟩
    cases r' with
    | ok x t => exact .ok rfl hkept
    | error e t =>
        cases e with
        | failed f => exact .failed rfl hkept trivial
        | exhausted => exact .exhausted rfl hkept

/-- An operation that runs no blocks. -/
theorem Passes.of_keeps {a : Action α} (ha : Keeps R a) : Passes Way R fun _ => a := by
  rintro _ _ _ s _ rfl _
  exact alike_keeping.2 ⟨rfl, ha _⟩

theorem Passes.apply (hF : Passes Way R F) {run run' : Runner} (hrun : ∀ b, Keeps R (run b))
    (hagree : ∀ b t, Way s t → run' b t = run b t) :
    F run' s = F run s ∧ R s (final (F run s)) := by
  refine (alike_keeping (M := Law.Unmarked)).1 (hF _ run run' s s rfl fun b t t' ht htt' => ?_)
  obtain rfl : t' = t := htt'
  exact alike_keeping.2 ⟨hagree b t' ht, hrun b t'⟩

theorem Passes.keeps_of_run (hF : Passes Way R F) {run : Runner}
    (hrun : ∀ b, Keeps R (run b)) : Keeps R (F run) :=
  fun _ => (hF.apply hrun fun _ _ _ => rfl).2

/-- What runs no blocks keeps the relation whatever is on the way. -/
theorem Law.Holds.keeps [Calm R] {a : Action α} (ha : (keeping R R).Holds fun _ => a) :
    Keeps R a :=
  Passes.keeps_of_run ha fun _ => (Keeps.pure () : Keeps R (Pure.pure () : Action Unit))

-- =============================================================== what it holds of

instance [Calm R] [OnWay Way R] : Law.Lawful (keeping Way R) where
  refl s := (Std.Refl.refl s : R s s)
  trans h h' := (IsTrans.trans _ _ _ h h' : R _ _)
  onWay h := (OnWay.way (R := R) h : Way _ _)
  further h h' := (OnWay.trans R h h' : Way _ _)
  checks := by
    rintro s _ rfl
    rfl
  current _ := trivial
  home _ _ := trivial
  there _ _ _ := trivial
  plain _ _ := trivial
  later _ _ := trivial
  after _ _ _ := trivial
  parts h _ := h.elim
  unseen := by
    rintro s _ t rfl hheap hmachines hwrappers hdescribed hchecks _
    refine ⟨?_, (Calm.unseen hheap hmachines hwrappers hdescribed : R _ _)⟩
    show { t with checks := _ } = t
    rw [← hchecks]

instance [Describes ctx R] [OnWay Way R] : Law.Describes ctx (keeping Way R) where
  describe t operation := Passes.of_keeps (Describes.describe t operation)

instance [Moves R] [OnWay Way R] : Law.Moves (keeping Way R) where
  primitive _ ha := Passes.of_keeps (Moves.steady _ ha.steady)
  pushTable _ := Passes.of_keeps (Moves.pushTable _)

instance [Moves R] [OnWay Way R] : Law.Closes (keeping Way R) where
  close _ := Passes.of_keeps (Moves.close _)

instance [Moves R] [OnWay Way R] : Law.Checks (keeping Way R) where
  same h := h
  imbalance _ _ := trivial
  setChecks _ := Passes.of_keeps fun _ => Calm.unseen rfl rfl rfl rfl

/-- Raising takes a value off the stack. -/
theorem keeps_raiseTop [Moves R] : Keeps R (onMachine k Vm.raiseTop : Action α) := by
  intro s
  have hfinal : final ((Vm.raiseTop : Vm.Action α) (s.vm k)) = final (Vm.take (s.vm k)) := by
    unfold Vm.raiseTop
    rw [bind_apply]
    cases Vm.take (s.vm k) <;> rfl
  have htake := Moves.steady (R := R) k Vm.steady_take s
  rw [onMachine_final] at htake ⊢
  rw [hfinal]
  exact htake

instance [Moves R] [OnWay Way R] : Law.Raises (keeping Way R) where
  raiseTop _ := Passes.of_keeps keeps_raiseTop

instance [Wraps R] [OnWay Way R] : Law.Wraps (keeping Way R) where
  wrap index _ := Passes.of_keeps (Wraps.wrap _ index)
  release id := Passes.of_keeps (Wraps.release id)

instance [Writes R] [OnWay Way R] : Law.Writes (keeping Way R) where
  rawSet index _ := Passes.of_keeps (Writes.rawSet _ index)
  setKey index _ _ _ := Passes.of_keeps (Writes.setKey _ index _)
  ref index _ := Passes.of_keeps (Writes.ref _ index)
  unref index r _ := Passes.of_keeps (Writes.unref _ index r)

instance [Kept ctx R] [OnWay Way R] : Law.Pushes ctx (keeping Way R) where
  pushValue v t _ := Passes.of_keeps (Kept.pushValue _ v t)

/-- What a host function answers, whatever it raises. -/
theorem passes_finish [Kept ctx R] [OnWay Way R] (args : List HostValue) (f : Finish) :
    Passes Way R fun _ => Bridge.finish ctx args f := by
  have hfail : ∀ f : Failure, Passes Way R fun _ => (fail f : Action HostValue) :=
    fun f => Passes.of_keeps (Keeps.throw _)
  cases f with
  | raise kind message => exact hfail _
  | raiseValue e =>
      exact (holds_eval e).bind fun v => .ask (fun _ _ => rfl) fun s _ _ =>
        (holds_admitted trivial v).bind fun _ => hfail _
  | _ => exact holds_finish args (fun _ _ h => by cases h) fun _ h => by cases h

section

variable [Kept ctx R] [Encloses Way R] {fuel : Nat} {args wanted : Int}

/-- A call keeps what is kept in the frame of the called function. -/
theorem passes_call_of (hcallee : ∀ f, Passes Way R (callee ctx fuel k f)) :
    Passes Way R fun run => Bridge.call ctx run fuel k args wanted := by
  rintro M run run' _ s rfl hrun
  rcases call_cases ctx fuel k args wanted s with
    ⟨e, hfail⟩ | ⟨position, f, _, hlt, hbase, _, hcall⟩
  · dsimp only
    rw [hfail run, hfail run']
    exact alike_keeping.2 ⟨rfl, Std.Refl.refl s⟩
  · have hk := lt_size_of_slots hlt
    have hway : Way s (entering k (position + 1) s) :=
      Encloses.entering R hk (Nat.le_succ_of_le hbase) hlt
    obtain ⟨heq, hkept⟩ := alike_keeping.1 <|
      hcallee f M run run' (entering k (position + 1) s) _ rfl
        fun b t t' ht htt' => hrun b t t' (OnWay.trans R hway ht : Way s t) htt'
    obtain ⟨hleft, hput⟩ := Encloses.leaving Way hk hbase hlt hkept
    dsimp only
    rw [hcall run, hcall run']
    refine alike_keeping.2 ⟨?_, ?_⟩
    · unfold returning
      simp only [bind_apply, ensuring, heq]
    · rw [← ensuring_final] at hleft
      unfold returning
      rw [bind_apply]
      cases hr : ensuring (callee ctx fuel k f run) (onMachine k Vm.leaveFrame)
          (entering k (position + 1) s) with
      | error e v =>
          rw [hr] at hleft
          exact hleft
      | ok values v =>
          obtain ⟨u, hu, hv⟩ := ensuring_ok hr
          rw [hu] at hput
          exact hput v hv _

/-- A protected call that a machine error has ended is back in the frames that
it began in. -/
theorem passes_protectedCall_of
    (hcall : Passes Way R fun run => Bridge.call ctx run fuel k args wanted) :
    Passes Way R fun run => Bridge.protectedCall ctx run fuel k args wanted := by
  rintro M run run' _ s rfl hrun
  have hattempt : Passes Way R fun run => (do
      Bridge.call ctx run fuel k args wanted
      return Bridge.statusOk) :=
    hcall.bind fun _ => .pure _
  obtain ⟨heq, hkept⟩ := alike_keeping.1 (hattempt M run run' s s rfl hrun)
  dsimp only at heq hkept ⊢
  unfold Bridge.protectedCall
  rw [bind_ok (get_apply s), bind_ok (get_apply s)]
  unfold handling
  rw [heq]
  refine alike_keeping.2 ⟨rfl, ?_⟩
  cases hr : (do
      Bridge.call ctx run fuel k args wanted
      return Bridge.statusOk : Action Int) s with
  | ok x t =>
      rw [hr] at hkept
      exact hkept
  | error e t =>
      rw [hr] at hkept
      cases e with
      | exhausted => exact hkept
      | failed f =>
          cases f with
          | machine v cause =>
              have hback :=
                Encloses.recovering Way k ((s.machine k).slots.length - args - 1) v hkept
              show R s (final ((onMachine k (Vm.recover _ _ v) >>= fun _ =>
                pure Bridge.statusError) t))
              rw [final_bind_pure]
              exact hback
          | _ => exact hkept

instance : Law.Calls ctx (keeping Way R) where
  finish _ args := passes_finish args _
  call _ _ _ hcallee := passes_call_of hcallee

instance : Law.Protects ctx (keeping Way R) where
  protectedCall _ hcall := passes_protectedCall_of hcall

end

end

-- ================================================================== relations

/-- A relation that does not see the types described. -/
theorem describes_of_blind [Calm R] (ctx : Context) (h : ∀ {s t : Session}, t.heap = s.heap →
    t.machines = s.machines → t.wrappers = s.wrappers → R s t) : Describes ctx R where
  describe t operation s := by
    have hends := Bridge.describe_ends ctx t operation s
    cases hr : Bridge.describe ctx t operation s with
    | ok x u =>
        rw [hr] at hends
        obtain ⟨noted, rfl⟩ := hends
        exact h rfl rfl rfl
    | error e u =>
        rw [hr] at hends
        obtain ⟨_, noted, rfl⟩ := hends
        exact h rfl rfl rfl

section

variable [Writes R]

theorem keeps_wrap_of_writes (index : Int) : Keeps R (Bridge.wrap k index) := by
  refine (Moves.steady k (Vm.steady_pushCopy index)).bind fun _ => ?_
  refine (Writes.ref _ registryIndex).bind fun r => ?_
  exact fun s => Writes.rewrapped rfl rfl rfl

theorem keeps_release_of_writes (id : Nat) : Keeps R (Bridge.release id) := by
  refine Keeps.get.bind fun s => ?_
  dsimp only
  split
  · exact Keeps.pure _
  · refine Law.holds_isClosed.keeps.bind fun closed => ?_
    split
    · exact (Writes.unref _ _ _).bind fun _ => fun s => Writes.rewrapped rfl rfl rfl
    · exact fun s => Writes.rewrapped rfl rfl rfl

/-- What writes to tables do not break is not broken by wrappers and pushes. -/
instance : Wraps R where
  wrap _ index := keeps_wrap_of_writes index
  release id := keeps_release_of_writes id

instance [Describes ctx R] : Kept ctx R where
  describe := Describes.describe
  pushValue _ v t := (holds_pushAs trivial _ v t).keeps

end

/-- A relation that sees neither the slots of a machine nor its frames. -/
class FrameBlind (R : Session → Session → Prop) : Prop where
  shuffled : ∀ (s : Session) (k : MachineId) (slots : List Value) (frames : List Nat),
    R s (s.withVm k { s.vm k with machine := { s.machine k with slots, frames } })

/-- Going back to earlier frames drops the later ones. What was raised then comes on
top of the slots below a position in the last frame that is left, and where none is
left, that fails. -/
theorem recover_cases (frames : Nat) (position : Int) (raised : Value) (vm : Vm) :
    ∃ cut : Vm, cut = { vm with machine := { vm.machine with
        frames := vm.machine.frames.drop (vm.machine.frames.length - frames) } }
      ∧ ((cut.machine.frames = []
          ∧ ∃ f : Failure, f.Plain ∧ Vm.recover frames position raised vm = .error f cut)
        ∨ ∃ b fs, cut.machine.frames = b :: fs
          ∧ Vm.recover frames position raised vm
            = .ok () (cut.withSlots
              (cut.machine.slots.take (max position (b : Int)).toNat ++ [raised]))) := by
  refine ⟨_, rfl, ?_⟩
  let cut : Vm := { vm with machine := { vm.machine with
    frames := vm.machine.frames.drop (vm.machine.frames.length - frames) } }
  have hcut : Vm.recover frames position raised vm
      = (do Vm.replaceFrom (max position ((← Vm.base) : Int)).toNat [raised] : Vm.Action Unit)
          cut := rfl
  rw [hcut]
  cases hf : cut.machine.frames with
  | nil => exact .inl ⟨rfl, .host .noFrame, trivial, bind_error (Vm.base_none hf)⟩
  | cons b fs => exact .inr ⟨b, fs, rfl, bind_ok (Vm.base_eq hf)⟩

/-- What is in the slots has been there, or has been raised. -/
theorem recover_shuffles (frames : Nat) (position : Int) (raised : Value) (vm : Vm) :
    ∃ slots, (∀ v ∈ slots, v ∈ vm.machine.slots ∨ v = raised)
      ∧ final (Vm.recover frames position raised vm) = { vm with machine := { vm.machine with
          slots, frames := vm.machine.frames.drop (vm.machine.frames.length - frames) } } := by
  obtain ⟨cut, rfl, ⟨_, f, _, heq⟩ | ⟨b, fs, _, heq⟩⟩ := recover_cases frames position raised vm
  · rw [heq]
    exact ⟨vm.machine.slots, fun _ hv => .inl hv, rfl⟩
  · rw [heq]
    refine ⟨_, fun v hv => ?_, rfl⟩
    exact (List.mem_append.mp hv).imp List.mem_of_mem_take List.mem_singleton.mp

/-- It fails only where there is no frame. -/
theorem recover_plain {frames : Nat} {position : Int} {raised : Value} {vm vm' : Vm} {f : Failure}
    (h : Vm.recover frames position raised vm = .error f vm') : f.Plain := by
  obtain ⟨cut, _, ⟨_, f', hplain, heq⟩ | ⟨b, fs, _, heq⟩⟩ :=
    recover_cases frames position raised vm
  · cases heq.symm.trans h
    exact hplain
  · cases heq.symm.trans h

/-- What does not see slots and frames does not see calls. -/
instance [Calm R] [FrameBlind R] : Encloses R R where
  entering {s k position} _ _ _ := FrameBlind.shuffled s k (s.machine k).slots _
  leaving {s u k position} _ _ _ h := by
    have hentered : R s (Session.entering k (position + 1) s) :=
      FrameBlind.shuffled s k (s.machine k).slots _
    have hu : R s u := IsTrans.trans _ _ _ hentered h
    have hleft : R s (final (onMachine k Vm.leaveFrame u)) := by
      rw [onMachine_final]
      cases hf : (u.machine k).frames with
      | nil =>
          rw [leaveFrame_none hf]
          show R s (u.withVm k (u.vm k))
          rw [withVm_vm]
          exact hu
      | cons b fs =>
          rw [leaveFrame_eq hf]
          exact IsTrans.trans _ _ _ hu (FrameBlind.shuffled u k (u.machine k).slots fs)
    refine ⟨hleft, fun t ht values => ?_⟩
    rw [ht] at hleft
    exact IsTrans.trans _ _ _ hleft (FrameBlind.shuffled t k _ (t.machine k).frames)
  recovering {s t} k position raised h := by
    obtain ⟨slots, _, heq⟩ :=
      recover_shuffles (s.machine k).frames.length position raised (t.vm k)
    rw [onMachine_final, heq]
    exact IsTrans.trans _ _ _ h (FrameBlind.shuffled t k slots _)

-- ===================================================================== blocks

/-- Blocks keep what operations keep, to any depth of blocks within blocks. -/
theorem keeps_block [Writes R] (Way : Session → Session → Prop) [Encloses Way R] (ctx : Context)
    [Describes ctx R] (fuel : Nat) (b : BlockId) : Keeps R (runBlock ctx fuel b) := by
  intro s
  have hops : ∀ fuel k (op : Op), Passes Way R fun run => perform ctx run fuel k op :=
    fun fuel k op => holds_perform trivial fuel op
  exact ((alike_keeping (M := Law.Unmarked)).1 (alike_block (L := keeping Way R)
    (fun _ op _ fuel k _ => hops fuel k op) fuel b rfl)).2

end Session

end StackBridge
