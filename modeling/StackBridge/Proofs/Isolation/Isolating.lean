import StackBridge.Proofs.Isolation.Parted
import StackBridge.Proofs.Session.Kept

/-!
The law that machines stay apart (`isolating`): it holds of all that happens on
them, in whatever interleaving, and of calls from one machine into another. An
object that an error raises is on its way to the protected call around it, if there
is one, and must come from the machine of that call; which machine that is is a
parameter of the law. The protected call then takes over what its own machine could
have held all along (`isolating_protectedCall`).
-/

namespace StackBridge

/-- A failure of the machine's own raises no object. -/
theorem Failure.Plain.not_isObject {v : Value} {cause : Option ErrorKind}
    (h : (Failure.machine v cause).Plain) : ¬ v.IsObject := by
  cases v with
  | str b => exact fun hobject => hobject
  | _ => exact h.elim

/-- A host value that is a machine value is no object there. -/
theorem HostValue.native?_not_isObject {v : HostValue} {w : Value} (h : v.native? = some w) :
    ¬ w.IsObject := by
  unfold HostValue.native? at h
  split at h <;> cases h <;> exact fun hobject => hobject

namespace Session

open Bridge Law

variable {s s' t u : Session} {j k : MachineId} {n : Nat} {v : Value} {α β : Type}
  {g : Option MachineId} {ctx : Context} {fuel : Nat} {args wanted : Int}

-- ===================================================================== the law

/-- The values held besides, and one more on a machine. -/
def alsoHeld (held : MachineId → List Value) (k : MachineId) (v : Value) :
    MachineId → List Value :=
  fun j => if j = k then held j ++ [v] else held j

theorem alsoHeld_ne (held : MachineId → List Value) (v : Value) (h : j ≠ k) :
    alsoHeld held k v j = held j :=
  if_neg h

/-- A value that a machine has raised: it might as well hold it still. -/
def Raised (n : Nat) (k : MachineId) (v : Value) (s t : Session) : Prop :=
  ∀ held, Parted n (s.holding held) → Parted n (t.holding (alsoHeld held k v))
    ∧ Derives n (s.holding held) (t.holding (alsoHeld held k v))

/-- The law that `n` machines stay apart, in a protected call on a machine `g` if there
is one around. -/
def isolating (g : Option MachineId) (n : Nat) : Law where
  Valid k := k < n
  Same s s' := s' = s ∧ Parted n s
  Way := KeepsApart n
  Kept := KeepsApart n
  Stops s f t := ∀ k v cause, g = some k → f = .machine v cause → v.IsObject → Raised n k v s t
  Parts := True

/-- A run from a state that it may come to: the machines stay apart, and what is raised
stays with its machine. -/
theorem alone_isolating {r : EStateM.Result Stop Session α} (hparted : Parted n (final r))
    (hkept : KeepsApart n s (final r))
    (hstops : ∀ f t, r = .error (.failed f) t → (isolating g n).Stops s f t) :
    (isolating g n).Alone s r :=
  ⟨⟨rfl, hparted⟩, hkept, hstops⟩

theorem stops_plain {f : Failure} (hf : f.Plain) : (isolating g n).Stops s f t := by
  rintro k v cause _ rfl hobject
  exact absurd hobject hf.not_isObject

instance : Law.Lawful (isolating g n) where
  refl := KeepsApart.refl n
  trans h h' := KeepsApart.trans h h'
  onWay h := h
  further h h' := KeepsApart.trans h h'
  checks := by
    rintro s _ ⟨rfl, _⟩
    rfl
  current h := h.2.current
  home h id := h.2.home id
  there h k hk := by
    show k < n
    rw [← h.2.size]
    exact hk
  plain _ hf := stops_plain hf
  later hkept hstops k v cause hg hf hobject held hs :=
    have ht := hkept held hs
    have hu := hstops k v cause hg hf hobject held ht.1
    ⟨hu.1, ht.2.trans hu.2⟩
  after hstops _ hkept k v cause hg hf hobject held hs :=
    have ht := hstops k v cause hg hf hobject held hs
    have hu := hkept _ ht.1
    ⟨hu.1, ht.2.trans hu.2⟩
  parts _ h := ⟨rfl, h.2⟩
  unseen {s s' t} hsame hheap hmachines hwrappers _ hchecks hcurrent := by
    obtain ⟨rfl, hs⟩ := hsame
    have hkept : KeepsApart n s' t := by
      refine keepsApart_same hheap hmachines hcurrent fun id => ?_
      unfold Session.wrapper
      rw [hwrappers]
      exact hs.home id
    refine ⟨⟨?_, (hkept.apart hs).1⟩, hkept⟩
    rw [← hchecks]

/-- Two runs go alike if the first one is what it may be and they come to the same, or
the first one has passed a mark. -/
theorem alike_isolating {M : Session → Prop} {r r' : EStateM.Result Stop Session α} :
    (isolating g n).Alike M s r r' ↔ (isolating g n).Alone s r
      ∧ (r' = r ∨ (isolating g n).Through M s r) := by
  constructor
  · intro h
    refine ⟨h.alone trivial, ?_⟩
    cases h with
    | ok same kept => exact .inl (by rw [same.1])
    | failed same kept stops => exact .inl (by rw [same.1])
    | exhausted same kept => exact .inl (by rw [same.1])
    | passed _ _ through => exact .inr through
  · rintro ⟨halone, rfl | hthrough⟩
    · obtain ⟨hsame, hkept, hstops⟩ := halone
      cases r' with
      | ok x t => exact .ok hsame hkept
      | error e t =>
          cases e with
          | failed f => exact .failed hsame hkept (hstops f t rfl)
          | exhausted => exact .exhausted hsame hkept
    · exact .passed trivial halone hthrough

/-- What runs no blocks. -/
theorem isolating_of {a : Action α} (ha : ∀ s, Parted n s → KeepsApart n s (final (a s)))
    (hstops : ∀ s f t, Parted n s → a s = .error (.failed f) t → (isolating g n).Stops s f t) :
    (isolating g n).Holds fun _ => a := by
  rintro _ _ _ s _ ⟨rfl, hs⟩ _
  exact alike_isolating.2 ⟨alone_isolating ((ha _ hs).apart hs).1 (ha _ hs)
    fun f t hr => hstops _ f t hs hr, .inl rfl⟩

-- =============================================================== what it holds of

/-- What inherits what it reaches on a machine, and raises no object. -/
theorem isolating_onMachine (hk : k < n) {a : Vm.Action α} (ha : Keeps Vm.Inherits a)
    (hfails : ∀ vm f vm', a vm = .error f vm' → f.Plain) :
    (isolating g n).Holds fun _ => onMachine k a := by
  refine isolating_of (fun s _ => ?_) fun s f t _ hr => ?_
  · rw [onMachine_final]
    exact keepsApart_withVm hk (ha (s.vm k))
  · cases hvm : a (s.vm k) with
    | ok x vm =>
        rw [onMachine_ok hvm] at hr
        cases hr
    | error e vm =>
        rw [onMachine_error hvm] at hr
        cases hr
        exact stops_plain (hfails _ _ _ hvm)

theorem isolating_confined (hk : k < n) {a : Vm.Action α} (ha : Keeps Vm.Inherits a)
    (hfails : Vm.Confined a) : (isolating g n).Holds fun _ => onMachine k a := by
  refine isolating_onMachine hk ha fun vm f vm' hr => ?_
  have h := hfails vm
  rw [hr] at h
  exact h.2.plain

instance : Law.Moves (isolating g n) where
  primitive hk ha := isolating_confined hk (Vm.keeps_inherits_steady ha.steady) ha.steady.confined
  pushTable hk := isolating_confined hk Vm.inherits_pushTable Vm.confined_pushTable

instance : Law.Writes (isolating g n) where
  rawSet index hk := isolating_confined hk (Vm.inherits_rawSet index) (Vm.confined_rawSet index)
  setKey index key hk hname := by
    refine isolating_confined hk (Vm.inherits_setKey index ?_) (Vm.confined_setKey index key)
    cases key <;> first | exact hname.elim | exact fun hobject => hobject
  ref index hk := isolating_confined hk (Vm.inherits_ref index) (Vm.confined_ref index)
  unref index r hk := isolating_confined hk (Vm.inherits_unref index r) (Vm.confined_unref index r)

instance : Law.Closes (isolating g n) where
  close hk := isolating_onMachine hk Vm.inherits_close fun _ _ _ hr => by cases hr

/-- What leaves the machines and the heap as they are. -/
theorem isolating_blind {a : Action α} (ha : ∀ s, Parted n s → Ends (a s)
      (fun _ t => KeepsApart n s t) fun e t => KeepsApart n s t ∧ ∃ f, e = .failed f ∧ f.Plain) :
    (isolating g n).Holds fun _ => a := by
  refine isolating_of (fun s hs => ?_) fun s f t hs hr => ?_
  · have h := ha s hs
    cases hr : a s with
    | ok x t => rw [hr] at h; exact h
    | error e t => rw [hr] at h; exact h.1
  · have h := ha s hs
    rw [hr] at h
    obtain ⟨_, f', heq, hplain⟩ := h
    cases heq
    exact stops_plain hplain

instance : Law.Checks (isolating g n) where
  same h := h.1
  imbalance _ _ := by
    intro k v cause _ hf
    cases hf
  setChecks _ := isolating_blind fun _ hs => keepsApart_same rfl rfl hs.current hs.home

instance : Law.Describes ctx (isolating g n) where
  describe t operation := isolating_blind fun s hs => by
    refine (describe_ends ctx t operation s).mono ?_ ?_
    · rintro _ _ ⟨noted, rfl⟩
      exact keepsApart_same rfl rfl hs.current hs.home
    · rintro _ _ ⟨⟨f, rfl, hplain⟩, noted, rfl⟩
      exact ⟨keepsApart_same rfl rfl hs.current hs.home, f, rfl, hplain⟩

instance : Law.Wraps (isolating g n) where
  wrap {k} index hk := by
    refine (holds_primitive hk (.pushCopy index)).bind fun _ =>
      (Law.Writes.ref registryIndex hk).bind fun r => ?_
    refine isolating_blind fun s hs => keepsApart_same rfl rfl hs.current fun id => ?_
    rw [wrapper_push]
    split
    · exact hk
    · exact hs.home id
  release id := by
    refine .ask (fun _ _ => rfl) fun s s' hsame => ?_
    have hhome := hsame.2.home id
    have hforget : (isolating g n).Holds fun _ => (modify fun t => { t with
        wrappers := t.wrappers.setIfInBounds id { s.wrapper id with anchor := .released } } :
          Action Unit) := by
      refine isolating_blind fun t ht => keepsApart_same rfl rfl ht.current fun id' => ?_
      rw [wrapper_set]
      split
      · exact hhome
      · exact ht.home id'
    dsimp only
    split
    · exact .pure _
    · refine holds_isClosed.bind fun closed => ?_
      split
      · exact (Law.Writes.unref _ _ hhome).bind fun _ => hforget
      · exact hforget

instance : Law.Pushes ctx (isolating g n) where
  pushValue v t hk := holds_pushAs hk pushLimit v t

-- ====================================================================== calls

/-- What a host function raises is what it has as a host value, and no object. -/
theorem isolating_raising (hk : k < n) (v : HostValue) : (isolating g n).Holds fun _ =>
    (admitted ctx k v >>= fun value => fail (.machine value none) : Action α) := by
  have hraise : ∀ w : Value, ¬ w.IsObject → (isolating g n).Holds fun _ =>
      (fail (.machine w none) : Action α) := by
    rintro w hw _ _ _ s s' hsame _
    refine .failed hsame (KeepsApart.refl n s) ?_
    rintro _ _ _ _ hf hobject
    cases hf
    exact absurd hobject hw
  unfold admitted
  split
  · next hnative _ =>
      simp only [pure_bind]
      exact hraise _ (HostValue.native?_not_isObject hnative)
  · simp only [bind_assoc]
    refine .ask (fun _ _ => rfl) fun _ _ _ => (holds_ofHost _).bind fun shown => ?_
    intro M run run' s s' hsame hrun
    refine Alike.bind ((holds_primitive hk (.newGuestValue _ _)).apply hsame) ?_
    intro w t t' hw ht _
    obtain ⟨vm, hvm⟩ := onMachine_answered hw
    cases hvm
    exact (hraise _ (by exact fun hobject => hobject)).apply ht

theorem isolating_finish (args : List HostValue) (f : Finish) :
    (isolating g n).Holds fun _ => finish ctx args f := by
  cases f with
  | raiseValue e =>
      exact (holds_eval e).bind fun v => .ask (fun _ _ => rfl) fun _ _ hsame =>
        isolating_raising (Lawful.current hsame) v
  | raise kind message =>
      cases kind <;> first
        | exact .fail trivial
        | exact isolating_of (fun s _ => .refl n s) fun _ _ _ _ hr k v cause _ hf => by
            cases hr; cases hf
  | _ => exact holds_finish args (fun _ _ h => by cases h) fun _ h => by cases h

/-- The results of a function are in slots of its machine. -/
theorem results_mem {vm vm' : Vm} {count : Int} {values : List Value}
    (h : Vm.results count vm = .ok values vm') : ∀ v ∈ values, v ∈ vm.machine.slots := by
  unfold Vm.results at h
  obtain ⟨top, vm₁, htop, hrest⟩ := bind_answered h
  obtain rfl := Vm.looked Vm.looks_getTop htop
  split at hrest
  · cases hrest
  · cases hrest
    exact fun v hv => List.mem_of_mem_drop hv

theorem callee_mem {f : FunctionObject} {run : Runner} {values : List Value}
    (h : callee ctx fuel k f run s = .ok values t) : ∀ v ∈ values, v ∈ (t.machine k).slots := by
  obtain ⟨count, u, _, hresults⟩ := bind_answered h
  obtain ⟨rfl, hvm⟩ := looked_onMachine (Vm.looks_results count) hresults
  exact results_mem hvm

theorem adjustResults_mem {values : List Value} (hv : v ∈ Vm.adjustResults wanted values) :
    v ∈ values ∨ v = .nil := by
  unfold Vm.adjustResults at hv
  split at hv
  · exact .inl hv
  · split at hv
    · exact .inl (List.mem_of_mem_take hv)
    · exact (List.mem_append.mp hv).imp List.mem_of_mem_take List.eq_of_mem_replicate

theorem isolating_leaveFrame (hk : k < n) :
    (isolating g n).Holds fun _ => onMachine k Vm.leaveFrame := by
  refine isolating_onMachine hk (fun vm => ?_) fun vm f vm' hr => ?_
  · cases hf : vm.machine.frames with
    | nil =>
        rw [leaveFrame_none hf]
        exact Std.Refl.refl vm
    | cons b fs =>
        rw [leaveFrame_eq hf]
        exact Vm.inherits_same rfl rfl rfl
  · cases hf : vm.machine.frames with
    | nil =>
        rw [leaveFrame_none hf] at hr
        cases hr
        trivial
    | cons b fs =>
        rw [leaveFrame_eq hf] at hr
        cases hr

/-- A frame that is left leaves the slots. -/
theorem leaveFrame_slots (h : onMachine k Vm.leaveFrame s = .ok () t) :
    (t.machine k).slots = (s.machine k).slots := by
  by_cases hk : k < s.machines.size
  · cases hf : (s.machine k).frames with
    | nil =>
        rw [onMachine_error (leaveFrame_none hf)] at h
        cases h
    | cons b fs =>
        rw [onMachine_ok (leaveFrame_eq hf)] at h
        cases h
        rw [withVm_machine hk]
        rfl
  · obtain ⟨vm, hvm⟩ := onMachine_answered h
    rw [onMachine_ok hvm] at h
    cases h
    rw [withVm_machine_none hk]

/-- A frame that has begun is of no concern. -/
theorem keepsApart_entering (s : Session) (hk : k < n) (position : Nat) :
    KeepsApart n s (entering k position s) :=
  keepsApart_withVm hk (Vm.inherits_same rfl rfl rfl)

/-- Results come from the slots of the machine that they are put back on. -/
theorem isolating_call (hk : k < n) (hcallee : ∀ f, (isolating g n).Holds (callee ctx fuel k f)) :
    (isolating g n).Holds fun run => call ctx run fuel k args wanted := by
  refine holds_call_of fun s s' position f hsame _ _ M run run' hrun => ?_
  obtain ⟨rfl, hs⟩ := hsame
  have hentered := keepsApart_entering s' hk (position + 1)
  have hleft := ((hcallee f).ensuring (isolating_leaveFrame hk)) M run run'
    (entering k (position + 1) s') _ ⟨rfl, (hentered.apart hs).1⟩
    fun b t t' hway ht => hrun b t t' (hentered.trans hway) ht
  refine Alike.later (hleft.bind fun values t t' hvalues ht _ => ?_) hentered
  obtain ⟨rfl, ht⟩ := ht
  obtain ⟨u, hcalled, hu⟩ := ensuring_ok hvalues
  have hkept : KeepsApart n t' (final (onMachine k (Vm.replaceFrom position
      (Vm.adjustResults wanted values)) t')) := by
    rw [onMachine_final]
    refine keepsApart_withVm hk (Vm.inherits_slots rfl rfl fun v hv hobject => .slot ?_)
    rcases List.mem_append.mp hv with hold | hnew
    · exact List.mem_of_mem_take hold
    · rcases adjustResults_mem hnew with hresult | rfl
      · have hslot := callee_mem hcalled v hresult
        rw [← leaveFrame_slots hu] at hslot
        exact hslot
      · exact hobject.elim
  have hstops : ∀ f u, onMachine k (Vm.replaceFrom position (Vm.adjustResults wanted values)) t'
      = .error (.failed f) u → (isolating g n).Stops t' f u := fun f u hr => by cases hr
  exact alike_isolating.2 ⟨alone_isolating (hkept.apart ht).1 hkept hstops, .inl rfl⟩

instance : Law.Calls ctx (isolating g n) where
  finish _ args := isolating_finish args _
  call _ _ hk hcallee := isolating_call hk hcallee

-- ============================================================ raising, protecting

/-- What a machine raises it has had. -/
theorem raised_take (hk : k < n) {vm : Vm} (h : Vm.take (s.vm k) = .ok v vm) :
    Raised n k v s (s.withVm k vm) := by
  obtain ⟨l, _, _, _, hslots, _, rfl⟩ := Vm.take_answered h
  intro held hs
  have hlt : k < s.machines.size := by
    rw [← holding_size s held]
    exact hs.lt_size hk
  rw [holding_withVm fun j hj => alsoHeld_ne held v hj]
  have hin : ((s.holding held).vm k).Inherits (((s.vm k).withSlots l).withSlots
      (((s.vm k).withSlots l).machine.slots ++ alsoHeld held k v k)) := by
    rw [holding_vm hlt]
    refine Vm.inherits_slots rfl rfl fun w hw _ => .slot ?_
    show w ∈ (s.vm k).machine.slots ++ held k
    have hmem : w ∈ l ++ alsoHeld held k v k := hw
    rw [hslots]
    simpa [alsoHeld, or_comm, or_left_comm, or_assoc] using hmem
  exact ⟨hs.withVm hk hin, hs.derives_withVm hk hin⟩

/-- A protected call takes over what has been raised on its machine. -/
theorem keepsApart_recover (hk : k < n) (frames : Nat) (position : Int)
    (hkept : KeepsApart n s t) (hraised : v.IsObject → Raised n k v s t) :
    KeepsApart n s (final (onMachine k (Vm.recover frames position v) t)) := by
  obtain ⟨slots, hslots, hfinal⟩ := recover_shuffles frames position v (t.vm k)
  rw [onMachine_final, hfinal]
  by_cases hobject : v.IsObject
  · intro held hs
    obtain ⟨ht, hderives⟩ := hraised hobject held hs
    have hlt : k < t.machines.size := by
      rw [← holding_size t (alsoHeld held k v)]
      exact ht.lt_size hk
    rw [holding_withVm fun j hj => (alsoHeld_ne held v hj).symm]
    refine (fun hin => ⟨ht.withVm hk hin, hderives.trans (ht.derives_withVm hk hin)⟩) ?_
    rw [holding_vm hlt]
    refine Vm.inherits_slots rfl rfl fun w hw _ => .slot ?_
    have hmem : w ∈ slots ++ held k := hw
    show w ∈ (t.vm k).machine.slots ++ alsoHeld held k v k
    simp only [alsoHeld, if_pos, List.mem_append, List.mem_singleton] at hmem ⊢
    rcases hmem with hslot | hheld
    · exact (hslots w hslot).imp_right .inr
    · exact .inr (.inl hheld)
  · refine hkept.trans (keepsApart_withVm hk (Vm.inherits_slots rfl rfl fun w hw hw' => ?_))
    rcases hslots w hw with hslot | rfl
    · exact .slot hslot
    · exact absurd hw' hobject

/-- What a protected call makes of what the call in it has come to. -/
def recovering (k : MachineId) (frames : Nat) (position : Int) :
    EStateM.Result Stop Session Int → EStateM.Result Stop Session Int
  | .error (.failed (.machine v _)) t =>
    (onMachine k (Vm.recover frames position v) >>= fun _ => pure statusError) t
  | r => r

theorem protectedCall_eq (run : Runner) (s : Session) :
    protectedCall ctx run fuel k args wanted s
      = recovering k (s.machine k).frames.length ((s.machine k).slots.length - args - 1)
          ((call ctx run fuel k args wanted >>= fun _ => pure statusOk) s) := by
  unfold protectedCall
  rw [bind_ok (get_apply s)]
  unfold handling
  dsimp only
  generalize (call ctx run fuel k args wanted >>= fun _ => pure statusOk : Action Int) s = r
  cases r with
  | ok x t => rfl
  | error e t =>
      cases e with
      | exhausted => rfl
      | failed f => cases f <;> rfl

theorem alone_recovering {s₀ : Session} (hs : Parted n s) (hk : k < n) (frames : Nat)
    (position : Int) {r : EStateM.Result Stop Session Int}
    (h : (isolating (some k) n).Alone s r) (h₀ : (isolating (some k) n).Alone s₀ r) :
    (isolating g n).Alone s₀ (recovering k frames position r) := by
  cases r with
  | ok x t => exact ⟨h₀.same, h₀.kept, fun _ _ hr => by cases hr⟩
  | error e t =>
      cases e with
      | exhausted => exact ⟨h₀.same, h₀.kept, fun _ _ hr => by cases hr⟩
      | failed f =>
          cases f with
          | machine v cause =>
              have hback : ∀ {s₁}, (isolating (some k) n).Alone s₁
                  (.error (.failed (.machine v cause)) t : EStateM.Result Stop Session Int) →
                    KeepsApart n s₁ (final (onMachine k (Vm.recover frames position v) t)) :=
                fun h₁ => keepsApart_recover hk frames position h₁.kept
                  (h₁.stops _ _ rfl k v cause rfl rfl)
              have halone : (isolating g n).Alone s₀
                  (onMachine k (Vm.recover frames position v) t) := by
                refine alone_isolating ((hback h).apart hs).1 (hback h₀) fun f u hr => ?_
                cases hvm : Vm.recover frames position v (t.vm k) with
                | ok _ vm =>
                    rw [onMachine_ok hvm] at hr
                    cases hr
                | error e vm =>
                    rw [onMachine_error hvm] at hr
                    cases hr
                    exact stops_plain (recover_plain hvm)
              exact halone.answering
          | _ =>
              refine ⟨h₀.same, h₀.kept, ?_⟩
              rintro _ _ hr _ _ _ _ rfl
              cases hr

/-- A protected call keeps machines apart, in another one too, if the errors that leave
the call inside it raise objects of its own machine. -/
theorem isolating_protectedCall (hk : k < n) {M : Session → Prop} {run run' : Runner}
    (hs : Parted n s)
    (hrun : ∀ b t, Parted n t → (isolating (some k) n).Alike M t (run b t) (run' b t)) :
    (isolating g n).Alike M s (protectedCall ctx run fuel k args wanted s)
      (protectedCall ctx run' fuel k args wanted s) := by
  have hcall : (isolating (some k) n).Holds fun run => (do
      call ctx run fuel k args wanted
      return statusOk) :=
    (holds_call hk fuel args wanted).bind fun _ => .pure _
  have h := hcall M run run' s s ⟨rfl, hs⟩ fun b t t' _ ht => by
    obtain ⟨rfl, ht⟩ := ht
    exact hrun b t' ht
  rw [protectedCall_eq, protectedCall_eq]
  obtain ⟨halone, hsame⟩ := alike_isolating.1 h
  refine alike_isolating.2 ⟨alone_recovering hs hk _ _ halone halone, ?_⟩
  rcases hsame with heq | ⟨m, hm, hway, hsince⟩
  · exact .inl (congrArg _ heq)
  · exact .inr ⟨m, hm, hway, alone_recovering hs hk _ _ halone hsince⟩

end Session

end StackBridge
