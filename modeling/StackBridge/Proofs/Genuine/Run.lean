import StackBridge.Proofs.Genuine.Law
import StackBridge.Proofs.Wrapper.References

/-!
What programs come to as long as they are tame. An operation is wild if it stores under
an integer beyond 64 bits or gives back such a reference, if it writes to a table where
there is no room left, or if it is a protected call that would take over a value which
is none of a machine's and which a function of the program raises. `tameBlock` runs a
block like `runBlock`, except that the run stops where a wild operation would begin, and
nothing meets that stop. What such runs come to, at whatever depth of blocks within
blocks, are the states of the program up to its first wild operation (`Tame`), and
the values in them are genuine unless there is no room for that (`values_genuine`).

They need not be of 64 bits: a float beyond those is a key as the integer that it
equals, and that is what a traversal hands out (`slot_beyond_range`).
-/

namespace StackBridge

/-- Whether an operation stores under an integer beyond 64 bits, or gives back such a
reference. -/
def Op.oversteps : Op → Bool
  | .rawSetI _ n => !inRange n
  | .unref _ r => decide (maxInteger < r)
  | _ => false

namespace Session

open Bridge Law

variable {s s' t u : Session} {k : MachineId} {v : Value} {ctx : Context} {fuel : Nat}
  {args wanted : Int} {M : Session → Prop} {op : Op} {run run' : Runner}

/-- An operation is a protected call that would take over a value which a function of
the program raises and which is no value of a machine's. -/
def TakesOver (ctx : Context) (run : Runner) (fuel : Nat) (op : Op) (s : Session) : Prop :=
  ∃ args wanted v cause t, op = .pcall args wanted
    ∧ call ctx run fuel s.current args wanted s = .error (.failed (.machine v cause)) t
    ∧ ctx.Raises v ∧ ¬ v.Genuine

/-- What a tame program does not do. -/
def Wild (ctx : Context) (run : Runner) (fuel : Nat) (op : Op) (s : Session) : Prop :=
  op.oversteps = true ∨ op.writesTables = true ∧ s.Cramped ∨ TakesOver ctx run fuel op s

open Classical in
/-- Performs an operation; a wild one is where the run stops. -/
noncomputable def tameStep (ctx : Context) (run : Runner) (fuel : Nat) (op : Op) : Action Unit :=
  fun s => if Wild ctx run fuel op s then .error .exhausted s else step ctx run fuel op s

/-- Performs such operations one after the other, with a look at each of them. -/
noncomputable def tameSteps (ctx : Context) (look : Action Unit → Action Unit) (run : Runner)
    (fuel : Nat) : List Op → Action Unit
  | [] => return
  | op :: ops => do
    look (tameStep ctx run fuel op)
    tameSteps ctx look run fuel ops

/-- Runs a block as far as it is tame, with a look at every operation in it and in the
blocks that it runs. -/
noncomputable def tameBlock (ctx : Context) (look : Action Unit → Action Unit) : Nat → Runner
  | 0, _ => throw .exhausted
  | fuel + 1, b => tameSteps ctx look (tameBlock ctx look fuel) fuel (ctx.program.block b)

-- ==================================================================== writing

/-- Genuine values stay so. -/
def StaysGenuine (s t : Session) : Prop := s.Genuine → t.Genuine

theorem staysGenuine_same (hheap : t.heap = s.heap) (hmachines : t.machines = s.machines)
    (hwrappers : t.wrappers = s.wrappers) : StaysGenuine s t := by
  refine fun hs => hs.same hheap hmachines fun id => ?_
  unfold Session.wrapper
  rw [hwrappers]
  exact hs.anchors id

instance : Calm StaysGenuine where
  refl _ := id
  trans _ _ _ h h' := h' ∘ h
  unseen hheap hmachines hwrappers _ := staysGenuine_same hheap hmachines hwrappers

instance : Describes ctx StaysGenuine := describes_of_blind ctx staysGenuine_same

theorem staysGenuine_onMachine {α : Type} {P : α → Prop} {a : Vm.Action α} (ha : Vm.Yields P a)
    (hseats : Keeps Vm.Seats a) : Keeps StaysGenuine (onMachine k a) :=
  fun _ hs => hs.onMachine ha hseats

/-- A field is named by genuine strings. -/
theorem fieldKey_genuine {w : HostValue} {key : Value} (h : fieldKey w = .ok key) :
    key.Genuine := by
  unfold fieldKey at h
  split at h
  · cases h
    trivial
  · cases hb : w.toBytes with
    | error f => rw [hb] at h; cases h
    | ok b => rw [hb] at h; cases h; trivial

/-- A reference is taken where there is room. -/
theorem genuine_ref (index : Int) (hs : s.Genuine)
    (hroom : ∀ id, ((s.heap.table id).size : Int) < maxInteger) :
    (final (onMachine k (Vm.ref index) s)).Genuine := by
  obtain ⟨htables, hregistry⟩ := Vm.keeps_ref (R := Vm.Seats) index (s.vm k)
  have href := Vm.ref_genuine index (hs.vm k) hroom
  rw [onMachine_final]
  refine hs.withVm ?_ htables (hregistry (hs.registry k))
  cases hr : Vm.ref index (s.vm k) with
  | ok r vm =>
      rw [hr] at href
      exact href.2
  | error f vm =>
      rw [hr] at href
      exact href

/-- A reference within 64 bits is given back, and one below zero is none. -/
theorem staysGenuine_unref (index : Int) {r : Int} (hr : r ≤ maxInteger) :
    Keeps StaysGenuine (onMachine k (Vm.unref index r)) := by
  by_cases hnone : r < 0
  · intro t ht
    rw [onMachine_final, Vm.unref_none hnone]
    show (t.withVm k (t.vm k)).Genuine
    rw [withVm_vm]
    exact ht
  · have hmin : minInteger ≤ 0 := by decide
    exact staysGenuine_onMachine
      (Vm.yields_unref index (decide_eq_true ⟨by omega, hr⟩)) (Vm.keeps_unref index r)

/-- Writing to a table stores genuine values under genuine keys. -/
theorem genuine_writing (hs : s.Genuine) (hop : op.writesTables = true)
    (hroom : ∀ id, ((s.heap.table id).size : Int) < maxInteger) (hrange : op.oversteps = false) :
    (final (perform ctx run fuel k op s)).Genuine := by
  have hsilently : ∀ {a : Action Unit}, Keeps StaysGenuine a →
      (final (silently a s)).Genuine := fun {a} ha => by
    unfold silently
    rw [final_bind_pure]
    exact ha s hs
  cases op with
  | rawSet i =>
      exact hsilently (staysGenuine_onMachine (Vm.yields_rawSet i) (Vm.keeps_rawSet i))
  | rawSetI i n =>
      have hn : inRange n = true := by simpa [Op.oversteps] using hrange
      exact hsilently (staysGenuine_onMachine (Vm.yields_setKey i (k := .int n) (.inl hn))
        (Vm.keeps_setKey i _))
  | setField i name =>
      refine hsilently ((holds_eval name).keeps.bind fun w => ?_)
      cases hkey : fieldKey w with
      | error f => exact Keeps.throw _
      | ok key =>
          exact staysGenuine_onMachine (Vm.yields_setKey i (fieldKey_genuine hkey))
            (Vm.keeps_setKey i key)
  | ref i =>
      have hput : (final (onMachine k (Vm.ref i) s)).Genuine := genuine_ref i hs hroom
      show (final ((onMachine k (Vm.ref i) >>= fun r => pure (HostValue.int r)) s)).Genuine
      rw [bind_apply]
      cases hr : onMachine k (Vm.ref i) s with
      | ok r t => rw [hr] at hput; exact hput
      | error e t => rw [hr] at hput; exact hput
  | unref i r =>
      have hle : ¬ maxInteger < r := by simpa [Op.oversteps] using hrange
      exact hsilently (staysGenuine_unref i (Int.not_lt.mp hle))
  | _ => cases hop

/-- And leaves a session in order, if there is room. -/
theorem valuing_writing (hs : s.Sane) (hop : op.writesTables = true) (hroom : ¬ s.Cramped)
    (hrange : op.oversteps = false) :
    (valuing ctx).Alike M s (perform ctx run fuel k op s) (perform ctx run' fuel k op s) := by
  -- what writes to a table runs no blocks
  have hsame : ∀ run', perform ctx run' fuel k op = perform ctx run fuel k op := by
    intro run'
    cases op <;> cases hop <;> rfl
  have htidy : Keeps (OnHeap (Heap.Stays Table.Tidy)) (perform ctx run fuel k op) := by
    have hwriting : Passes (OnHeap (Heap.Stays Table.Tidy)) (OnHeap (Heap.Stays Table.Tidy))
        fun run => perform ctx run fuel k op := holds_writing trivial fuel hop
    simp only [hsame] at hwriting
    exact hwriting.keeps
  have hwords : wording.Holds fun _ => perform ctx run fuel k op := by
    have hwriting : wording.Holds fun run => perform ctx run fuel k op :=
      holds_writing trivial fuel hop
    simpa only [hsame] using hwriting
  have hgenuine : (final (perform ctx run fuel k op s)).Genuine := by
    refine genuine_writing (hs.genuine.resolve_right hroom) hop (fun id => ?_) hrange
    have hsize := not_exists.mp (not_or.mp hroom).1 id
    omega
  rw [hsame run']
  exact alike_valuing.2 ⟨rfl, ⟨htidy s hs.tidy, .inl hgenuine⟩, fun hc => absurd hc hroom,
    fun f t hr => stops_genuine (genuine_of_wording hwords hr)⟩

-- ============================================================ protected calls

/-- A protected call takes over a genuine value. -/
theorem Saves.recover (frames : Nat) (position : Int) (hv : v.Genuine ∨ t.Cramped) :
    Saves t (final (onMachine k (Vm.recover frames position v) t)) := by
  obtain ⟨slots, hslots, hfinal⟩ := recover_shuffles frames position v (t.vm k)
  rw [onMachine_final, hfinal]
  refine .shuffled t k slots _ fun hg hc w hw => ?_
  rcases hslots w hw with hslot | rfl
  · exact (hg.vm k).slots w hslot
  · exact hv.resolve_right hc

theorem wording_recover (frames : Nat) (position : Int) :
    wording.Holds fun _ => onMachine k (Vm.recover frames position v) := by
  refine wording_of fun s f t hr => ?_
  cases hvm : Vm.recover frames position v (s.vm k) with
  | ok _ vm =>
      rw [onMachine_ok hvm] at hr
      cases hr
  | error e vm =>
      rw [onMachine_error hvm] at hr
      cases hr
      exact (recover_plain hvm).genuine

/-- Taking over such a value leaves a session in order. -/
theorem alike_recover (frames : Nat) (position : Int) (ht : t.Sane)
    (hv : v.Genuine ∨ t.Cramped) :
    (valuing ctx).Alike M t
      ((onMachine k (Vm.recover frames position v) >>= fun _ => pure statusError) t)
      ((onMachine k (Vm.recover frames position v) >>= fun _ => pure statusError) t) := by
  have hwords : wording.Holds fun _ =>
      (onMachine k (Vm.recover frames position v) >>= fun _ => pure statusError) :=
    (wording_recover frames position).bind fun _ => .pure _
  obtain ⟨hsane, hkept⟩ := Saves.recover (k := k) frames position hv ht
  refine alike_valuing.2 ⟨rfl, ?_, ?_, fun f u hr => stops_genuine (genuine_of_wording hwords hr)⟩
  · rwa [final_bind_pure]
  · rwa [final_bind_pure]

/-- A protected call leaves a session in order if what it takes over is genuine, at least
where a function of the program raises it. -/
theorem valuing_protectedCall (hs : s.Sane)
    (hrun : ∀ b t t', (valuing ctx).Way s t → (valuing ctx).Same t t' →
      (valuing ctx).Alike M t (run b t) (run' b t'))
    (htakes : ∀ v cause t,
      call ctx run fuel k args wanted s = .error (.failed (.machine v cause)) t →
        ctx.Raises v → v.Genuine) :
    (valuing ctx).Alike M s (protectedCall ctx run fuel k args wanted s)
      (protectedCall ctx run' fuel k args wanted s) := by
  have hcall : (valuing ctx).Holds fun run => (do
      call ctx run fuel k args wanted
      return statusOk) :=
    (holds_call trivial fuel args wanted).bind fun _ => .pure _
  obtain ⟨heq, hsane, hkept, hstops⟩ := alike_valuing.1 (hcall M run run' s s ⟨rfl, hs⟩ hrun)
  dsimp only at heq hsane hkept hstops
  rw [protectedCall_eq, protectedCall_eq, heq]
  clear heq
  refine alike_valuing.2 ⟨rfl, ?_⟩
  cases hr : (call ctx run fuel k args wanted >>= fun _ => pure statusOk) s with
  | ok x t =>
      rw [hr] at hsane hkept
      exact ⟨hsane, hkept, fun _ _ hr => by cases hr⟩
  | error e t =>
      rw [hr] at hsane hkept hstops
      cases e with
      | exhausted => exact ⟨hsane, hkept, fun _ _ hr => by cases hr⟩
      | failed f =>
          cases f with
          | machine v cause =>
              have hraised : call ctx run fuel k args wanted s
                  = .error (.failed (.machine v cause)) t := by
                rw [bind_apply] at hr
                cases hc : call ctx run fuel k args wanted s with
                | ok x u => rw [hc] at hr; cases hr
                | error e u =>
                    rw [hc] at hr
                    cases hr
                    rfl
              have hv : v.Genuine ∨ t.Cramped :=
                (hstops _ t rfl v cause rfl).elim .inl fun h =>
                  h.imp_left (htakes v cause t hraised)
              obtain ⟨-, hback, hcramped, hfails⟩ := alike_valuing.1
                (@alike_recover t k v ctx M (s.machine k).frames.length
                  ((s.machine k).slots.length - args - 1) hsane hv)
              exact ⟨hback, hcramped ∘ hkept, hfails⟩
          | _ => exact ⟨hsane, hkept, hstops⟩

-- ================================================================= operations

/-- Every operation that writes to no table and is no protected call. -/
theorem valuing_quiet (fuel : Nat) (hop : op.writesTables = false) (hcall : op.protects = false) :
    (valuing ctx).Holds fun run => perform ctx run fuel k op := by
  cases hcloses : op.closes with
  | true => exact holds_closing trivial fuel hcloses
  | false =>
      cases hsees : op.seesChecks with
      | true => exact holds_seeing trivial fuel hsees
      | false =>
          cases hraises : op.raises with
          | true =>
              cases op with
              | error => exact Raises.raiseTop trivial
              | _ => cases hraises
          | false => exact holds_unprotected trivial fuel (by simp [Op.isPlain, *]) hcall

/-- A tame operation leaves a session in order if the blocks that it runs do, and comes
to the same for what runs them alike. -/
theorem alike_tameStep (hs : s.Sane)
    (hrun : ∀ b t, t.Sane → (valuing ctx).Alike M t (run b t) (run' b t)) :
    (valuing ctx).Alike M s (tameStep ctx run fuel op s) (tameStep ctx run' fuel op s) := by
  have hruns : ∀ b t t', (valuing ctx).Way s t → (valuing ctx).Same t t' →
      (valuing ctx).Alike M t (run b t) (run' b t') := by
    rintro b t _ _ ⟨rfl, ht⟩
    exact hrun b _ ht
  have hcalls : ∀ args wanted, call ctx run' fuel s.current args wanted s
      = call ctx run fuel s.current args wanted s := fun args wanted =>
    (alike_valuing.1 (holds_call (k := s.current) trivial fuel args wanted M run run' s s
      ⟨rfl, hs⟩ hruns)).1
  have hwild : Wild ctx run' fuel op s ↔ Wild ctx run fuel op s := by
    unfold Wild TakesOver
    simp only [hcalls]
  unfold tameStep
  by_cases h : Wild ctx run fuel op s
  · rw [if_pos h, if_pos (hwild.2 h)]
    exact .exhausted ⟨rfl, hs⟩ id
  · rw [if_neg h, if_neg (mt hwild.1 h)]
    obtain ⟨hrange, hroom, htakes⟩ : ¬ op.oversteps = true
        ∧ ¬ (op.writesTables = true ∧ s.Cramped) ∧ ¬ TakesOver ctx run fuel op s :=
      ⟨fun h' => h (.inl h'), fun h' => h (.inr (.inl h')), fun h' => h (.inr (.inr h'))⟩
    refine alike_step ?_
    cases hop : op.writesTables with
    | true =>
        exact valuing_writing hs hop (fun hc => hroom ⟨hop, hc⟩) (Bool.eq_false_iff.mpr hrange)
    | false =>
        cases hcall : op.protects with
        | false => exact valuing_quiet fuel hop hcall M run run' s s ⟨rfl, hs⟩ hruns
        | true =>
            cases op with
            | pcall args wanted =>
                refine (valuing_protectedCall hs hruns fun v cause t hr hraises => ?_).bind
                  fun _ t t' _ ht _ => .ok ht id
                by_contra hv
                exact htakes ⟨args, wanted, v, cause, t, rfl, hr, hraises, hv⟩
            | _ => cases hcall

/-- Blocks go alike where looking at their operations does. -/
theorem alike_tameBlock {look look' : Action Unit → Action Unit}
    (hlook : ∀ {action action' : Action Unit} {s}, s.Sane →
      (valuing ctx).Alike M s (action s) (action' s) →
        (valuing ctx).Alike M s (look action s) (look' action' s))
    (fuel : Nat) (b : BlockId) (hs : s.Sane) :
    (valuing ctx).Alike M s (tameBlock ctx look fuel b s) (tameBlock ctx look' fuel b s) := by
  have hsteps : ∀ {run run' : Runner} (fuel : Nat) (ops : List Op) {s : Session}, s.Sane →
      (∀ b t, t.Sane → (valuing ctx).Alike M t (run b t) (run' b t)) →
        (valuing ctx).Alike M s (tameSteps ctx look run fuel ops s)
          (tameSteps ctx look' run' fuel ops s) := by
    intro run run' fuel ops s hs hrun
    induction ops generalizing s with
    | nil => exact .ok ⟨rfl, hs⟩ id
    | cons op ops ih =>
        refine (hlook hs (alike_tameStep hs hrun)).bind fun _ t t' _ ht _ => ?_
        obtain ⟨rfl, ht⟩ := ht
        exact ih ht
  induction fuel generalizing b s with
  | zero => exact .exhausted ⟨rfl, hs⟩ id
  | succ fuel ih => exact hsteps fuel _ hs fun b _ ht => ih b ht

/-- Watching for a session that is not in order makes no difference. -/
theorem alike_watching (hu : ¬ u.Sane) (other : Action Unit) {action action' : Action Unit}
    (hs : s.Sane) (h : (valuing ctx).Alike M s (action s) (action' s)) :
    (valuing ctx).Alike M s (action s) (watching (· ≠ u) other action' s) := by
  obtain ⟨heq, hsane, hrest⟩ := alike_valuing.1 h
  have hbegins : s ≠ u := fun hsu => hu (hsu ▸ hs)
  have hends : final (action' s) ≠ u := by
    rw [heq]
    exact fun hfinal => hu (hfinal ▸ hsane)
  have hwatch : watching (· ≠ u) other action' s = action' s :=
    @watching_eq s (· ≠ u) other action' hbegins hends
  rw [hwatch, heq]
  exact alike_valuing.2 ⟨rfl, hsane, hrest⟩

-- ==================================================================== running

/-- The states that a program comes to as long as it is tame: its session at the start,
and what its operations lead to or visit on their way, through whatever blocks. -/
inductive Tame (ctx : Context) : Session → Prop where
  | start {s : Session}
      (defined : evalClasses ctx.program ctx.program.classes []
        (Session.start ctx.program.machines ctx.program.checks) = .ok ctx.classes s) :
      Tame ctx s
  | step {s : Session} (fuel : Nat) (op : Op) (before : Tame ctx s) :
      Tame ctx (final (tameStep ctx (tameBlock ctx id fuel) fuel op s))
  | inside {s t : Session} (fuel : Nat) (op : Op) (before : Tame ctx s)
      (visited : ∃ other, tameStep ctx (tameBlock ctx (watching (· ≠ t) other) fuel) fuel op s
        ≠ tameStep ctx (tameBlock ctx id fuel) fuel op s) : Tame ctx t

/-- A session begins in order. -/
theorem start_sane {machines : Nat} (hmachines : 0 < machines) (checks : Bool) :
    (Session.start machines checks).Sane := by
  have hstart := start_pristine machines checks
  have hmachine : ∀ k, ∃ r < machines, (Session.start machines checks).machine k = .fresh r := by
    intro k
    by_cases hk : k < machines
    · exact ⟨k, hk, hstart.fresh k hk⟩
    · refine ⟨0, hmachines, ?_⟩
      have hsize := hstart.machines
      unfold Session.machine
      rw [Array.getD_eq_getD_getElem?,
        Array.getElem?_eq_none (Nat.le_of_not_lt (hsize.symm ▸ hk))]
      rfl
  refine ⟨start_throughout machines checks, .inl ⟨fun k => ?_, fun k => ?_, fun id r h => ?_⟩⟩
  · obtain ⟨r, _, hfresh⟩ := hmachine k
    refine ⟨?_, fun id => ?_, ?_⟩
    · show ∀ v ∈ ((Session.start machines checks).machine k).slots, v.Genuine
      rw [hfresh]
      exact fun _ hv => absurd hv List.not_mem_nil
    · show ((Session.start machines checks).heap.table id).Genuine
      rw [hstart.table id]
      exact Table.genuine_empty
    · show ∀ e ∈ ((Session.start machines checks).machine k).freeRefs, _
      rw [hfresh]
      exact fun _ he => absurd he List.not_mem_nil
  · obtain ⟨r, hr, hfresh⟩ := hmachine k
    rw [hfresh, hstart.tables]
    exact hr
  · rw [wrapper_beyond (by rw [hstart.wrappers]; exact Nat.zero_le id)] at h
    cases h

/-- Sessions stay in order as long as a program is tame. -/
theorem Tame.sane (hmachines : 0 < ctx.program.machines) (h : Tame ctx s) : s.Sane := by
  induction h with
  | start defined =>
      have hclasses : (valuing ctx).Alike Unmarked _
          (evalClasses ctx.program ctx.program.classes []
            (Session.start ctx.program.machines ctx.program.checks)) _ :=
        (holds_evalClasses ctx.program ctx.program.classes []).apply
          ⟨rfl, start_sane hmachines ctx.program.checks⟩
      have hsane := (alike_valuing.1 hclasses).2.1
      rw [defined] at hsane
      exact hsane
  | step fuel op _ ih =>
      have halike : ∀ s : Session, s.Sane → (valuing ctx).Alike Unmarked s
          (tameStep ctx (tameBlock ctx id fuel) fuel op s)
          (tameStep ctx (tameBlock ctx id fuel) fuel op s) := fun s hs =>
        alike_tameStep hs fun b _ ht => alike_tameBlock (fun _ h => h) fuel b ht
      exact (alike_valuing.1 (halike _ ih)).2.1
  | @inside s t fuel op _ visited ih =>
      by_contra ht
      obtain ⟨other, hne⟩ := visited
      have halike : (valuing ctx).Alike Unmarked s
          (tameStep ctx (tameBlock ctx id fuel) fuel op s)
          (tameStep ctx (tameBlock ctx (watching (· ≠ t) other) fuel) fuel op s) :=
        alike_tameStep ih fun b _ hu => alike_tameBlock (alike_watching ht other) fuel b hu
      exact hne (alike_valuing.1 halike).1

-- ======================================================= programs without blocks

/-- Where no block does anything, blocks run as they are. -/
theorem tameBlock_eq (h : ∀ b, ctx.program.block b = []) (look : Action Unit → Action Unit)
    (fuel : Nat) : tameBlock ctx look fuel = runBlock ctx fuel := by
  funext b
  cases fuel with
  | zero => rfl
  | succ fuel =>
      unfold tameBlock runBlock
      rw [h b]
      rfl

/-- An operation that is not wild is performed as it is. -/
theorem Tame.next (h : Tame ctx s) (hblocks : ∀ b, ctx.program.block b = []) (fuel : Nat) (op : Op)
    (hrange : op.oversteps = false) (hcall : op.protects = false)
    (hroom : op.writesTables = true → ¬ s.Cramped) :
    Tame ctx (final (Session.step ctx (runBlock ctx fuel) fuel op s)) := by
  have htame : ¬ Wild ctx (tameBlock ctx id fuel) fuel op s := by
    rintro (h | ⟨h, hc⟩ | ⟨args, wanted, _, _, _, rfl, _⟩)
    · rw [hrange] at h
      cases h
    · exact hroom h hc
    · cases hcall
  have hstep := h.step fuel op
  unfold tameStep at hstep
  rwa [if_neg htame, tameBlock_eq hblocks] at hstep

/-- And so are operations one after the other that cannot be. -/
theorem Tame.quiet (h : Tame ctx s) (hblocks : ∀ b, ctx.program.block b = []) (ops : List Op)
    (hops : ∀ op ∈ ops, op.oversteps = false ∧ op.protects = false ∧ op.writesTables = false) :
    Tame ctx (ops.foldl (fun s op => final (Session.step ctx (runBlock ctx 9) 9 op s)) s) := by
  induction ops generalizing s with
  | nil => exact h
  | cons op ops ih =>
      obtain ⟨hrange, hcall, hwrites⟩ := hops op List.mem_cons_self
      refine ih (h.next hblocks 9 op hrange hcall fun hop => ?_) fun op hop =>
        hops op (List.mem_cons_of_mem _ hop)
      rw [hwrites] at hop
      cases hop

/-- What a table of a heap has is nothing, or what one of the tables that are there has. -/
theorem entries_cases (h : Heap) (id : TableId) : (h.table id).entries = []
    ∨ (h.table id).entries ∈ h.tables.toList.map Table.entries := by
  unfold Heap.table
  rw [Array.getD_eq_getD_getElem?]
  cases ht : h.tables[id]? with
  | none => exact .inl rfl
  | some t => exact .inr (List.mem_map_of_mem (Array.mem_toList_iff.mpr (Array.mem_of_getElem? ht)))

/-- There is room where tables are small and no list is too long. -/
theorem not_cramped (hsmall : ∀ es ∈ [] :: s.heap.tables.toList.map Table.entries,
    (es.length : Int) + Wrapper.released s.wrappers < maxInteger
      ∧ ∀ e ∈ es, e.1.value.Genuine) : ¬ s.Cramped := by
  have htable : ∀ id, ((s.heap.table id).size : Int) + Wrapper.released s.wrappers < maxInteger
      ∧ ∀ e ∈ (s.heap.table id).entries, e.1.value.Genuine := by
    intro id
    rcases entries_cases s.heap id with hnone | hmem
    · exact hsmall _ (hnone ▸ List.mem_cons_self)
    · exact hsmall _ (List.mem_cons_of_mem _ hmem)
  rintro (⟨id, hfull⟩ | ⟨id, _, _, _, n, hn, hhas⟩)
  · exact absurd hfull (Int.not_le.mpr (htable id).1)
  · obtain ⟨e, he, hkey⟩ := List.mem_map.mp (Table.has_iff.mp hhas)
    have hgenuine := (htable id).2 e he
    rw [hkey] at hgenuine
    exact hn hgenuine

/-- As long as a program is tame, no table holds nil, or has a key that is a NaN or a float
with an integral value; and unless there is no room left, all values on the stacks and all
keys and values in the tables are genuine. -/
theorem values_genuine (hmachines : 0 < ctx.program.machines) (h : Tame ctx s) :
    (∀ id, ∀ e ∈ (s.heap.table id).entries,
        e.2 ≠ .nil ∧ ∀ x, e.1 = .float x → x.isNaN = false ∧ x.isIntegral = false)
      ∧ (¬ s.Cramped → (∀ k, ∀ v ∈ (s.machine k).slots, v.Genuine)
        ∧ ∀ id, ∀ e ∈ (s.heap.table id).entries, e.1.value.Genuine ∧ e.2.Genuine) := by
  have hs := h.sane hmachines
  refine ⟨fun id e he => ⟨(hs.tidy id).nilFree e he, fun x hx => (hs.tidy id).settled he hx⟩,
    fun hroom => ?_⟩
  have hg := hs.genuine.resolve_right hroom
  exact ⟨fun k => (hg.vm k).slots, fun id e he =>
    ⟨((hg.vm 0).tables id e he).key, ((hg.vm 0).tables id e he).value⟩⟩

/-- A table, with a float beyond 64 bits, `2 ^ 70`, and another value on top of it. -/
def keying : List Op :=
  [.newTable, .plainPush .number (.value (.float .plain (.ofBits 0x4450000000000000))),
    .plainPush .boolean (.value (.bool true))]

/-- The value is in the table under the float, and a traversal of the table has begun. -/
def beyond : Session := afterOps plain (keying ++ [.rawSet (-3), .pushNil, .next (-2)])

/-- The number is an integer on the stack, and there is nothing wrong with that. -/
theorem values_genuine_beyond : Tame plain beyond ∧ ¬ beyond.Cramped
    ∧ (∀ k, ∀ v ∈ (beyond.machine k).slots, v.Genuine)
    ∧ ∀ id, ∀ e ∈ (beyond.heap.table id).entries, e.1.value.Genuine ∧ e.2.Genuine := by
  have hblocks : ∀ b, plain.program.block b = [] := fun _ => rfl
  have hroomy : ∀ (es : List (List (Key × Value))) {s : Session},
      s.heap.tables.toList.map Table.entries = es ∧ Wrapper.released s.wrappers = 0 →
        (∀ l ∈ [] :: es, l.length ≤ 1 ∧ ∀ e ∈ l, e.1.value.Genuine) → ¬ s.Cramped := by
    rintro es s ⟨hes, hreleased⟩ hsmall
    refine not_cramped fun l hl => ?_
    have hmax : 1 < maxInteger := by decide
    obtain ⟨hlength, hkeys⟩ := hsmall l (hes ▸ hl)
    exact ⟨by omega, hkeys⟩
  have hready : ¬ (afterOps plain keying).Cramped := by
    refine hroomy [[], []] (by decide +kernel) ?_
    simp only [List.mem_cons, List.not_mem_nil, or_false, or_self, forall_eq]
    exact ⟨Nat.zero_le 1, fun _ => False.elim⟩
  have hroom : ¬ beyond.Cramped := by
    refine hroomy [[], [(.int 1180591620717411303424, .bool true)]] (by decide +kernel) ?_
    have hnumber : Storable 1180591620717411303424 :=
      .inr ⟨.ofBits 0x4450000000000000, by decide +kernel⟩
    simp only [List.mem_cons, List.not_mem_nil, or_false, ← or_assoc, or_self, forall_eq_or_imp,
      forall_eq]
    exact ⟨⟨Nat.zero_le 1, fun _ => False.elim⟩, Nat.le_refl 1, hnumber⟩
  have hstart : Tame plain (.start plain.program.machines plain.program.checks) := .start rfl
  have hkeyed : Tame plain (afterOps plain keying) := hstart.quiet hblocks keying (by decide)
  have htame : Tame plain beyond := by
    have hset := hkeyed.next hblocks 9 (.rawSet (-3)) rfl rfl fun _ => hready
    unfold beyond
    unfold afterOps at hset ⊢
    rw [List.foldl_append, List.foldl_cons]
    exact hset.quiet hblocks [.pushNil, .next (-2)] (by decide)
  exact ⟨htame, hroom, (values_genuine (by decide) htame).2 hroom⟩

/-- An integer that is not of 64 bits has come onto a stack. -/
theorem slot_beyond_range : Reachable plain beyond
    ∧ (beyond.machine 0).slots = [.table 1, .int 1180591620717411303424, .bool true]
    ∧ inRange 1180591620717411303424 = false :=
  ⟨afterOps_reachable rfl _, by decide +kernel, by decide⟩

end Session

end StackBridge
