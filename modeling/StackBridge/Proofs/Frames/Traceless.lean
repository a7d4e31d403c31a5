import StackBridge.Proofs.Frames.Hosted
import StackBridge.Proofs.Read.Untouched

/-!
A call of a bound function leaves no trace on its machine (`callBound_traceless`).
However it ends, the frames and the slots are those from before it, unless
something has closed the machine.

What is followed through the call is that at most some values have come on top of
the slots there were (`OnTop`). Pushing the function and its arguments does nothing
else. The call in the middle keeps to its own frame, which begins right above the
function; since the function is the first value on top, nothing below it is out of
place whatever was left above. When a step stops, the restoring block around them
all cuts the stack back, in the frame that it began in, because by then every frame
of the call has been left.
-/

namespace StackBridge

namespace Session

open Bridge

variable {ctx : Context} {run : Runner} {fuel : Nat} {k : MachineId} {s t u : Session}
  {xs ys : List Value}

-- ================================================================= on top

/-- Unless machine `k` has been closed, nothing of its stack and its frames has
changed but that `xs` have come on top. -/
def OnTop (k : MachineId) (xs : List Value) (s t : Session) : Prop :=
  (t.machine k).closed = false →
    (t.machine k).slots = (s.machine k).slots ++ xs
      ∧ (t.machine k).frames = (s.machine k).frames

theorem Leaves.onTop {R : Session → Session → Prop} (h : Leaves R k xs s t) : OnTop k xs s t :=
  fun _ => ⟨h.slots, h.frames⟩

theorem OnTop.of_closed (h : (t.machine k).closed = true) : OnTop k xs s t := by
  intro hopen
  rw [h] at hopen
  cases hopen

theorem OnTop.live (h : OnTop k xs s t) (hl : (s.machine k).Live)
    (hopen : (t.machine k).closed = false) : (t.machine k).Live := by
  obtain ⟨_, b, fs, hf, hb⟩ := hl
  obtain ⟨hslots, hframes⟩ := h hopen
  refine ⟨hopen, b, fs, hframes.trans hf, ?_⟩
  rw [hslots, List.length_append]
  omega

/-- Values on top of a machine in order leave it in order. -/
theorem Leaves.framed {R : Session → Session → Prop} (h : Leaves R k xs s t)
    (hm : (s.machine k).Framed) : (t.machine k).Framed := by
  have hmore : (s.machine k).baseOf ≤ ((s.machine k).slots ++ xs).length := by
    rw [List.length_append]
    exact Nat.le_add_right_of_le hm.base_le
  have hframed := hm.withSlots hmore
  unfold Machine.Framed at hframed ⊢
  rw [h.slots, h.frames]
  exact hframed

/-- A restoring block does nothing about a machine that has been closed. -/
theorem restoringTop_closed {α : Type} {block : Action α} {e : Stop} (hl : (s.machine k).Live)
    (hb : block s = .error e t) (hclosed : (t.machine k).closed = true) :
    restoringTop k block s = .error e t := by
  obtain ⟨_, b, fs, hf, _⟩ := hl
  unfold restoringTop
  rw [bind_ok (getTop_eq hf)]
  unfold onStop
  simp only [hb, bind_apply, isClosed_eq, hclosed, Bool.not_true, Bool.false_eq_true, if_false,
    pure_apply]

/-- Restoring the top takes back whatever a block has put on top before it
stopped. -/
theorem restoringTop_onTop {α : Type} {block : Action α} (hk : k < s.machines.size)
    (hl : (s.machine k).Live) (hsize : (final (block s)).machines.size = s.machines.size)
    (hb : Ends (block s) (fun _ t => OnTop k [] s t) fun _ t => ∃ xs, OnTop k xs s t) :
    OnTop k [] s (final (restoringTop k block s)) := by
  cases h : block s with
  | ok x t =>
      rw [h] at hb
      rw [restoringTop_ok hl h]
      exact hb
  | error e t =>
      rw [h] at hb hsize
      obtain ⟨xs, hxs⟩ := hb
      cases hclosed : (t.machine k).closed with
      | true =>
          rw [restoringTop_closed hl h hclosed]
          exact .of_closed hclosed
      | false =>
          obtain ⟨hslots, hframes⟩ := hxs hclosed
          have hkt : k < t.machines.size := Nat.lt_of_lt_of_eq hk hsize.symm
          rw [restoringTop_stopped hl h hclosed hframes hslots]
          intro _
          dsimp only [final]
          rw [withSlots_machine hkt, List.append_nil]
          exact ⟨rfl, hframes⟩

-- ============================================================== the steps

/-- A call of the first value on top puts what was wanted of its results in its
place. If it stops, that may have left anything from there on. -/
theorem call_onTop (hrun : ∀ b, Keeps Confined (run b)) (hm : (s.machine k).Framed) {w : Value}
    (h : Adds k (w :: ys) s t) (wanted : Int) :
    Ends (call ctx run fuel k ys.length wanted t)
      (fun _ u => u.machines.size = s.machines.size
        ∧ ∃ values, OnTop k (Vm.adjustResults wanted values) s u)
      fun _ u => ∃ xs, OnTop k xs s u := by
  have hmt : (t.machine k).Framed := h.framed hm
  rcases call_cases ctx fuel k ys.length wanted t with
    ⟨e, hfail⟩ | ⟨position, f, hposition, hlt, hbase, _, hcall⟩
  · rw [hfail run]
    exact ⟨w :: ys, h.onTop⟩
  · have hfirst : position = (s.machine k).slots.length := by
      rw [h.slots, List.length_append, List.length_cons] at hposition
      omega
    have hbelow : (t.machine k).slots.take position = (s.machine k).slots := by
      rw [h.slots, hfirst, List.take_left]
    have hbody := (@contained_callee ctx k fuel f).keeps_of_run hrun (entering k (position + 1) t)
    obtain ⟨hreturned, hresults⟩ :=
      returning_returned (lt_size_of_slots hlt) hbase hlt wanted hbody
    rw [hcall run]
    cases hr : returning k position wanted (callee ctx fuel k f run)
        (entering k (position + 1) t) with
    | ok x u =>
        obtain ⟨values, _, _, _, hslots⟩ := hresults u hr
        rw [hr] at hreturned
        refine ⟨hreturned.confined.size.trans h.size, values, fun hopen => ⟨?_, ?_⟩⟩
        · rw [hslots hopen hmt, hbelow]
        · exact ((hreturned.confined.machine k).frames hopen hmt).trans h.frames
    | error e u =>
        rw [hr] at hreturned
        refine ⟨(u.machine k).slots.drop position, fun hopen => ⟨?_, ?_⟩⟩
        · have hkept : (u.machine k).slots.take position = (s.machine k).slots :=
            (hreturned.below hopen hmt).trans hbelow
          rw [← hkept, List.take_append_drop]
        · exact ((hreturned.confined.machine k).frames hopen hmt).trans h.frames

/-- Reading the one value on top takes it, unless the read stops. -/
theorem popValue_onTop (hrun : ∀ b, Keeps Confined (run b)) (hk : k < u.machines.size)
    (hl : (s.machine k).Live) {v : Value} (h : OnTop k [v] s u) (t : TypeExpr) :
    Ends (popValue ctx run fuel k .standard t u) (fun _ w => OnTop k [] s w)
      fun _ w => ∃ xs, OnTop k xs s w := by
  cases hclosed : (u.machine k).closed with
  | true =>
      have hreads : Contained fun run => popValue ctx run fuel k .standard t :=
        holds_popValue trivial fuel rfl t
      have hconfined := (hreads.keeps_of_run hrun u).machine k
      have hstays : ((final (popValue ctx run fuel k .standard t u)).machine k).closed = true := by
        by_contra hopen
        rw [hconfined.opened (Bool.eq_false_iff.mpr hopen)] at hclosed
        cases hclosed
      cases hr : popValue ctx run fuel k .standard t u with
      | ok x w =>
          rw [hr] at hstays
          exact OnTop.of_closed hstays
      | error e w =>
          rw [hr] at hstays
          exact ⟨[], .of_closed hstays⟩
  | false =>
      obtain ⟨hslots, hframes⟩ := h hclosed
      have hstandard : Bridge.Raises .standard := trivial
      refine (popValue_ends hstandard fuel t hk (h.live hl hclosed)).mono ?_ ?_
      · rintro _ w ⟨⟨v', hv'⟩, hframes', _⟩ _
        rw [hslots] at hv'
        rw [List.append_nil]
        exact ⟨(List.append_inj_left' hv' rfl).symm, hframes'.trans hframes⟩
      · intro _ w hw
        refine ⟨[v], fun _ => ⟨?_, hw.frames.trans hframes⟩⟩
        rw [hw.slots, List.append_nil, hslots]

/-- All that a bound function does on its machine, from the function pushed to the
result read. -/
theorem boundBody_onTop (hrun : ∀ b, Keeps Confined (run b)) {id : Nat}
    (hid : (s.wrapper id).machine = k) (hk : k < s.machines.size) (hm : (s.machine k).Framed)
    (hl : (s.machine k).Live) (types : List TypeExpr) (returns : TypeExpr)
    (args : List HostValue) :
    Ends ((do
        pushWrapped id
        pushArguments ctx k args types
        call ctx run fuel k args.length (if returns = .none ∨ returns = .cls .none then 0 else 1)
        if returns = .none ∨ returns = .cls .none then return HostValue.none
        else popValue ctx run fuel k .standard returns : Action HostValue) s)
      (fun _ t => OnTop k [] s t) fun _ t => ∃ xs, OnTop k xs s t := by
  have hpushed : ∀ (e : Stop) t, e.Met ∧ (∃ xs, Adds k xs s t) → ∃ xs, OnTop k xs s t :=
    fun _ _ ⟨_, xs, hxs⟩ => ⟨xs, hxs.onTop⟩
  refine Ends.bind ((pushWrapped_ends hk hid).mono (fun _ _ h => h) hpushed) ?_
  rintro _ t₁ ⟨w, h₁⟩
  refine Ends.bind ((pushArguments_ends hk hl args types h₁).mono (fun _ _ h => h) hpushed) ?_
  rintro _ t₂ ⟨ys, hys, h₂⟩
  rw [← hys]
  refine (call_onTop hrun hm h₂ _).bind ?_
  rintro _ u ⟨hsize, values, hu⟩
  by_cases hdiscards : returns = .none ∨ returns = .cls .none
  · have hnone : Vm.adjustResults 0 values = [] := by
      simp [adjustResults_exactly (Int.le_refl 0)]
    rw [if_pos hdiscards, hnone] at hu
    rw [if_pos hdiscards]
    exact hu
  · obtain ⟨v, hv⟩ : ∃ v, Vm.adjustResults 1 values = [v] := by
      rw [adjustResults_exactly (by decide)]
      cases values with
      | nil => exact ⟨.nil, rfl⟩
      | cons v values => exact ⟨v, by simp⟩
    rw [if_neg hdiscards, hv] at hu
    rw [if_neg hdiscards]
    exact popValue_onTop hrun (by rw [hsize]; exact hk) hl hu returns

-- ============================================================ bound functions

/-- Calling a bound function leaves no trace on the stack of its machine. Whatever
frame it is called in, whatever the arguments are and whatever the called function
does, when the call has returned or failed the slots and the frames of the machine
are those from before it, unless the machine has been closed in between. -/
theorem callBound_traceless (ctx : Context) (fuel : Nat) (id : Nat)
    (params : Option (List TypeExpr)) (returns : TypeExpr) (args : List HostValue)
    {s t : Session} (hm : (s.machine (s.wrapper id).machine).Framed)
    (ht : final (callBound ctx (runBlock ctx fuel) fuel id params returns args s) = t)
    (hopen : (t.machine (s.wrapper id).machine).closed = false) :
    (t.machine (s.wrapper id).machine).slots = (s.machine (s.wrapper id).machine).slots
      ∧ (t.machine (s.wrapper id).machine).frames
        = (s.machine (s.wrapper id).machine).frames := by
  obtain ⟨k, hid⟩ : ∃ k, (s.wrapper id).machine = k := ⟨_, rfl⟩
  rw [hid] at hm hopen ⊢
  have hbound : Contained fun run => callBound ctx run fuel id params returns args :=
    holds_callBound fuel id params returns args
  have hconfined : Confined s t := ht ▸ hbound.keeps_of_run (keeps_runBlock ctx fuel) s
  by_cases hk : k < s.machines.size
  case neg =>
    -- there is no such machine, before or after
    have hsame : t.machine k = s.machine k := by
      have hkt : ¬ k < t.machines.size := by rw [hconfined.size]; exact hk
      simp [machine, Array.getD_eq_getD_getElem?, hk, hkt]
    rw [hsame]
    exact ⟨rfl, rfl⟩
  have hl : (s.machine k).Live := hm.live ((hconfined.machine k).opened hopen)
  unfold callBound at ht
  rw [bind_ok (get_apply s), hid] at ht
  dsimp only at ht
  by_cases hcount : (params.isSome && args.length != (params.getD []).length) = true
  · rw [if_pos hcount] at ht
    obtain rfl : s = t := ht
    exact ⟨rfl, rfl⟩
  · rw [if_neg hcount] at ht
    have hbody : Contained fun run => (do
        pushWrapped id
        pushArguments ctx k args (params.getD [])
        call ctx run fuel k args.length (if returns = .none ∨ returns = .cls .none then 0 else 1)
        if returns = .none ∨ returns = .cls .none then return HostValue.none
        else popValue ctx run fuel k .standard returns : Action HostValue) :=
      holds_boundBody trivial fuel id params returns args
    have hsize := (hbody.keeps_of_run (keeps_runBlock ctx fuel) s).size
    have htop := restoringTop_onTop hk hl hsize
      (boundBody_onTop (keeps_runBlock ctx fuel) hid hk hm hl (params.getD []) returns args)
    obtain ⟨hslots, hframes⟩ := (show OnTop k [] s t from ht ▸ htop) hopen
    exact ⟨hslots.trans (List.append_nil _), hframes⟩

/-- A program with a function that leaves nil and a table in its frame. -/
def leavingTable : Context := ⟨[], ⟨[], 1, true, #[[], [.pushNil, .newTable]], #[], 0⟩⟩

/-- A session of that program, with the function above another value and wrapped. -/
def tableLeaver : Session :=
  let setup : Action Unit := do
    push 0 (.int 7)
    onMachine 0 (Vm.pushFunction ⟨some "f", .block 1 (some 1)⟩)
    let _ ← wrap 0 (-1)
  final (setup (Session.start 1 true))

/-- Called for an integer, the function answers the table, which is none. -/
theorem callBound_traceless_unreadable :
    (tableLeaver.machine (tableLeaver.wrapper 0).machine).Framed
      ∧ ∃ t, callBound leavingTable (runBlock leavingTable 9) 9 0 none (.cls (.integer .plain))
            [.int 5] tableLeaver
          = .error (.failed (.machine (.str (utf8 "expected number, got table")) none)) t
        ∧ (t.machine 0).closed = false
        ∧ (t.machine 0).slots = (tableLeaver.machine 0).slots
        ∧ (t.machine 0).frames = (tableLeaver.machine 0).frames := by
  have hframed : (tableLeaver.machine 0).Framed := by
    unfold Machine.Framed
    decide +kernel
  obtain ⟨t, ht, hopen⟩ : ∃ t, callBound leavingTable (runBlock leavingTable 9) 9 0 none
        (.cls (.integer .plain)) [.int 5] tableLeaver
      = .error (.failed (.machine (.str (utf8 "expected number, got table")) none)) t
        ∧ (t.machine 0).closed = false :=
    ⟨_, stopped_final (by decide +kernel), by decide +kernel⟩
  exact ⟨hframed, t, ht, hopen, callBound_traceless leavingTable 9 0 none
    (.cls (.integer .plain)) [.int 5] hframed (congrArg final ht) hopen⟩

end Session

end StackBridge
