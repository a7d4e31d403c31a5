import StackBridge.Proofs.Push.Member
import StackBridge.Session.Run

/-!
A push adds one value or nothing. Every shape is an attempt: the plain ones
push once at the end, and the compound ones make a table, push into it part by
part and may stop at any of them, with the table and what was meant for it
still on the stack. `pushAs` restores the top around each attempt, so by
induction on the nesting a push is all or nothing, and what it writes to are
tables that it has made.
-/

namespace StackBridge

namespace Bridge

open Session

variable {ctx : Context} {k : MachineId} {s s₀ : Session} {id : TableId}

-- ============================================================ plain shapes

theorem attempts_push (w : Value) : Attempts (KeepsTables k) Stop.Met k (push k w) :=
  fun _ hk _ => ⟨w, push_leaves hk w⟩

theorem attempts_fail (f : Failure) : Attempts (KeepsTables k) Stop.Met k (fail f : Action Unit) :=
  fun s _ _ => ⟨⟨f, rfl⟩, [], Leaves.refl s⟩

theorem attempts_pushIntegerSlot (v : HostValue) :
    Attempts (KeepsTables k) Stop.Met k (pushIntegerSlot k v) := by
  refine (idle_ofHost _).settles.bind_attempts fun n => ?_
  split
  · exact attempts_push _
  · cases Double.ofInt? n with
    | some x => exact attempts_push _
    | none => exact attempts_fail _

theorem attempts_pushBuffer (v : HostValue) :
    Attempts (KeepsTables k) Stop.Met k (pushBuffer k v) := by
  unfold pushBuffer
  split
  · exact (idle_encodeText _).settles.bind_attempts fun b => attempts_push _
  · exact (idle_ofHost _).settles.bind_attempts fun b => attempts_push _

theorem attempts_pushTextPointer (v : HostValue) :
    Attempts (KeepsTables k) Stop.Met k (pushTextPointer k v) := by
  unfold pushTextPointer
  split
  · exact attempts_push _
  · exact (idle_ofHost _).settles.bind_attempts fun b => attempts_push _

/-- The value of a wrapper, which is refused on another machine. -/
theorem attempts_ownWrapped (id : Nat) (f : Failure) :
    Attempts (KeepsTables k) Stop.Met k (do
      if ((← get).wrapper id).machine ≠ k then fail f else pushWrapped id) := by
  intro s hk hl
  rw [bind_ok (get_apply s)]
  by_cases hj : (s.wrapper id).machine = k
  · rw [if_neg fun h => h hj]
    exact pushWrapped_ends hk hj
  · rw [if_pos hj]
    exact attempts_fail f s hk hl

theorem settles_describeParams (ps : List Param) :
    Settles (KeepsTables k) Stop.Met k (forIn ps PUnit.unit fun p _ => do
      let _ ← describe ctx p.type "read"
      pure (ForInStep.yield PUnit.unit)) := by
  induction ps with
  | nil => exact (idle_pure _).settles
  | cons p ps ih =>
      rw [List.forIn_cons]
      refine Settles.bind ?_ fun step => ?_
      · exact Settles.bind (idle_describe ctx p.type "read").settles fun _ =>
          (idle_pure _).settles
      · cases step with
        | done b => exact (idle_pure b).settles
        | yield b => exact ih

theorem attempts_pushCallable (v : HostValue) (host : HostType) :
    Attempts (KeepsTables k) Stop.Met k (pushCallable ctx k v host) := by
  unfold pushCallable
  split
  · exact attempts_ownWrapped _ _
  · have hrest : ∀ (v : HostValue) (signature : Signature), Attempts (KeepsTables k) Stop.Met k (do
        for p in signature.params do
          let _ ← describe ctx p.type "read"
        let _ ← describe ctx signature.returns "push"
        onMachine k (Vm.pushFunction ⟨some v.callableName, .host v signature⟩)) := by
      intro v signature
      refine (settles_describeParams signature.params).bind_attempts fun _ => ?_
      refine (idle_describe ctx signature.returns "push").settles.bind_attempts fun _ => ?_
      intro s hk _
      obtain ⟨t, ht, hadds⟩ := pushFunction_ends hk ⟨some v.callableName, .host v signature⟩
      rw [ht]
      exact ⟨_, hadds⟩
    dsimp only
    split
    · exact hrest _ _
    · exact (idle_ofHost _).settles.bind_attempts fun signature => hrest _ _

/-- Putting a table on the stack and filling it. -/
theorem attempts_filling {a : Action Unit}
    (ha : ∀ {s₀ s id}, k < s₀.machines.size → (s₀.machine k).Live → s₀.heap.tables.size ≤ id →
      Adds k [.table id] s₀ s →
      Ends (a s) (fun _ t => Adds k [.table id] s₀ t) fun e t => e.Met ∧ ∃ ys, Adds k ys s₀ t) :
    Attempts (KeepsTables k) Stop.Met k (onMachine k Vm.pushTable >>= fun _ => a) := by
  intro s hk hl
  obtain ⟨t, ht, hadds, _⟩ := pushTable_ends hk
  rw [bind_ok ht]
  exact (ha hk hl (Nat.le_refl _) hadds).mono (fun _ _ h => ⟨_, h⟩) fun _ _ h => h

-- ========================================================= compound shapes

section

variable {pushItem : HostValue → TypeExpr → Action Unit}
  (hitem : ∀ v t, AddsOne (KeepsTables k) Stop.Met k (pushItem v t))

include hitem

/-- The items, once their table is on the stack. -/
theorem pushItems_ends (hk : k < s₀.machines.size) (hl : (s₀.machine k).Live)
    (hid : s₀.heap.tables.size ≤ id) (host : HostType) (i : Nat)
    (vs : List HostValue) (h : Adds k [.table id] s₀ s) :
    Ends (pushItems pushItem k host i vs s) (fun _ t => Adds k [.table id] s₀ t)
      fun e t => e.Met ∧ ∃ ys, Adds k ys s₀ t := by
  induction vs generalizing i s with
  | nil => exact h
  | cons v vs ih =>
      refine ((hitem v (host.elementType i)).attempts.after hk hl h).bind ?_
      rintro _ t ⟨w, ht⟩
      exact (storing_ends ht hk hid (setKey_store ht hl _)).bind fun _ u hu => ih (i + 1) hu

theorem attempts_pushSequence (v : HostValue) (host : HostType) :
    Attempts (KeepsTables k) Stop.Met k (pushSequence pushItem k v host) := by
  refine (idle_ofHost v.length).settles.bind_attempts fun length => ?_
  have hrest : Attempts (KeepsTables k) Stop.Met k (do
      onMachine k Vm.pushTable
      pushItems pushItem k host 0 (← ofHost v.items)) :=
    attempts_filling fun hk hl hid ht =>
      ((idle_ofHost v.items).settles.after hk hl ht).bind fun vs _ hu =>
        pushItems_ends hitem hk hl hid host 0 vs hu
  split
  · exact (idle_fail _).settles.bind_attempts fun _ => hrest
  · exact hrest

/-- The entries, once their table is on the stack. -/
theorem pushEntries_ends (hk : k < s₀.machines.size) (hl : (s₀.machine k).Live)
    (hid : s₀.heap.tables.size ≤ id) (keyType valueType : TypeExpr)
    (es : List (HostValue × HostValue)) (h : Adds k [.table id] s₀ s) :
    Ends (pushEntries pushItem k keyType valueType es s) (fun _ t => Adds k [.table id] s₀ t)
      fun e t => e.Met ∧ ∃ ys, Adds k ys s₀ t := by
  induction es generalizing s with
  | nil => exact h
  | cons e es ih =>
      refine ((hitem e.1 keyType).attempts.after hk hl h).bind ?_
      rintro _ t ⟨key, ht⟩
      refine ((hitem e.2 valueType).attempts.after hk hl ht).bind ?_
      rintro _ u ⟨w, hu⟩
      exact (storing_ends hu hk hid (rawSet_store hu hl)).bind fun _ x hx => ih hx

theorem attempts_pushMapping (v : HostValue) (host : HostType) :
    Attempts (KeepsTables k) Stop.Met k (pushMapping pushItem k v host) := by
  refine (idle_ofHost v.length).settles.bind_attempts fun _ => ?_
  refine attempts_filling fun hk hl hid ht => ?_
  exact ((idle_ofHost v.entries).settles.after hk hl ht).bind fun es _ hu =>
    pushEntries_ends hitem hk hl hid _ _ es hu

/-- The fields, once their table is on the stack. -/
theorem pushFields_ends (hk : k < s₀.machines.size) (hl : (s₀.machine k).Live)
    (hid : s₀.heap.tables.size ≤ id) (v : HostValue)
    (fs : List (String × TypeExpr)) (h : Adds k [.table id] s₀ s) :
    Ends (pushFields ctx pushItem k v fs s) (fun _ t => Adds k [.table id] s₀ t)
      fun e t => e.Met ∧ ∃ ys, Adds k ys s₀ t := by
  induction fs generalizing s with
  | nil => exact h
  | cons f fs ih =>
      refine ((settles_memberOf ctx v f.1).after hk hl h).bind fun x t ht => ?_
      refine ((hitem x f.2).attempts.after hk hl ht).bind ?_
      rintro _ u ⟨w, hu⟩
      exact (storing_ends hu hk hid (setKey_store hu hl _)).bind fun _ x hx => ih hx

theorem attempts_pushRecord (v : HostValue) (host : HostType) :
    Attempts (KeepsTables k) Stop.Met k (pushRecord ctx pushItem k v host) := by
  refine (idle_ofHost _).settles.bind_attempts fun fields => ?_
  exact attempts_filling fun hk hl hid ht => pushFields_ends hitem hk hl hid v _ ht

theorem attempts_pushDynamic (v : HostValue) :
    Attempts (KeepsTables k) Stop.Met k (pushDynamic pushItem k v) := by
  unfold pushDynamic
  split
  · exact attempts_ownWrapped _ _
  · exact (hitem _ .none).attempts

/-- Every shape is an attempt, if pushing a part is all or nothing. -/
theorem attempts_pushShape (ctx : Context) (v : HostValue) (host : HostType) :
    Attempts (KeepsTables k) Stop.Met k (pushShape ctx pushItem k v host) := by
  unfold pushShape
  cases host.shape with
  | dynamic => exact attempts_pushDynamic hitem v
  | absent => exact attempts_push .nil
  | boolean => exact attempts_push _
  | integer => exact attempts_pushIntegerSlot v
  | float =>
      refine (idle_ofHost v.toFloat).settles.bind_attempts fun x => ?_
      exact (idle_individualFloat x).settles.bind_attempts fun y => attempts_push _
  | textPointer => exact attempts_pushTextPointer v
  | buffer => exact attempts_pushBuffer v
  | mapping => exact attempts_pushMapping hitem v host
  | record => exact attempts_pushRecord hitem v host
  | sequence => exact attempts_pushSequence hitem v host
  | callable => exact attempts_pushCallable v host

end

-- ================================================================== pushes

/-- A push to any depth is all or nothing. -/
theorem addsOne_pushAs (ctx : Context) (fuel : Nat) (v : HostValue) (t : TypeExpr) :
    AddsOne (KeepsTables k) Stop.Met k (pushAs ctx k fuel v t) := by
  induction fuel generalizing v t with
  | zero => exact fun s _ _ => ⟨⟨_, rfl⟩, Leaves.refl s⟩
  | succ fuel ih =>
      intro s hk hl
      unfold pushAs
      refine ((idle_describe ctx _ "push") s hk hl).bind fun host u hu => ?_
      have hpush := (attempts_pushShape ih ctx v host).restoring.guarded
        ("push of " ++ host.display)
      refine (hpush u (by rw [hu.size]; exact hk) (hu.live hl)).mono ?_ ?_
      · rintro _ x ⟨w, hx⟩
        exact ⟨w, hu.trans hx⟩
      · rintro e x ⟨he, hx⟩
        exact ⟨he, hu.trans hx⟩

/-- Arguments come on top one by one. -/
theorem pushArguments_ends (hk : k < s₀.machines.size) (hl : (s₀.machine k).Live)
    (vs : List HostValue) (ts : List TypeExpr) {xs : List Value} (h : Adds k xs s₀ s) :
    Ends (pushArguments ctx k vs ts s)
      (fun _ t => ∃ ys, ys.length = vs.length ∧ Adds k (xs ++ ys) s₀ t)
      fun e t => e.Met ∧ ∃ ys, Adds k ys s₀ t := by
  induction vs generalizing ts xs s with
  | nil => exact ⟨[], rfl, by rw [List.append_nil]; exact h⟩
  | cons v vs ih =>
      refine ((addsOne_pushAs ctx pushLimit v _).attempts.after hk hl h).bind ?_
      rintro _ t ⟨w, ht⟩
      refine (ih ts.tail ht).mono ?_ fun _ _ h => h
      rintro _ u ⟨ys, hys, hu⟩
      refine ⟨w :: ys, by rw [List.length_cons, List.length_cons, hys], ?_⟩
      rw [List.append_cons]
      exact hu

/-- A push onto an open machine either answers with one more slot on top, or
fails with the stack slot for slot as it was. Either way the frames, the
registry and every table that there was are as before. This is so for every
value and every type, whether or not the stack is checked. -/
theorem pushValue_atomic (ctx : Context) {k : MachineId} {s : Session}
    (hk : k < s.machines.size) (hl : (s.machine k).Live) (v : HostValue) (t : TypeExpr) :
    (∃ w s', pushValue ctx k v t s = .ok () s' ∧ Adds k [w] s s')
      ∨ ∃ f s', pushValue ctx k v t s = .error (.failed f) s' ∧ Adds k [] s s' := by
  have h := addsOne_pushAs ctx pushLimit v t s hk hl
  unfold pushValue
  cases hr : pushAs ctx k pushLimit v t s with
  | ok _ s' =>
      rw [hr] at h
      obtain ⟨w, hw⟩ := h
      exact Or.inl ⟨w, s', rfl, hw⟩
  | error e s' =>
      rw [hr] at h
      obtain ⟨he, hs⟩ := h
      obtain ⟨f, rfl⟩ := he
      exact Or.inr ⟨f, s', rfl, hs⟩

/-- A mapping that has stored a list under its first key when its second key
turns out to be no number. -/
theorem pushValue_atomic_nan_key :
    0 < (Session.start 1 true).machines.size ∧ ((Session.start 1 true).machine 0).Live
      ∧ ((∃ w s', pushValue ⟨[], ⟨[], 1, true, #[], #[], 0⟩⟩ 0
            (.mapping .plain [(.int 1, .list [.int 2]), (.float .plain (Double.nan false), .int 3)])
            .none (Session.start 1 true) = .ok () s'
          ∧ Adds 0 [w] (Session.start 1 true) s')
        ∨ ∃ f s', pushValue ⟨[], ⟨[], 1, true, #[], #[], 0⟩⟩ 0
            (.mapping .plain [(.int 1, .list [.int 2]), (.float .plain (Double.nan false), .int 3)])
            .none (Session.start 1 true) = .error (.failed f) s'
          ∧ Adds 0 [] (Session.start 1 true) s') :=
  have hsize : 0 < (Session.start 1 true).machines.size := by decide
  have hlive : ((Session.start 1 true).machine 0).Live := ⟨rfl, 0, [], rfl, by decide⟩
  ⟨hsize, hlive, pushValue_atomic _ hsize hlive _ _⟩

end Bridge

end StackBridge
