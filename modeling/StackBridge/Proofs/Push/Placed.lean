import StackBridge.Proofs.Push.Fresh

/-!
What a push leaves of a host value, with every part in its place. `Placed` says
it by the shape that the value is pushed as: a wrapper or a bound function is
the very value that it holds on to, a composite is a new table in which what has
become of its parts has been stored one after the other, to any depth, and other
shapes hold no values. Nothing is asked of the parts or of the keys: where two
keys are the same, the later part is what the table holds.

`places_pushAs` is by induction on the nesting. While a composite is pushed its
table is on top of the stack with what it has got so far (`Filling`); the parts
make tables that are newer, and only the table itself is written to.
-/

namespace StackBridge

namespace Table

/-- Stores values one after the other, each under its key. -/
def setAll (t : Table) : List (Value × Value) → Except KeyFault Table
  | [] => .ok t
  | e :: es =>
    match t.set e.1 e.2 with
    | .error f => .error f
    | .ok t' => t'.setAll es

variable {t t' t'' : Table} {es : List (Value × Value)} {k v : Value}

theorem setAll_concat (h : t.setAll es = .ok t') (hset : t'.set k v = .ok t'') :
    t.setAll (es ++ [(k, v)]) = .ok t'' := by
  induction es generalizing t with
  | nil =>
      cases h
      simp only [List.nil_append, setAll, hset]
  | cons e es ih =>
      unfold setAll at h
      rw [List.cons_append, setAll]
      cases he : t.set e.1 e.2 with
      | error f =>
          rw [he] at h
          cases h
      | ok t₁ =>
          rw [he] at h
          exact ih h

end Table

namespace Bridge

open Session

-- ================================================================= in place

/-- The host type that a value is pushed as: its own class's if no type is
given. -/
def pushedAs (v : HostValue) (t : TypeExpr) : Option HostType :=
  (if t = .none then .cls v.hostClass else t).hostType?

/-- A value with a shape that holds no other values. -/
def Plain (v : HostValue) (host : HostType) : Prop :=
  host.shape ∉ [Shape.dynamic, .mapping, .record, .sequence]
    ∧ (host.shape = .callable → ∀ id params returns, v ≠ .bound id params returns)

/-- A value that is pushed as something of its own, not as what a wrapper or a
bound function holds on to. -/
def Made (v : HostValue) (host : HostType) : Prop :=
  host.shape ≠ .dynamic ∧ (host.shape = .callable → ∀ id params returns, v ≠ .bound id params returns)

/-- The category that a value has once it has been pushed as a host type: that
of the type, except that a text pointer to nothing is nil. -/
def slotCategory (v : HostValue) (host : HostType) : Category :=
  match host.shape, v with
  | .textPointer, .none => .nil
  | shape, _ => shape.category

/-- The parts of a sequence or a record with their types, each with the key that
it is stored under: its number from one on, or its name. -/
inductive Parted (ctx : Context) (v : HostValue) (host : HostType) :
    List (Value × HostValue × TypeExpr) → Prop where
  | sequence {items : List HostValue} (shape : host.shape = .sequence)
      (given : v.items = .ok items) :
      Parted ctx v host
        (items.zipIdx.map fun p => (.int ((p.2 : Int) + 1), p.1, host.elementType p.2))
  | record {fields : List (FieldSpec × TypeExpr)} {members : List HostValue}
      (shape : host.shape = .record)
      (hinted : hintedFields ctx.classes host.recordName = .ok fields)
      (given : List.Forall₂
        (fun f x => ∃ s t, memberOf ctx v f.1.name s = .ok x t) fields members) :
      Parted ctx v host
        ((fields.zip members).map fun p => (.str (utf8 p.1.1.name), p.2, p.1.2))

theorem slotCategory_eq {v : HostValue} {host : HostType}
    (h : ¬ (host.shape = .textPointer ∧ v = .none)) : slotCategory v host = host.category := by
  unfold slotCategory
  split
  · rename_i hshape
    exact absurd ⟨hshape, rfl⟩ h
  · rfl

theorem slotCategory_shape {v : HostValue} {host : HostType} {shape : Shape}
    (h : host.shape = shape) (hpointer : shape ≠ .textPointer) :
    slotCategory v host = shape.category := by
  subst h
  exact slotCategory_eq fun hnone => hpointer hnone.1

theorem Parted.category {ctx : Context} {v : HostValue} {host : HostType}
    {ps : List (Value × HostValue × TypeExpr)} (h : Parted ctx v host ps) :
    slotCategory v host = .table := by
  cases h with
  | sequence shape given => exact slotCategory_shape shape (by decide)
  | record shape hinted given => exact slotCategory_shape shape (by decide)

/-- What pushing a value as a type has left, where wrappers hold what `held`
says: a machine value with the tables that it consists of, which are no older
than `lo`. -/
inductive Placed (ctx : Context) (held : Nat → Option Value) (h : Heap) :
    Nat → HostValue → TypeExpr → Value → Prop where
  | plain {lo : Nat} {v : HostValue} {t : TypeExpr} {host : HostType} {w : Value}
      (type : pushedAs v t = some host) (plain : Plain v host) : Placed ctx held h lo v t w
  | wrapper {lo id : Nat} {guessed : Bool} {t : TypeExpr} {host : HostType} {w : Value}
      (type : pushedAs (.wrapper id guessed) t = some host) (shape : host.shape = .dynamic)
      (value : held id = some w) : Placed ctx held h lo (.wrapper id guessed) t w
  | bound {lo id : Nat} {params : Option (List TypeExpr)} {returns t : TypeExpr}
      {host : HostType} {w : Value} (type : pushedAs (.bound id params returns) t = some host)
      (shape : host.shape = .callable) (value : held id = some w) :
      Placed ctx held h lo (.bound id params returns) t w
  | dynamic {lo : Nat} {v : HostValue} {t : TypeExpr} {host : HostType} {w : Value}
      (type : pushedAs v t = some host) (shape : host.shape = .dynamic)
      (other : ∀ id guessed, v ≠ .wrapper id guessed) (own : Placed ctx held h lo v .none w) :
      Placed ctx held h lo v t w
  | parts {lo id : Nat} {v : HostValue} {t : TypeExpr} {host : HostType}
      {ps : List (Value × HostValue × TypeExpr)} {ws : List Value}
      (type : pushedAs v t = some host) (parted : Parted ctx v host ps) (low : lo ≤ id)
      (high : id < h.tables.size) (length : ps.length = ws.length)
      (each : ∀ (i : Nat) p w, ps[i]? = some p → ws[i]? = some w →
        Placed ctx held h (id + 1) p.2.1 p.2.2 w)
      (table : Table.empty.setAll ((ps.map (·.1)).zip ws) = .ok (h.table id)) :
      Placed ctx held h lo v t (.table id)
  | mapping {lo id : Nat} {v : HostValue} {t : TypeExpr} {host : HostType}
      {entries : List (HostValue × HostValue)} {keys ws : List Value}
      (type : pushedAs v t = some host) (shape : host.shape = .mapping)
      (given : v.entries = .ok entries) (low : lo ≤ id) (high : id < h.tables.size)
      (keyLength : entries.length = keys.length) (length : entries.length = ws.length)
      (eachKey : ∀ (i : Nat) e k, entries[i]? = some e → keys[i]? = some k →
        Placed ctx held h (id + 1) e.1 host.entryTypes.1 k)
      (each : ∀ (i : Nat) e w, entries[i]? = some e → ws[i]? = some w →
        Placed ctx held h (id + 1) e.2 host.entryTypes.2 w)
      (table : Table.empty.setAll (keys.zip ws) = .ok (h.table id)) :
      Placed ctx held h lo v t (.table id)

variable {ctx : Context} {k : MachineId} {s s₀ t u : Session} {held : Nat → Option Value}
  {h h' : Heap} {lo lo' : Nat} {v : HostValue} {type : TypeExpr} {host : HostType} {w : Value}

/-- What has been placed stays in place as long as its tables stay the same. -/
theorem Placed.mono (hw : Placed ctx held h lo v type w) (hk : Heap.KeepsFrom lo h h')
    (hlo : lo' ≤ lo) : Placed ctx held h' lo' v type w := by
  induction hw generalizing lo' with
  | plain type plain => exact .plain type plain
  | wrapper type shape value => exact .wrapper type shape value
  | bound type shape value => exact .bound type shape value
  | dynamic type shape other _ ih => exact .dynamic type shape other (ih hk hlo)
  | parts type parted low high length _ table ih =>
      have hlater := hk.later (Nat.le_succ_of_le low)
      refine .parts type parted (Nat.le_trans hlo low) (Nat.lt_of_lt_of_le high hk.size) length
        (fun i p w hp hw => ih i p w hp hw hlater (Nat.le_refl _)) ?_
      rw [hk.table _ low high]
      exact table
  | mapping type shape entries low high keyLength length _ _ table ihKey ih =>
      have hlater := hk.later (Nat.le_succ_of_le low)
      refine .mapping type shape entries (Nat.le_trans hlo low) (Nat.lt_of_lt_of_le high hk.size)
        keyLength length
        (fun i e k he hk' => ihKey i e k he hk' hlater (Nat.le_refl _))
        (fun i e w he hw => ih i e w he hw hlater (Nat.le_refl _)) ?_
      rw [hk.table _ low high]
      exact table

/-- Values that have been placed, one for each part. -/
structure PlacedEach (ctx : Context) (held : Nat → Option Value) (h : Heap) (lo : Nat)
    (xs : List (HostValue × TypeExpr)) (ws : List Value) : Prop where
  length : xs.length = ws.length
  each : ∀ (i : Nat) x w, xs[i]? = some x → ws[i]? = some w → Placed ctx held h lo x.1 x.2 w

namespace PlacedEach

variable {xs : List (HostValue × TypeExpr)} {ws : List Value}

theorem nil : PlacedEach ctx held h lo [] [] := ⟨rfl, fun _ _ _ h => nomatch h⟩

theorem mono (hw : PlacedEach ctx held h lo xs ws) (hk : Heap.KeepsFrom lo h h') :
    PlacedEach ctx held h' lo xs ws :=
  ⟨hw.length, fun i x w hx hv => (hw.each i x w hx hv).mono hk (Nat.le_refl _)⟩

theorem concat (hw : PlacedEach ctx held h lo xs ws) (hlast : Placed ctx held h lo v type w) :
    PlacedEach ctx held h lo (xs ++ [(v, type)]) (ws ++ [w]) where
  length := by simp [hw.length]
  each i x y hx hy := by
    rw [List.getElem?_append] at hx hy
    rw [hw.length] at hx
    split at hx
    · rename_i hi
      rw [if_pos hi] at hy
      exact hw.each i x y hx hy
    · rename_i hi
      rw [if_neg hi] at hy
      cases hn : i - ws.length with
      | zero =>
          rw [hn] at hx hy
          cases hx
          cases hy
          exact hlast
      | succ n =>
          rw [hn] at hx
          cases hx

end PlacedEach

-- ================================================================ one part

/-- What the wrappers on a machine hold, and that its registry is there. -/
structure Holding (k : MachineId) (held : Nat → Option Value) (s : Session) : Prop where
  registry : (s.machine k).registry < s.heap.tables.size
  held : ∀ id, (s.wrapper id).machine = k → held id = s.wrapped? id

/-- New tables and other slots make no difference to what wrappers hold. -/
theorem wrapped?_fresh (hf : Fresh s t) {id : Nat}
    (hopen : (t.machine (s.wrapper id).machine).closed = false)
    (hregistry : (s.machine (s.wrapper id).machine).registry < s.heap.tables.size) :
    t.wrapped? id = s.wrapped? id := by
  unfold Session.wrapped?
  rw [hf.wrapper id]
  dsimp only
  rw [(hf.remembers hopen).registry, hf.table _ hregistry]

theorem Holding.fresh (hs : Holding k held s) (hf : Fresh s t)
    (hopen : (t.machine k).closed = false) : Holding k held t where
  registry := by
    rw [(hf.remembers hopen).registry]
    exact Nat.lt_of_lt_of_le hs.registry hf.tables
  held id hid := by
    rw [hf.wrapper id] at hid
    rw [wrapped?_fresh hf (by rw [hid]; exact hopen) (by rw [hid]; exact hs.registry)]
    exact hs.held id hid

/-- One value has come on top of a machine. -/
def Lifted (k : MachineId) (w : Value) (s t : Session) : Prop :=
  k < t.machines.size → (t.machine k).slots = (s.machine k).slots ++ [w]

/-- Between two states a value has come on top, of the category of its type and
placed as a host value, as far as the machine is open and its wrappers hold what
they are said to. -/
structure Lays (ctx : Context) (k : MachineId) (v : HostValue) (type : TypeExpr) (s t : Session)
    (w : Value) : Prop where
  lifted : Lifted k w s t
  category : ∀ host, pushedAs v type = some host → Made v host →
    w.category? = some (slotCategory v host)
  placed : ∀ held, (t.machine k).closed = false → Holding k held s →
    Placed ctx held t.heap s.heap.tables.size v type w

/-- An action that changes no table that there was, and that lays a host value
on top if it answers. -/
structure Places (ctx : Context) (k : MachineId) (v : HostValue) (type : TypeExpr)
    (a : Action Unit) : Prop where
  fresh : Keeps Fresh a
  lays : ∀ {s t}, a s = .ok () t → ∃ w, Lays ctx k v type s t w

theorem Places.ends {a : Action Unit} (ha : Places ctx k v type a) (s : Session) :
    Ends (a s) (fun _ t => Fresh s t ∧ ∃ w, Lays ctx k v type s t w) fun _ t => Fresh s t := by
  have hfresh := ha.fresh s
  cases hr : a s with
  | ok x t =>
      rw [hr] at hfresh
      exact ⟨hfresh, ha.lays hr⟩
  | error e t =>
      rw [hr] at hfresh
      exact hfresh

theorem Places.of_ends {a : Action Unit}
    (h : ∀ s, Ends (a s) (fun _ t => Fresh s t ∧ ∃ w, Lays ctx k v type s t w)
      fun _ t => Fresh s t) : Places ctx k v type a where
  fresh s := by
    have hs := h s
    cases hr : a s with
    | ok x t => rw [hr] at hs; exact hs.1
    | error e t => rw [hr] at hs; exact hs
  lays {s t} ha := by
    have hs := h s
    rw [ha] at hs
    exact hs.2

/-- What comes after an action that leaves the stack as it was, if it answers. -/
theorem Places.after {α : Type} {a : Action α} {f : α → Action Unit} (ha : Keeps Fresh a)
    (hlevel : Levels k a) (hf : ∀ x, (∃ s t, a s = .ok x t) → Places ctx k v type (f x)) :
    Places ctx k v type (a >>= f) := by
  refine .of_ends fun s => ?_
  have hst := ha s
  rw [bind_apply]
  cases hr : a s with
  | error e t =>
      rw [hr] at hst
      exact hst
  | ok x t =>
      rw [hr] at hst
      refine ((hf x ⟨s, t, hr⟩).ends t).mono ?_ fun _ u htu => hst.trans htu
      rintro _ u ⟨htu, w, hw⟩
      refine ⟨hst.trans htu, w, fun hk => ?_, hw.category, fun held hopen hheld => ?_⟩
      · rw [hw.lifted hk, hlevel s x t hr]
      · have hheld' := hheld.fresh hst (htu.opened hopen)
        exact (hw.placed held hopen hheld').mono (.refl _ _) hst.tables

/-- A value with a plain shape. -/
theorem places_plain (htype : pushedAs v type = some host) (hplain : Plain v host)
    {a : Action Unit} (hfresh : Keeps Fresh a)
    (hlifts : ∀ {s t}, a s = .ok () t →
      ∃ w, w.category? = some (slotCategory v host) ∧ Lifted k w s t) : Places ctx k v type a where
  fresh := hfresh
  lays h := by
    obtain ⟨w, hcategory, hw⟩ := hlifts h
    refine ⟨w, hw, fun host' htype' _ => ?_, fun _ _ _ => .plain htype hplain⟩
    cases htype.symm.trans htype'
    exact hcategory

theorem lifted_push {s t : Session} (h : push k w s = .ok () t) : Lifted k w s t := by
  rw [push_eq] at h
  cases h
  intro hk
  rw [withSlots_size] at hk
  rw [withSlots_machine hk]

theorem places_push (hnative : w.Native) (htype : pushedAs v type = some host)
    (hplain : Plain v host) (hcategory : w.category? = some (slotCategory v host)) :
    Places ctx k v type (push k w) :=
  places_plain htype hplain (Moves.steady k (Vm.steady_push hnative)) fun h =>
    ⟨w, hcategory, lifted_push h⟩

theorem places_fail (f : Failure) : Places ctx k v type (fail f : Action Unit) where
  fresh := Keeps.throw _
  lays h := nomatch h

/-- The value that a wrapper or a bound function holds, on its own machine. -/
theorem places_wrapped {id : Nat} (f : Failure)
    (hmade : ∀ host, pushedAs v type = some host → ¬ Made v host)
    (hplaced : ∀ {held : Nat → Option Value} {h : Heap} {lo : Nat} {w : Value},
      held id = some w → Placed ctx held h lo v type w) :
    Places ctx k v type (do
      if ((← get).wrapper id).machine ≠ k then fail f else pushWrapped id) := by
  refine .of_ends fun s => ?_
  rw [bind_ok (get_apply s)]
  by_cases hj : (s.wrapper id).machine = k
  · rw [if_neg fun h => h hj]
    have hfresh : Fresh s (final (pushWrapped id s)) :=
      (holds_pushWrapped id).keeps s
    cases hr : pushWrapped id s with
    | error e t =>
        rw [hr] at hfresh
        exact hfresh
    | ok x t =>
        rw [hr] at hfresh
        obtain ⟨w, hw, rfl⟩ := pushWrapped_answered hr
        rw [hj] at hfresh ⊢
        refine ⟨hfresh, w, fun hk => ?_, fun host htype h => absurd h (hmade host htype),
          fun held _ hheld => hplaced ?_⟩
        · rw [withSlots_size] at hk
          rw [withSlots_machine hk]
        · rw [hheld.held id hj]
          exact hw
  · rw [if_pos hj]
    exact Fresh.refl s

-- ================================================================= filling

/-- On top of `s₀` there is a new table, with what has been stored so far. -/
structure Filled (k : MachineId) (s₀ s : Session) (es : List (Value × Value)) : Prop where
  fresh : Fresh s₀ s
  lifted : Lifted k (.table s₀.heap.tables.size) s₀ s
  made : s₀.heap.tables.size < s.heap.tables.size
  stored : Table.empty.setAll es = .ok (s.heap.table s₀.heap.tables.size)

/-- Values have been placed, in tables newer than the one on top of `s₀`. -/
def Placing (ctx : Context) (k : MachineId) (s₀ s : Session) (xs : List (HostValue × TypeExpr))
    (ws : List Value) : Prop :=
  ∀ held, (s.machine k).closed = false → Holding k held s₀ →
    PlacedEach ctx held s.heap (s₀.heap.tables.size + 1) xs ws

section

variable {es : List (Value × Value)} {key : Value} {xs : List (HostValue × TypeExpr)}
  {ws : List Value}

theorem pushTable_filled (k : MachineId) (s : Session) :
    ∃ t, onMachine k Vm.pushTable s = .ok () t ∧ Filled k s t [] := by
  have hfresh : Fresh s (final (onMachine k Vm.pushTable s)) := Moves.pushTable k s
  refine ⟨_, onMachine_ok (Vm.pushTable_eq (s.vm k)), hfresh, fun hk => ?_, ?_, ?_⟩
  · rw [withVm_size] at hk
    rw [withVm_machine hk]
    rfl
  · show s.heap.tables.size < (s.heap.tables.push .empty).size
    rw [Array.size_push]
    exact Nat.lt_succ_self _
  · simp [Table.setAll, Session.withVm, Session.vm, Heap.table, Array.getD_eq_getD_getElem?]

/-- What has been placed stays in place while other parts are pushed. -/
theorem Placing.fresh (hp : Placing ctx k s₀ s xs ws) (hst : Fresh s t) :
    Placing ctx k s₀ t xs ws := by
  intro held hopen hheld
  exact (hp held (hst.opened hopen) hheld).mono (hst.keepsFrom _)

/-- And while parts are stored in the table on top. -/
theorem Placing.kept (hp : Placing ctx k s₀ s xs ws)
    (hclosed : (t.machine k).closed = (s.machine k).closed)
    (hk : Heap.KeepsFrom (s₀.heap.tables.size + 1) s.heap t.heap) : Placing ctx k s₀ t xs ws :=
  fun held hopen hheld => (hp held (hclosed.symm.trans hopen) hheld).mono hk

/-- One more part. -/
theorem Placing.concat (hp : Placing ctx k s₀ s xs ws) (hs : Fresh s₀ s)
    (hmade : s₀.heap.tables.size < s.heap.tables.size) (hst : Fresh s t)
    (hw : Lays ctx k v type s t w) :
    Placing ctx k s₀ t (xs ++ [(v, type)]) (ws ++ [w]) := by
  intro held hopen hheld
  refine (hp.fresh hst held hopen hheld).concat ?_
  have hheld' := hheld.fresh hs (hst.opened hopen)
  exact (hw.placed held hopen hheld').mono (.refl _ _) hmade

/-- A value that has been stored in the table on top. -/
theorem Filled.store (hf : Filled k s₀ s es) (hst : Fresh s t) {vm : Vm}
    (hstored : Vm.Stored s₀.heap.tables.size key w
      ((s₀.machine k).slots ++ [.table s₀.heap.tables.size]) (t.vm k) vm) :
    Filled k s₀ (t.withVm k vm) (es ++ [(key, w)])
      ∧ ((t.withVm k vm).machine k).closed = (t.machine k).closed
      ∧ Heap.KeepsFrom (s₀.heap.tables.size + 1) t.heap vm.heap := by
  obtain ⟨table, hset, rfl⟩ := hstored
  have hmade : s₀.heap.tables.size < t.heap.tables.size := Nat.lt_of_lt_of_le hf.made hst.tables
  have hsame : t.heap.table s₀.heap.tables.size = s.heap.table s₀.heap.tables.size :=
    hst.table _ hf.made
  refine ⟨⟨(hf.fresh.trans hst).store (Nat.le_refl _) table _, fun hk => ?_, ?_, ?_⟩, ?_, ?_⟩
  · rw [withVm_size] at hk
    rw [withVm_machine hk]
    rfl
  · rw [withVm_heap, Heap.setTable_size]
    exact hmade
  · rw [withVm_heap]
    have htable := Heap.table_setTable hmade table
    refine Table.setAll_concat hf.stored ?_
    rw [← hsame]
    exact hset.trans (congrArg Except.ok htable.symm)
  · by_cases hk : k < t.machines.size
    · rw [withVm_machine hk]
      rfl
    · rw [withVm_machine_none hk]
  · exact .setTable (Nat.lt_succ_self _) _

/-- Nothing on the stack has come of storing. -/
theorem fresh_withSlots (hf : Filled k s₀ s es) (hst : Fresh s t) {vm : Vm}
    (hvm : ∃ l, vm = (t.vm k).withSlots l) : Fresh s₀ (t.withVm k vm) := by
  obtain ⟨l, rfl⟩ := hvm
  exact (hf.fresh.trans hst).withSlots l

end

/-- The parts of a composite that have been pushed and stored so far. -/
structure PartsFilled (ctx : Context) (k : MachineId) (s₀ s : Session)
    (ps : List (Value × HostValue × TypeExpr)) (ws : List Value) : Prop where
  filled : Filled k s₀ s ((ps.map (·.1)).zip ws)
  length : ps.length = ws.length
  placing : Placing ctx k s₀ s (ps.map (·.2)) ws

section

variable {ps : List (Value × HostValue × TypeExpr)} {ws : List Value}

theorem PartsFilled.nil (hf : Filled k s₀ s []) : PartsFilled ctx k s₀ s [] [] :=
  ⟨hf, rfl, fun _ _ _ => .nil⟩

/-- Nothing is lost between two parts. -/
theorem PartsFilled.fresh (hf : PartsFilled ctx k s₀ s ps ws) (hst : Fresh s t)
    (hslots : (t.machine k).slots = (s.machine k).slots) : PartsFilled ctx k s₀ t ps ws where
  filled := by
    refine ⟨hf.filled.fresh.trans hst, fun hk => ?_,
      Nat.lt_of_lt_of_le hf.filled.made hst.tables, ?_⟩
    · rw [hslots, hf.filled.lifted (by rw [← hst.size]; exact hk)]
    · rw [hst.table _ hf.filled.made]
      exact hf.filled.stored
  length := hf.length
  placing := hf.placing.fresh hst

/-- A part is pushed, and stored under its key. -/
theorem PartsFilled.part (hf : PartsFilled ctx k s₀ s ps ws) {a rest : Action Unit}
    (ha : Places ctx k v type a) (key : Value) {ok : Session → Prop}
    (hrest : ∀ w u, PartsFilled ctx k s₀ u (ps ++ [(key, v, type)]) (ws ++ [w]) →
      Ends (rest u) (fun _ x => ok x) fun _ x => Fresh s₀ x) :
    Ends ((do a; onMachine k (Vm.setKey (-2) key); rest) s) (fun _ x => ok x)
      fun _ x => Fresh s₀ x := by
  refine Ends.bind ((ha.ends s).mono (fun _ _ ht => ht)
    fun _ _ ht => hf.filled.fresh.trans ht) ?_
  rintro _ t ⟨hst, w, hw⟩
  have hs : (t.vm k).machine.slots ≠ [] → (t.vm k).machine.slots
      = (s₀.machine k).slots ++ [.table s₀.heap.tables.size, w] := by
    intro hne
    have hk : k < t.machines.size := lt_size_of_slots (List.length_pos_iff.mpr hne)
    have hk' : k < s.machines.size := by rw [← hst.size]; exact hk
    show (t.machine k).slots = _
    rw [hw.lifted hk, hf.filled.lifted hk', List.append_assoc]
    rfl
  have hset : Ends (onMachine k (Vm.setKey (-2) key) t)
      (fun _ u => PartsFilled ctx k s₀ u (ps ++ [(key, v, type)]) (ws ++ [w]))
      fun _ u => Fresh s₀ u := by
    refine onMachine_ends ((Vm.setKey_ends hs).mono (fun _ vm hvm => ?_)
      fun _ vm hvm => fresh_withSlots hf.filled hst hvm)
    obtain ⟨hfilled, hclosed, hkeep⟩ := hf.filled.store hst hvm
    refine ⟨?_, by simp [hf.length], ?_⟩
    · rw [List.map_append, List.zip_append (by rw [List.length_map]; exact hf.length)]
      exact hfilled
    · rw [List.map_append]
      exact (hf.placing.concat hf.filled.fresh hf.filled.made hst hw).kept hclosed hkeep
  exact hset.bind fun _ u hu => hrest w u hu

/-- A table in which all parts have been stored. -/
theorem PartsFilled.lays (hf : PartsFilled ctx k s₀ s ps ws)
    (htype : pushedAs v type = some host) (hparted : Parted ctx v host ps) :
    Fresh s₀ s ∧ ∃ w, Lays ctx k v type s₀ s w := by
  refine ⟨hf.filled.fresh, _, hf.filled.lifted, fun host' htype' _ => ?_,
    fun held hopen hheld => ?_⟩
  · cases htype.symm.trans htype'
    exact congrArg some hparted.category.symm
  refine .parts htype hparted (Nat.le_refl _) hf.filled.made hf.length (fun i p w hp hw => ?_)
    hf.filled.stored
  have hp' : (ps.map (·.2))[i]? = some p.2 := by rw [List.getElem?_map, hp]; rfl
  exact (hf.placing held hopen hheld).each i p.2 w hp' hw

end

section

variable {pushItem : HostValue → TypeExpr → Action Unit}
  (hitem : ∀ v t, Places ctx k v t (pushItem v t))

include hitem

theorem pushItems_filled (host : HostType) (i : Nat) (vs : List HostValue)
    {ps : List (Value × HostValue × TypeExpr)} {ws : List Value}
    (hf : PartsFilled ctx k s₀ s ps ws) :
    Ends (pushItems pushItem k host i vs s)
      (fun _ u => ∃ ws', PartsFilled ctx k s₀ u
        (ps ++ (vs.zipIdx i).map fun p => (.int ((p.2 : Int) + 1), p.1, host.elementType p.2)) ws')
      fun _ u => Fresh s₀ u := by
  induction vs generalizing i s ps ws with
  | nil =>
      refine ⟨ws, ?_⟩
      simpa using hf
  | cons v vs ih =>
      refine hf.part (hitem v (host.elementType i)) (.int ((i : Int) + 1)) fun w u hu => ?_
      have hrest := ih (i + 1) hu
      rw [List.append_assoc] at hrest
      exact hrest

theorem places_pushSequence (htype : pushedAs v type = some host)
    (hshape : host.shape = .sequence) : Places ctx k v type (pushSequence pushItem k v host) := by
  refine .after (holds_ofHost _).keeps (levels_ofHost _) fun length _ => ?_
  have hrest : Places ctx k v type (do
      onMachine k Vm.pushTable
      pushItems pushItem k host 0 (← ofHost v.items)) := by
    refine .of_ends fun s => ?_
    obtain ⟨t, ht, hf⟩ := pushTable_filled k s
    rw [bind_ok ht]
    cases hitems : v.items with
    | error f => exact hf.fresh
    | ok items =>
        refine (pushItems_filled hitem host 0 items (.nil hf)).mono ?_ fun _ _ hu => hu
        rintro _ u ⟨ws, hu⟩
        exact hu.lays htype (.sequence hshape hitems)
  split
  · exact .after (Keeps.throw _) (levels_fail _) fun _ _ => hrest
  · exact hrest

/-- What the names of some fields lead to, in whichever session. -/
abbrev MembersOf (ctx : Context) (v : HostValue) (fields : List (FieldSpec × TypeExpr))
    (members : List HostValue) : Prop :=
  List.Forall₂ (fun f x => ∃ s t, memberOf ctx v f.1.name s = .ok x t) fields members

theorem pushFields_filled (v : HostValue) (fs : List (FieldSpec × TypeExpr))
    {gs : List (FieldSpec × TypeExpr)} {members : List HostValue} {ws : List Value}
    (hgs : MembersOf ctx v gs members)
    (hf : PartsFilled ctx k s₀ s
      ((gs.zip members).map fun p => (.str (utf8 p.1.1.name), p.2, p.1.2)) ws) :
    Ends (pushFields ctx pushItem k v (fs.map fun p => (p.1.name, p.2)) s)
      (fun _ u => ∃ members' ws', MembersOf ctx v (gs ++ fs) members'
        ∧ PartsFilled ctx k s₀ u
          (((gs ++ fs).zip members').map fun p => (.str (utf8 p.1.1.name), p.2, p.1.2)) ws')
      fun _ u => Fresh s₀ u := by
  induction fs generalizing s gs members ws with
  | nil =>
      rw [List.append_nil]
      exact ⟨members, ws, hgs, hf⟩
  | cons f fs ih =>
      show Ends ((memberOf ctx v f.1.name >>= fun x => do
        pushItem x f.2
        onMachine k (Vm.setKey (-2) (.str (utf8 f.1.name)))
        pushFields ctx pushItem k v (fs.map fun p => (p.1.name, p.2))) s) _ _
      have hmember : Fresh s (final (memberOf ctx v f.1.name s)) :=
        (holds_memberOf v f.1.name).keeps s
      have hlevel : Levels k (memberOf ctx v f.1.name) := levels_memberOf v f.1.name
      rw [bind_apply]
      cases hr : memberOf ctx v f.1.name s with
      | error e t =>
          rw [hr] at hmember
          exact hf.filled.fresh.trans hmember
      | ok x t =>
          rw [hr] at hmember
          refine (hf.fresh hmember (hlevel s x t hr)).part (hitem x f.2) _ fun w u hu => ?_
          have hgs' : MembersOf ctx v (gs ++ [f]) (members ++ [x]) :=
            List.rel_append hgs (.cons ⟨s, t, hr⟩ .nil)
          have hu' : PartsFilled ctx k s₀ u
              (((gs ++ [f]).zip (members ++ [x])).map fun p => (.str (utf8 p.1.1.name), p.2, p.1.2))
              (ws ++ [w]) := by
            rw [List.zip_append hgs.length_eq, List.map_append]
            exact hu
          have hrest := ih hgs' hu'
          rw [List.append_assoc] at hrest
          exact hrest

theorem places_pushRecord (htype : pushedAs v type = some host) (hshape : host.shape = .record) :
    Places ctx k v type (pushRecord ctx pushItem k v host) := by
  refine .of_ends fun s => ?_
  unfold pushRecord
  cases hfields : hintedFields ctx.classes host.recordName with
  | error f => exact Fresh.refl s
  | ok fields =>
      show Ends ((do
        onMachine k Vm.pushTable
        pushFields ctx pushItem k v
          (fields.map fun p : FieldSpec × TypeExpr => (p.1.name, p.2))) s) _ _
      obtain ⟨t, ht, hf⟩ := pushTable_filled k s
      rw [bind_ok ht]
      have hnone : MembersOf ctx v [] [] := .nil
      refine (pushFields_filled hitem v fields hnone (.nil hf)).mono ?_ fun _ _ hu => hu
      rintro _ u ⟨members, ws, hmembers, hu⟩
      exact hu.lays htype (.record hshape hfields hmembers)

/-- The entries of a mapping that follow the ones that are there. -/
theorem pushEntries_filled (keyType valueType : TypeExpr) (es : List (HostValue × HostValue))
    {ds : List (HostValue × HostValue)} {keys ws : List Value} (hkeys : ds.length = keys.length)
    (hws : ds.length = ws.length) (hf : Filled k s₀ s (keys.zip ws))
    (hpk : Placing ctx k s₀ s (ds.map fun e => (e.1, keyType)) keys)
    (hpw : Placing ctx k s₀ s (ds.map fun e => (e.2, valueType)) ws) :
    Ends (pushEntries pushItem k keyType valueType es s)
      (fun _ u => ∃ keys' ws', (ds ++ es).length = keys'.length ∧ (ds ++ es).length = ws'.length
        ∧ Filled k s₀ u (keys'.zip ws')
        ∧ Placing ctx k s₀ u ((ds ++ es).map fun e => (e.1, keyType)) keys'
        ∧ Placing ctx k s₀ u ((ds ++ es).map fun e => (e.2, valueType)) ws')
      fun _ u => Fresh s₀ u := by
  induction es generalizing s ds keys ws with
  | nil =>
      rw [List.append_nil]
      exact ⟨keys, ws, hkeys, hws, hf, hpk, hpw⟩
  | cons e es ih =>
      refine Ends.bind (((hitem e.1 keyType).ends s).mono (fun _ _ ht => ht)
        fun _ _ ht => hf.fresh.trans ht) ?_
      rintro _ t ⟨hst, key, hkey⟩
      refine Ends.bind (((hitem e.2 valueType).ends t).mono (fun _ _ hu => hu)
        fun _ _ hu => (hf.fresh.trans hst).trans hu) ?_
      rintro _ u ⟨htu, w, hw⟩
      have hsu := hst.trans htu
      have hs : (u.vm k).machine.slots ≠ [] → (u.vm k).machine.slots
          = (s₀.machine k).slots ++ [.table s₀.heap.tables.size, key, w] := by
        intro hne
        have hk : k < u.machines.size := lt_size_of_slots (List.length_pos_iff.mpr hne)
        have hk' : k < t.machines.size := by rw [← htu.size]; exact hk
        have hk'' : k < s.machines.size := by rw [← hst.size]; exact hk'
        show (u.machine k).slots = _
        rw [hw.lifted hk, hkey.lifted hk', hf.lifted hk'', List.append_assoc, List.append_assoc]
        rfl
      have hset : Ends (onMachine k (Vm.rawSet (-3)) u)
          (fun _ x => Filled k s₀ x ((keys ++ [key]).zip (ws ++ [w]))
            ∧ Placing ctx k s₀ x ((ds ++ [e]).map fun e => (e.1, keyType)) (keys ++ [key])
            ∧ Placing ctx k s₀ x ((ds ++ [e]).map fun e => (e.2, valueType)) (ws ++ [w]))
          fun _ x => Fresh s₀ x := by
        refine onMachine_ends ((Vm.rawSet_ends hs).mono (fun _ vm hvm => ?_)
          fun _ vm hvm => fresh_withSlots hf hsu hvm)
        obtain ⟨hfilled, hclosed, hkeep⟩ := hf.store hsu hvm
        refine ⟨?_, ?_, ?_⟩
        · rw [List.zip_append (hkeys.symm.trans hws)]
          exact hfilled
        · rw [List.map_append]
          exact ((hpk.concat hf.fresh hf.made hst hkey).fresh htu).kept hclosed hkeep
        · rw [List.map_append]
          exact ((hpw.fresh hst).concat (hf.fresh.trans hst)
            (Nat.lt_of_lt_of_le hf.made hst.tables) htu hw).kept hclosed hkeep
      refine hset.bind fun _ x hx => ?_
      have hkeys' : (ds ++ [e]).length = (keys ++ [key]).length := by simp [hkeys]
      have hws' : (ds ++ [e]).length = (ws ++ [w]).length := by simp [hws]
      have hrest := ih hkeys' hws' hx.1 hx.2.1 hx.2.2
      rw [List.append_assoc] at hrest
      exact hrest

theorem places_pushMapping (htype : pushedAs v type = some host)
    (hshape : host.shape = .mapping) : Places ctx k v type (pushMapping pushItem k v host) := by
  refine .after (holds_ofHost _).keeps (levels_ofHost _) fun _ _ => .of_ends fun s => ?_
  obtain ⟨t, ht, hf⟩ := pushTable_filled k s
  rw [bind_ok ht]
  cases hentries : v.entries with
  | error f => exact hf.fresh
  | ok es =>
      have hnone : ([] : List (HostValue × HostValue)).length = ([] : List Value).length := rfl
      refine (pushEntries_filled hitem host.entryTypes.1 host.entryTypes.2 es hnone hnone hf
        (fun _ _ _ => .nil) fun _ _ _ => .nil).mono ?_ fun _ _ hu => hu
      rintro _ u ⟨keys, ws, hkeys, hws, hu, hpk, hpw⟩
      refine ⟨hu.fresh, _, hu.lifted, fun host' htype' _ => ?_, fun held hopen hheld => ?_⟩
      · cases htype.symm.trans htype'
        exact congrArg some (slotCategory_shape hshape (by decide)).symm
      refine .mapping htype hshape hentries (Nat.le_refl _) hu.made hkeys hws
        (fun i e key he hkey => ?_) (fun i e w he hw => ?_) hu.stored
      · exact (hpk held hopen hheld).each i (e.1, host.entryTypes.1) key
          (by rw [List.getElem?_map, List.nil_append, he]; rfl) hkey
      · exact (hpw held hopen hheld).each i (e.2, host.entryTypes.2) w
          (by rw [List.getElem?_map, List.nil_append, he]; rfl) hw

-- ================================================================== shapes

theorem places_pushDynamic (htype : pushedAs v type = some host)
    (hshape : host.shape = .dynamic) : Places ctx k v type (pushDynamic pushItem k v) := by
  unfold pushDynamic
  split
  · refine places_wrapped _ (fun host' htype' hmade => ?_) fun hw => .wrapper htype hshape hw
    cases htype.symm.trans htype'
    exact hmade.1 hshape
  · rename_i hother
    refine ⟨(hitem v .none).fresh, fun h => ?_⟩
    obtain ⟨w, hw⟩ := (hitem v .none).lays h
    refine ⟨w, hw.lifted, fun host' htype' hmade => ?_, fun held hopen hheld =>
      .dynamic htype hshape hother (hw.placed held hopen hheld)⟩
    cases htype.symm.trans htype'
    exact absurd hshape hmade.1

end

theorem levels_describeParams (ps : List Param) :
    Levels k (forIn ps PUnit.unit fun p _ => do
      let _ ← describe ctx p.type "read"
      pure (ForInStep.yield PUnit.unit)) := by
  induction ps with
  | nil => exact levels_pure _
  | cons p ps ih =>
      rw [List.forIn_cons]
      refine ((levels_describe _ _).bind fun _ => levels_pure _).bind fun step => ?_
      cases step with
      | done b => exact levels_pure b
      | yield b => exact ih

theorem places_pushCallable (htype : pushedAs v type = some host)
    (hshape : host.shape = .callable) : Places ctx k v type (pushCallable ctx k v host) := by
  have hmade : ∀ (signature : Signature) (name : String),
      Plain v host → Places ctx k v type (do
        for p in signature.params do
          let _ ← describe ctx p.type "read"
        let _ ← describe ctx signature.returns "push"
        onMachine k (Vm.pushFunction ⟨some name, .host v signature⟩)) := by
    intro signature name hplain
    refine .after (holds_describeParams _).keeps (levels_describeParams _) fun _ _ => ?_
    refine .after (holds_describe _ _).keeps (levels_describe _ _) fun _ _ => ?_
    refine places_plain htype hplain (Moves.steady _ (Vm.steady_pushFunction _)) fun {s t} h => ?_
    rw [onMachine_ok (Vm.pushFunction_eq _ (s.vm k))] at h
    cases h
    refine ⟨.function (s.vm k).heap.functions.size,
      congrArg some (slotCategory_shape hshape (by decide)).symm, fun hk => ?_⟩
    rw [withVm_size] at hk
    rw [withVm_machine hk]
    rfl
  unfold pushCallable
  split
  · refine places_wrapped _ (fun host' htype' hmade => ?_) fun hw => .bound htype hshape hw
    cases htype.symm.trans htype'
    exact hmade.2 hshape _ _ _ rfl
  · rename_i hother
    have hplain : Plain v host := ⟨by rw [hshape]; decide, fun _ => hother⟩
    dsimp only
    split
    · exact hmade _ _ hplain
    · exact .after (holds_ofHost _).keeps (levels_ofHost _) fun signature _ => hmade _ _ hplain

theorem places_pushIntegerSlot (htype : pushedAs v type = some host) (hplain : Plain v host)
    (hnumber : slotCategory v host = .number) : Places ctx k v type (pushIntegerSlot k v) := by
  refine .after (holds_ofHost _).keeps (levels_ofHost _) fun n _ => ?_
  split
  · next hrange => exact places_push hrange htype hplain (congrArg some hnumber.symm)
  · cases Double.ofInt? n with
    | some x => exact places_push trivial htype hplain (congrArg some hnumber.symm)
    | none => exact places_fail _

theorem places_pushBuffer (htype : pushedAs v type = some host) (hplain : Plain v host)
    (hstring : slotCategory v host = .string) : Places ctx k v type (pushBuffer k v) := by
  unfold pushBuffer
  split
  · exact .after (holds_encodeText _).keeps (levels_encodeText _) fun _ _ =>
      places_push trivial htype hplain (congrArg some hstring.symm)
  · exact .after (holds_ofHost _).keeps (levels_ofHost _) fun _ _ =>
      places_push trivial htype hplain (congrArg some hstring.symm)

theorem places_pushTextPointer (htype : pushedAs v type = some host) (hplain : Plain v host)
    (hshape : host.shape = .textPointer) : Places ctx k v type (pushTextPointer k v) := by
  unfold pushTextPointer
  split
  · refine places_push trivial htype hplain (congrArg some ?_)
    unfold slotCategory
    rw [hshape]
  · rename_i hsome
    refine .after (holds_ofHost _).keeps (levels_ofHost _) fun _ _ =>
      places_push trivial htype hplain (congrArg some ?_)
    unfold slotCategory
    rw [hshape]
    cases v
    case none => exact absurd rfl hsome
    all_goals rfl

/-- Every shape lays its value in place, if the parts do. -/
theorem places_pushShape {pushItem : HostValue → TypeExpr → Action Unit}
    (hitem : ∀ v t, Places ctx k v t (pushItem v t)) (htype : pushedAs v type = some host) :
    Places ctx k v type (pushShape ctx pushItem k v host) := by
  have hplain : ∀ {shape}, host.shape = shape →
      shape ∉ [Shape.dynamic, .mapping, .record, .sequence, .callable] → Plain v host := by
    rintro _ rfl hshape
    simp only [List.mem_cons, List.not_mem_nil, or_false, not_or] at hshape
    refine ⟨?_, fun h => absurd h hshape.2.2.2.2⟩
    simp only [List.mem_cons, List.not_mem_nil, or_false, not_or]
    exact ⟨hshape.1, hshape.2.1, hshape.2.2.1, hshape.2.2.2.1⟩
  have hcategory : ∀ {shape}, host.shape = shape → shape ≠ .textPointer →
      some shape.category = some (slotCategory v host) :=
    fun hshape hpointer => congrArg some (slotCategory_shape hshape hpointer).symm
  unfold pushShape
  cases hshape : host.shape with
  | dynamic => exact places_pushDynamic hitem htype hshape
  | absent =>
      exact places_push trivial htype (hplain hshape (by decide)) (hcategory hshape (by decide))
  | boolean =>
      exact places_push trivial htype (hplain hshape (by decide)) (hcategory hshape (by decide))
  | integer =>
      exact places_pushIntegerSlot htype (hplain hshape (by decide))
        (slotCategory_shape hshape (by decide))
  | float =>
      refine .after (holds_ofHost _).keeps (levels_ofHost _) fun x _ => ?_
      exact .after (holds_individualFloat x).keeps (levels_individualFloat x) fun _ _ =>
        places_push trivial htype (hplain hshape (by decide)) (hcategory hshape (by decide))
  | textPointer => exact places_pushTextPointer htype (hplain hshape (by decide)) hshape
  | buffer =>
      exact places_pushBuffer htype (hplain hshape (by decide))
        (slotCategory_shape hshape (by decide))
  | mapping => exact places_pushMapping hitem htype hshape
  | record => exact places_pushRecord hitem htype hshape
  | sequence => exact places_pushSequence hitem htype hshape
  | callable => exact places_pushCallable htype hshape

/-- A push to any depth lays its value in place, and changes no table that there
was. -/
theorem places_pushAs (ctx : Context) (k : MachineId) (fuel : Nat) (v : HostValue)
    (type : TypeExpr) : Places ctx k v type (pushAs ctx k fuel v type) := by
  induction fuel generalizing v type with
  | zero => exact places_fail _
  | succ fuel ih =>
      refine .after (holds_describe _ _).keeps (levels_describe _ _) fun host hdescribed => ?_
      obtain ⟨s, t, hst⟩ := hdescribed
      have hshape := places_pushShape ih (describe_answered hst).1
      have hshapes : Passes Fresh Fresh fun _ => pushShape ctx (pushAs ctx k fuel) k v host :=
        Passes.of_keeps hshape.fresh
      exact ⟨(Law.holds_guardedIfChecking _ _ (Law.holds_restoringTop trivial hshapes)).keeps,
        fun h => hshape.lays (restoringTop_answered (guardedIfChecking_answered h))⟩

end Bridge

end StackBridge
