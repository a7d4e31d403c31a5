import StackBridge.Bridge.Call
import StackBridge.Proofs.Read.Anywhere

/-!
Where the arguments of a host function come from. A signature and the values of a
frame say it of every argument (`Signature.sources`): the default of a parameter, or
the slot in its place, or for a variadic one all the slots from its place on. Reading
the arguments is fetching them from there, one after the other
(`readArguments_sources`); the slots do not change on the way, nothing is reported,
and a slot that holds a mismatch says so in the words of an argument (`fetch_mismatch`).
-/

namespace StackBridge

/-- Where an argument comes from: it is a default, or what a slot is read as. -/
inductive Source where
  | default (v : HostValue)
  | slot (index : Nat) (type : TypeExpr)
  /-- A value without a category cannot be told from nil. -/
  | stray (className : String)

/-- The argument for a parameter that is not variadic, by what is in its slot. -/
def Param.source (p : Param) (index : Nat) (x : Option Value) : Source :=
  match p.default, x with
  | none, _ => .slot index p.type
  | some v, none | some v, some .nil => .default v
  | some _, some w => if w.category?.isSome then .slot index p.type else .stray w.strayName

/-- The arguments for a parameter with some others before it, among the values of a
frame. -/
def Param.sources (p : Param) (before : Nat) (xs : List Value) : List Source :=
  if p.variadic then
    (List.range' (before + 1) (xs.length - before)).map fun index => .slot index p.type
  else [p.source (before + 1) xs[before]?]

/-- The arguments for some parameters, in order. -/
def sourcesFrom (xs : List Value) : Nat → List Param → List Source
  | _, [] => []
  | before, p :: ps => p.sources before xs ++ sourcesFrom xs (before + 1) ps

/-- The arguments for the parameters of a signature. -/
def Signature.sources (signature : Signature) (xs : List Value) : List Source :=
  sourcesFrom xs 0 signature.params

theorem Param.sources_variadic {p : Param} (hp : p.variadic = true) (before : Nat)
    (xs : List Value) :
    p.sources before xs
      = (List.range' (before + 1) (xs.length - before)).map fun index => .slot index p.type := by
  unfold Param.sources
  rw [if_pos hp]

theorem Param.sources_single {p : Param} (hp : p.variadic = false) (before : Nat)
    (xs : List Value) : p.sources before xs = [p.source (before + 1) xs[before]?] := by
  unfold Param.sources
  rw [hp, if_neg Bool.false_ne_true]

theorem Param.source_slot {p : Param} {i index : Nat} {x : Option Value} {type : TypeExpr}
    (h : p.source i x = .slot index type) : index = i := by
  unfold Param.source at h
  split at h
  · cases h
    rfl
  · cases h
  · cases h
  · split at h
    · cases h
      rfl
    · cases h

namespace Bridge

open Session

variable {ctx : Context} {run : BlockId → Action Unit} {fuel : Nat} {k : MachineId}
  {name : String} {s t : Session} {xs : List Value}

/-- Fetches an argument for a function of a name. -/
def fetch (ctx : Context) (run : BlockId → Action Unit) (fuel : Nat) (k : MachineId)
    (name : String) : Source → Action HostValue
  | .default v => return v
  | .slot index t => readValue ctx run fuel k (.badArgument index (some name)) index t
  | .stray className => fail (.misuse (.cannotLive className))

-- ================================================================== frames

/-- An open machine in a frame of some values. -/
structure InFrame (k : MachineId) (xs : List Value) (s : Session) : Prop where
  machine : k < s.machines.size
  opened : (s.machine k).closed = false
  framed : ∃ l fs, (s.machine k).slots = l ++ xs ∧ (s.machine k).frames = l.length :: fs

namespace InFrame

theorem live (h : InFrame k xs s) : (s.machine k).Live := by
  obtain ⟨l, fs, hslots, hframes⟩ := h.framed
  refine ⟨h.opened, l.length, fs, hframes, ?_⟩
  rw [hslots, List.length_append]
  exact Nat.le_add_right ..

theorem top (h : InFrame k xs s) : getTop k s = .ok (xs.length : Int) s := by
  obtain ⟨l, fs, hslots, hframes⟩ := h.framed
  rw [getTop_eq hframes, hslots, List.length_append]
  congr 1
  omega

theorem valueAt? (h : InFrame k xs s) (before : Nat) :
    Vm.valueAt? ((before + 1 : Nat) : Int) (s.vm k) = .ok xs[before]? (s.vm k) := by
  obtain ⟨l, fs, hslots, hframes⟩ := h.framed
  have hget : (s.vm k).machine.slots[l.length + before]? = xs[before]? := by
    rw [show (s.vm k).machine.slots = l ++ xs from hslots,
      List.getElem?_append_right (Nat.le_add_right ..), Nat.add_sub_cancel_left]
  have hindex : (((before + 1 : Nat) : Int) - 1).toNat = before := by omega
  rw [Vm.valueAt?_pos hframes (by omega), hindex, hget]

theorem categoryAt_absent (h : InFrame k xs s) {before : Nat} (hx : xs[before]? = none) :
    onMachine k (Vm.categoryAt ((before + 1 : Nat) : Int)) s = .ok .absent s := by
  have hvalue := h.valueAt? before
  rw [hx] at hvalue
  exact onMachine_look (bind_ok hvalue)

theorem categoryAt_known (h : InFrame k xs s) {before : Nat} {w : Value} {c : Category}
    (hx : xs[before]? = some w) (hw : w.category? = some c) :
    onMachine k (Vm.categoryAt ((before + 1 : Nat) : Int)) s = .ok c s := by
  have hvalue := h.valueAt? before
  rw [hx] at hvalue
  exact onMachine_look (Vm.categoryAt_eq hvalue hw)

theorem categoryAt_stray (h : InFrame k xs s) {before : Nat} {w : Value}
    (hx : xs[before]? = some w) (hw : w.category? = none) :
    onMachine k (Vm.categoryAt ((before + 1 : Nat) : Int)) s
      = .error (.failed (.misuse (.cannotLive w.strayName))) s := by
  have hvalue := h.valueAt? before
  rw [hx] at hvalue
  have hstray : Vm.categoryAt ((before + 1 : Nat) : Int) (s.vm k)
      = .error (.misuse (.cannotLive w.strayName)) (s.vm k) :=
    (bind_ok hvalue).trans (Vm.categoryOf_stray hw _)
  rw [onMachine_error hstray, withVm_vm]

theorem after {R : Session → Session → Prop} (h : InFrame k xs s) (ht : Leaves R k [] s t) :
    InFrame k xs t := by
  obtain ⟨l, fs, hslots, hframes⟩ := h.framed
  refine ⟨by rw [ht.size]; exact h.machine, ht.closed.trans h.opened, l, fs, ?_,
    ht.frames.trans hframes⟩
  rw [ht.slots, List.append_nil]
  exact hslots

end InFrame

-- ================================================================ fetching

/-- Nothing has been reported. -/
def Unreported (s t : Session) : Prop := t.reports = s.reports

instance (k : MachineId) : SeesMemory k Unreported where
  same _ hreports _ _ _ := hreports
  trans h h' := Eq.trans h' h

/-- A read in the words of a handler ends where the read that raises mismatches does. -/
theorem final_inWords {α : Type} (h : Handler) (r : EStateM.Result Stop Session α) :
    final (inWords h r) = final r := by
  cases r with
  | ok x t => rfl
  | error e t =>
      cases e with
      | exhausted => rfl
      | failed f => cases f <;> rfl

/-- An action that leaves the slots as they are, and reports nothing. -/
abbrev Fetches {α : Type} (k : MachineId) (xs : List Value) (a : Action α) : Prop :=
  ∀ s, InFrame k xs s → Leaves Unreported k [] s (final (a s))

theorem fetches_slot (before : Nat) (type : TypeExpr) :
    Fetches k xs (fetch ctx run fuel k name (.slot (before + 1) type)) := by
  intro s hframe
  let h : Handler := .badArgument ((before + 1 : Nat) : Int) (some name)
  have hraises : Raises h := trivial
  have hsees : Sees k [] s (final (readValue ctx run fuel k h (before + 1 : Nat) type s)) :=
    Ends.final <| (readsOnly_readAs ctx run hraises fuel readLimit _ type s hframe.machine
      hframe.live).mono (fun _ _ h => h) fun _ _ h => h.2
  obtain ⟨hworded, hreports⟩ := readValue_worded ctx run fuel hraises hframe.machine
    hframe.live (hframe.valueAt? before) type
  refine ⟨hsees.slots, hsees.frames, hsees.registry, hsees.closed, hsees.size, ?_⟩
  show (final (readValue ctx run fuel k h (before + 1 : Nat) type s)).reports = s.reports
  rw [hworded, final_inWords]
  exact hreports

-- ================================================================ arguments

theorem readRest_eq (readAt : Int → Action HostValue) (first count : Nat) :
    readRest readAt first count = (List.range' first count).mapM fun i : Nat => readAt i := by
  induction count generalizing first with
  | zero => rfl
  | succ count ih =>
      rw [List.range'_succ, List.mapM_cons, readRest]
      exact bind_congr fun v => congrArg (· >>= fun vs => pure (v :: vs)) (ih (first + 1))

/-- Reads the argument of a parameter that is not variadic. -/
def readArgument (readAt : TypeExpr → Int → Action HostValue) (k : MachineId) (p : Param)
    (i : Int) : Action HostValue :=
  match p.default with
  | none => readAt p.type i
  | some d => do
    let c ← onMachine k (Vm.categoryAt i)
    if c = .absent ∨ c = .nil then pure d else readAt p.type i

theorem readArguments_cons (readAt : TypeExpr → Int → Action HostValue) (k : MachineId)
    (depth i : Int) {p : Param} (hp : p.variadic = false) (ps : List Param) :
    readArguments readAt k depth i (p :: ps) = (do
      let v ← readArgument readAt k p i
      let vs ← readArguments readAt k depth (i + 1) ps
      return v :: vs) := by
  rw [readArguments, hp]
  unfold readArgument
  cases p.default with
  | none => rfl
  | some d =>
      rw [bind_assoc]
      refine bind_congr fun c => ?_
      dsimp only
      split
      · rw [pure_bind]
      · rfl

/-- A value that is there is not told to be missing, and told to be nil if it is. -/
theorem category_missing {w : Value} {c : Category} (hw : w.category? = some c) :
    (c = .absent ∨ c = .nil) ↔ w = .nil := by
  refine ⟨fun hc => ?_, ?_⟩
  · rcases hc with rfl | rfl
    · cases w with
      | guest id role => cases role <;> cases hw
      | _ => cases hw
    · exact eq_nil_of_category hw
  · rintro rfl
    exact Or.inr (Option.some.inj hw).symm

/-- Reading the argument of a parameter that is not variadic is fetching it from its
source. -/
theorem readArgument_eq (hframe : InFrame k xs s) (p : Param) (before : Nat) :
    readArgument (fun t i => readValue ctx run fuel k (.badArgument i (some name)) i t) k p
        (before + 1 : Nat) s
      = fetch ctx run fuel k name (p.source (before + 1) xs[before]?) s := by
  unfold Param.source readArgument
  cases p.default with
  | none => rfl
  | some d =>
      cases hx : xs[before]? with
      | none =>
          dsimp only
          rw [bind_ok (hframe.categoryAt_absent hx), if_pos (Or.inl rfl)]
          rfl
      | some w =>
          cases hw : w.category? with
          | none =>
              dsimp only
              rw [bind_error (hframe.categoryAt_stray hx hw)]
              cases w with
              | guest =>
                  simp only [hw]
                  rfl
              | _ => cases hw
          | some c =>
              dsimp only
              rw [bind_ok (hframe.categoryAt_known hx hw)]
              by_cases hnil : w = .nil
              · subst hnil
                rw [if_pos ((category_missing hw).mpr rfl)]
                rfl
              · rw [if_neg (mt (category_missing hw).mp hnil)]
                cases w with
                | nil => exact absurd rfl hnil
                | guest =>
                    simp only [hw]
                    rfl
                | _ => rfl

theorem fetches_source {source : Source} (h : ∀ index type, source = .slot index type → 0 < index) :
    Fetches k xs (fetch ctx run fuel k name source) := by
  cases source with
  | default v => exact fun s _ => Leaves.refl s
  | stray className => exact fun s _ => Leaves.refl s
  | slot index type =>
      cases index with
      | zero => exact absurd (h 0 type rfl) (Nat.lt_irrefl 0)
      | succ before => exact fetches_slot before type

theorem Fetches.bind {α β : Type} {a : Action α} {f : α → Action β} (ha : Fetches k xs a)
    (hf : ∀ x, Fetches k xs (f x)) : Fetches k xs (a >>= f) := by
  intro s hframe
  have hleaves := ha s hframe
  rw [bind_apply]
  cases hr : a s with
  | error e t =>
      rw [hr] at hleaves
      exact hleaves
  | ok x t =>
      rw [hr] at hleaves
      exact hleaves.trans (hf x t (hframe.after hleaves))

theorem fetches_mapM {sources : List Source}
    (h : ∀ source ∈ sources, Fetches k xs (fetch ctx run fuel k name source)) :
    Fetches k xs (sources.mapM (fetch ctx run fuel k name)) := by
  induction sources with
  | nil => exact fun s _ => Leaves.refl s
  | cons source sources ih =>
      rw [List.mapM_cons]
      refine (h source (List.mem_cons_self ..)).bind fun v => ?_
      refine (ih fun other hother => h other (List.mem_cons_of_mem _ hother)).bind fun vs => ?_
      exact fun s _ => Leaves.refl s

/-- The slots that some parameters are read from come after those of the parameters
before. -/
theorem slot_sourcesFrom (ps : List Param) (before : Nat) {index : Nat} {type : TypeExpr}
    (h : .slot index type ∈ sourcesFrom xs before ps) : before < index := by
  induction ps generalizing before with
  | nil => cases h
  | cons p ps ih =>
      rcases List.mem_append.mp h with hp | hps
      · cases hvariadic : p.variadic with
        | true =>
            rw [p.sources_variadic hvariadic] at hp
            obtain ⟨i, hi, hslot⟩ := List.mem_map.mp hp
            cases hslot
            obtain ⟨n, _, rfl⟩ := List.mem_range'.mp hi
            omega
        | false =>
            rw [p.sources_single hvariadic] at hp
            rw [Param.source_slot (List.mem_singleton.mp hp).symm]
            exact Nat.lt_succ_self before
      · exact Nat.lt_of_succ_lt (ih (before + 1) hps)

/-- Where only the last of some parameters is variadic, reading their arguments is
fetching them from their sources. -/
theorem readArguments_sources {ps : List Param} (hframe : InFrame k xs s)
    (hlast : ∀ p ∈ ps.dropLast, p.variadic = false) (before : Nat) :
    readArguments (fun t i => readValue ctx run fuel k (.badArgument i (some name)) i t) k
        xs.length (before + 1 : Nat) ps s
      = (sourcesFrom xs before ps).mapM (fetch ctx run fuel k name) s := by
  induction ps generalizing before s with
  | nil => rfl
  | cons p ps ih =>
      rw [sourcesFrom]
      cases hp : p.variadic with
      | true =>
          cases ps with
          | cons q qs => exact absurd (hlast p (List.mem_cons_self ..)) (by rw [hp]; nofun)
          | nil =>
              have hcount : ((xs.length : Int) + 1 - (before + 1 : Nat)).toNat
                  = xs.length - before := by omega
              rw [readArguments, hp, if_pos rfl, hcount, readRest_eq, p.sources_variadic hp,
                sourcesFrom, List.append_nil, List.mapM_map]
              rfl
      | false =>
          have hrest : ∀ q ∈ ps.dropLast, q.variadic = false := by
            intro q hq
            cases ps with
            | nil => cases hq
            | cons r rs => exact hlast q (List.mem_cons_of_mem _ hq)
          rw [readArguments_cons _ _ _ _ hp, p.sources_single hp, List.singleton_append,
            List.mapM_cons]
          refine bind_alike (readArgument_eq hframe p before) fun v t ht => ?_
          have hleaves : Leaves Unreported k [] s (final (fetch ctx run fuel k name
              (p.source (before + 1) xs[before]?) s)) :=
            fetches_source (fun index type hslot => Param.source_slot hslot ▸ Nat.succ_pos before)
              s hframe
          rw [ht] at hleaves
          exact bind_alike (ih (hframe.after hleaves) hrest (before + 1)) fun vs u _ => rfl

-- =============================================================== mismatches

/-- The first of some sources that cannot be fetched ends it. -/
theorem fetch_stopped {before : List Source} (after : List Source) {source : Source}
    {vs : List HostValue} {u : Session} {e : Stop}
    (hbefore : before.mapM (fetch ctx run fuel k name) s = .ok vs t)
    (hsource : fetch ctx run fuel k name source t = .error e u) :
    (before ++ source :: after).mapM (fetch ctx run fuel k name) s = .error e u := by
  rw [List.mapM_append, bind_ok hbefore, List.mapM_cons]
  exact bind_error (bind_error hsource)

/-- As many arguments as there are sources. -/
theorem fetched_length {sources : List Source} {vs : List HostValue}
    (h : sources.mapM (fetch ctx run fuel k name) s = .ok vs t) :
    vs.length = sources.length := by
  induction sources generalizing s vs with
  | nil =>
      cases h
      rfl
  | cons source sources ih =>
      rw [List.mapM_cons] at h
      obtain ⟨v, u, _, h⟩ := bind_answered h
      obtain ⟨rest, w, hrest, h⟩ := bind_answered h
      cases h
      exact congrArg Nat.succ (ih hrest)

/-- The wording of a mismatch in an argument. -/
def badArgument (index : Nat) (name : String) (actual expected : Category) : Failure :=
  .machine (.str (utf8 ("bad argument #" ++ toString index ++ (" to '" ++ name ++ "'")
    ++ " (" ++ expected.label ++ " expected, got " ++ actual.label ++ ")"))) none

/-- A slot that holds a mismatch, at whatever depth, says which argument it is. -/
theorem fetch_mismatch (hframe : InFrame k xs s) (hname : name ≠ "") {before : Nat}
    {type : TypeExpr} {actual expected : Category}
    (h : readValue ctx run fuel k .strict (before + 1 : Nat) type s
      = .error (.failed (.mismatch actual expected)) t) :
    fetch ctx run fuel k name (.slot (before + 1) type) s
      = .error (.failed (badArgument (before + 1) name actual expected)) t := by
  have howner : argumentOwner (some name) = " to '" ++ name ++ "'" := by
    unfold argumentOwner
    split
    · contradiction
    · rename_i heq
      exact absurd (Option.some.inj heq) hname
    · rename_i heq
      rw [Option.some.inj heq]
  have hworded := (readValue_worded ctx run fuel (h := .badArgument ((before + 1 : Nat) : Int)
    (some name)) trivial hframe.machine hframe.live (hframe.valueAt? before) type).1
  rw [h] at hworded
  refine hworded.trans ?_
  unfold inWords raisedBy badArgument
  dsimp only
  rw [howner]
  rfl

end Bridge

end StackBridge
