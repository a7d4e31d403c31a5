import StackBridge.Proofs.Describe.Nested
import StackBridge.Proofs.Machine.Answered
import StackBridge.Proofs.Read.Gains

/-!
Two runs on two stacks. A `Seat` is a place for values: the slots below them and the
frames, of which the running one begins on those slots. A session can be seated
anywhere, with the same values on top; nothing else of it changes.

Two actions go together (`Pairing.Together`) if, begun in one session on two seats
with the same values on top, they come to the same: the same answer or the same
stop, in one session on the two seats, again with the same values on top, and with
nothing reported. The actions may be two, because an index means another slot on
another seat; what they have in common is what is shown there (`Pairing.Shows`). An
absolute index goes on showing it whatever comes on top (`Pairing.Shows.abs`). And
where the one raises a mismatch, the other may raise it in other words
(`Pairing.reworded`); all other stops are the same.
-/

namespace StackBridge

/-- Whether a failure is a mismatch, which handlers put into words. -/
def Failure.isMismatch : Failure → Bool
  | .mismatch .. => true
  | _ => false

theorem Failure.AboutType.no_mismatch {f : Failure} (h : f.AboutType) : f.isMismatch = false := by
  cases f with
  | mismatch => exact h.elim
  | _ => rfl

/-- A place for values: the slots below them and the frames, of which the running one
begins on those slots. -/
structure Seat where
  below : List Value
  base : Nat
  outer : List Nat
  base_le : base ≤ below.length

namespace Seat

/-- A machine on a seat, with some values on top. -/
def on (p : Seat) (xs : List Value) (vm : Vm) : Vm :=
  { vm with machine := { vm.machine with slots := p.below ++ xs, frames := p.base :: p.outer } }

variable {p : Seat} {vm : Vm} {xs ys : List Value} {v w : Value}

theorem on_frames (p : Seat) (xs : List Value) (vm : Vm) :
    (p.on xs vm).machine.frames = p.base :: p.outer := rfl

theorem on_slots (p : Seat) (xs : List Value) (vm : Vm) :
    (p.on xs vm).machine.slots = p.below ++ xs := rfl

theorem base_le_append (p : Seat) (xs : List Value) : p.base ≤ (p.below ++ xs).length := by
  rw [List.length_append]
  exact Nat.le_add_right_of_le p.base_le

theorem on_append (p : Seat) (xs ys : List Value) (vm : Vm) :
    (p.on (xs ++ ys) vm).machine.slots = (p.below ++ xs) ++ ys :=
  (List.append_assoc ..).symm

theorem valueAt?_top (p : Seat) (xs : List Value) (w : Value) (vm : Vm) :
    Vm.valueAt? (-1) (p.on (xs ++ [w]) vm) = .ok (some w) (p.on (xs ++ [w]) vm) :=
  Vm.valueAt?_behind (r := []) (p.on_frames _ vm) (p.on_append xs [w] vm) (p.base_le_append xs)
    (by simp)

theorem valueAt?_second (p : Seat) (xs : List Value) (v w : Value) (vm : Vm) :
    Vm.valueAt? (-2) (p.on (xs ++ [v, w]) vm) = .ok (some v) (p.on (xs ++ [v, w]) vm) :=
  Vm.valueAt?_second (p.on_frames _ vm) (p.on_append xs [v, w] vm) (p.base_le_append xs)

theorem push_on (p : Seat) (xs : List Value) (v : Value) (vm : Vm) :
    Vm.push v (p.on xs vm) = .ok () (p.on (xs ++ [v]) vm) := by
  have hslots : (p.on xs vm).withSlots ((p.below ++ xs) ++ [v]) = p.on (xs ++ [v]) vm := by
    rw [List.append_assoc]
    rfl
  exact (Vm.push_eq _ v).trans (congrArg _ hslots)

theorem pop_on (p : Seat) (xs : List Value) (w : Value) (vm : Vm) :
    Vm.pop 1 (p.on (xs ++ [w]) vm) = .ok () (p.on xs vm) :=
  Vm.pop_one (p.on_frames _ vm) (p.on_append xs [w] vm) (p.base_le_append xs)

theorem getTop_on (p : Seat) (xs : List Value) (vm : Vm) :
    Vm.getTop (p.on xs vm) = .ok (((p.below ++ xs).length : Int) - p.base) (p.on xs vm) :=
  Vm.getTop_eq (p.on_frames xs vm)

theorem setTop_on (p : Seat) (h : xs.length ≤ ys.length) :
    Vm.setTop (((p.below ++ xs).length : Int) - p.base) (p.on ys vm)
      = .ok () (p.on (ys.take xs.length) vm) := by
  have hlength : (p.below ++ xs).length = (p.below ++ ys.take xs.length).length := by
    rw [List.length_append, List.length_append, List.length_take, Nat.min_eq_left h]
  have hslots : (p.on ys vm).machine.slots
      = (p.below ++ ys.take xs.length) ++ ys.drop xs.length := by
    rw [List.append_assoc, List.take_append_drop]
    rfl
  rw [hlength]
  exact Vm.setTop_back (p.on_frames ys vm) hslots (p.base_le_append _)

/-- The absolute index of an index. -/
def abs (p : Seat) (xs : List Value) (index : Int) : Int :=
  if 0 < index ∨ index ≤ registryIndex then index
  else ((p.below ++ xs).length : Int) - p.base + index + 1

theorem absIndex_on (p : Seat) (xs : List Value) (index : Int) (vm : Vm) :
    Vm.absIndex index (p.on xs vm) = .ok (p.abs xs index) (p.on xs vm) := by
  unfold Vm.absIndex abs
  split
  · rfl
  · rw [bind_ok (Vm.base_eq (p.on_frames xs vm))]
    rfl

/-- The absolute index of a value means it whatever comes on top. -/
theorem valueAt?_abs {index : Int} (h : Vm.valueAt? index (p.on xs vm) = .ok (some w) (p.on xs vm))
    (ys : List Value) :
    Vm.valueAt? (p.abs xs index) (p.on (xs ++ ys) vm) = .ok (some w) (p.on (xs ++ ys) vm) :=
  Vm.absIndex_answered (p.absIndex_on xs index vm) h rfl rfl (p.on_append xs ys vm)

/-- Where a value is depends on the seat alone and, for the registry, on which it is. -/
theorem valueAt?_elsewhere {vm' : Vm} {index : Int} {x : Option Value}
    (hregistry : vm'.machine.registry = vm.machine.registry)
    (h : Vm.valueAt? index (p.on xs vm) = .ok x (p.on xs vm)) :
    Vm.valueAt? index (p.on xs vm') = .ok x (p.on xs vm') := by
  by_cases hi : index = registryIndex
  · rw [hi, Vm.valueAt?_registry] at h ⊢
    cases h
    exact congrArg (fun r => EStateM.Result.ok (some (Value.table r)) _) hregistry
  · by_cases hpos : 0 < index
    · rw [Vm.valueAt?_pos (p.on_frames xs vm) hpos] at h
      rw [Vm.valueAt?_pos (p.on_frames xs vm') hpos]
      cases h
      rfl
    · obtain ⟨l, w, r, hs, hb, hr, rfl, rfl⟩ :=
        Vm.valueAt?_below h (p.on_frames xs vm) hpos hi
      exact Vm.valueAt?_behind (p.on_frames xs vm') hs hb hr

/-- What a traversal comes to on a seat from which it has taken the key, with what the table
has to say: the next entry is left there. -/
def advance (p : Seat) (xs : List Value) (vm : Vm) :
    Except Table.NextFault (Option (Key × Value)) → EStateM.Result Failure Vm Bool
  | .error (.key f) => .error (.misuse (.key f)) (p.on xs vm)
  | .error .noPosition => .error (.misuse .invalidNextKey) (p.on xs vm)
  | .ok none => .ok false (p.on xs vm)
  | .ok (some entry) => .ok true (p.on (xs ++ [entry.1.value, entry.2]) vm)

theorem next_on (p : Seat) {index : Int} {id : TableId} {key : Value}
    (h : Vm.valueAt? index (p.on (xs ++ [key]) vm)
      = .ok (some (.table id)) (p.on (xs ++ [key]) vm)) :
    Vm.next index (p.on (xs ++ [key]) vm) = p.advance xs vm ((vm.heap.table id).next key) := by
  have hframes := p.on_frames (xs ++ [key]) vm
  have hslots := p.on_append xs [key] vm
  have hbase := p.base_le_append xs
  have hid := Vm.tableAt_eq h
  cases hn : (vm.heap.table id).next key with
  | error e =>
      rw [Vm.next_apply hframes hslots hbase hid,
        show ((p.on (xs ++ [key]) vm).heap.table id).next key = .error e from hn]
      cases e <;> rfl
  | ok entry =>
      cases entry with
      | none => exact Vm.next_done hframes hslots hbase hid hn
      | some entry =>
          refine (Vm.next_more hframes hslots hbase hid hn).trans ?_
          rw [List.append_assoc]
          rfl

end Seat

-- ================================================================ sessions

namespace Session

variable {s : Session} {k : MachineId}

/-- A session with a machine on a seat, with some values on top. -/
def seated (s : Session) (k : MachineId) (p : Seat) (xs : List Value) : Session :=
  s.withVm k (p.on xs (s.vm k))

theorem seated_vm (hk : k < s.machines.size) (p : Seat) (xs : List Value) :
    (s.seated k p xs).vm k = p.on xs (s.vm k) :=
  vm_withVm hk _

theorem seated_seated (hk : k < s.machines.size) (p q : Seat) (xs ys : List Value) :
    (s.seated k p xs).seated k q ys = s.seated k q ys := by
  show (s.seated k p xs).withVm k (q.on ys ((s.seated k p xs).vm k)) = _
  rw [seated_vm hk]
  exact withVm_withVm s k _ _

/-- Putting back a machine that has stayed on its seat. -/
theorem seated_withVm (hk : k < s.machines.size) (p : Seat) (xs ys : List Value) (vm : Vm) :
    (s.seated k p xs).withVm k (p.on ys vm) = (s.withVm k vm).seated k p ys := by
  show _ = (s.withVm k vm).withVm k (p.on ys ((s.withVm k vm).vm k))
  rw [vm_withVm hk, withVm_withVm]
  exact withVm_withVm s k _ _

/-- A live machine has a seat of its own. -/
theorem exists_seat (hl : (s.machine k).Live) :
    ∃ p : Seat, s.seated k p [] = s := by
  obtain ⟨_, b, fs, hf, hb⟩ := hl
  refine ⟨⟨(s.machine k).slots, b, fs, hb⟩, ?_⟩
  have hon : Seat.on ⟨(s.machine k).slots, b, fs, hb⟩ [] (s.vm k) = s.vm k := by
    unfold Seat.on
    rw [List.append_nil, ← hf]
    rfl
  unfold seated
  rw [hon, withVm_vm]

theorem seated_machine (hk : k < s.machines.size) (p : Seat) (xs : List Value) :
    (s.seated k p xs).machine k = (p.on xs (s.vm k)).machine := withVm_machine hk _

theorem getTop_seated (hk : k < s.machines.size) (p : Seat) (xs : List Value) :
    getTop k (s.seated k p xs)
      = .ok (((p.below ++ xs).length : Int) - p.base) (s.seated k p xs) := by
  refine onMachine_look ?_
  rw [seated_vm hk]
  exact p.getTop_on xs _

theorem seated_live (hk : k < s.machines.size) (hopen : (s.machine k).closed = false) (p : Seat)
    (xs : List Value) : ((s.seated k p xs).machine k).Live := by
  rw [seated_machine hk]
  exact ⟨hopen, p.base, p.outer, rfl, p.base_le_append xs⟩

end Session

-- ============================================================== two results

/-- Two results that are the same but for what stands on the left and what on the right,
and for what `stops` relates; an answer satisfies `Q`, together with the values on top. -/
inductive Agree {ε σ α : Type} (fits : σ → Prop) (left right : List Value → σ → σ)
    (stops : ε → ε → Prop) (Q : α → List Value → Prop) :
    EStateM.Result ε σ α → EStateM.Result ε σ α → Prop where
  | ok {x : α} {u : σ} {ys : List Value} (hu : fits u) (hx : Q x ys) :
      Agree fits left right stops Q (.ok x (left ys u)) (.ok x (right ys u))
  | error {e e' : ε} {u : σ} {ys : List Value} (hu : fits u) (he : stops e e') :
      Agree fits left right stops Q (.error e (left ys u)) (.error e' (right ys u))

namespace Agree

variable {ε σ α β : Type} {fits : σ → Prop} {left right : List Value → σ → σ}
  {stops : ε → ε → Prop} {Q Q₂ : α → List Value → Prop} {Q' : β → List Value → Prop}

theorem bind {a a' : EStateM ε σ α} {f f' : α → EStateM ε σ β} {s s' : σ}
    (h : Agree fits left right stops Q (a s) (a' s'))
    (hf : ∀ x u ys, fits u → Q x ys →
      Agree fits left right stops Q' (f x (left ys u)) (f' x (right ys u))) :
    Agree fits left right stops Q' ((a >>= f) s) ((a' >>= f') s') := by
  rw [bind_apply, bind_apply]
  generalize a s = r at h
  generalize a' s' = r' at h
  cases h with
  | ok hu hx => exact hf _ _ _ hu hx
  | error hu he => exact .error hu he

end Agree

/-- Two seats for a machine that is open and has its registry, in a session that
reports no more. -/
structure Pairing where
  machine : MachineId
  registry : TableId
  reports : List Report
  left : Seat
  right : Seat
  /-- What is raised on the right where a mismatch is raised on the left. -/
  wording : Category → Category → Failure

namespace Pairing

open Session

variable {α β : Type} {d : Pairing} {xs : List Value} {Q : α → List Value → Prop}
  {Q' : β → List Value → Prop}

/-- A stop on the right for the one on the left. -/
def reworded (d : Pairing) : Stop → Stop
  | .failed (.mismatch actual expected) => .failed (d.wording actual expected)
  | e => e

theorem reworded_failed {f : Failure} (hf : f.isMismatch = false) :
    d.reworded (.failed f) = .failed f := by
  cases f with
  | mismatch => cases hf
  | _ => rfl

/-- An open machine on the registry of a pairing. -/
structure FitsVm (d : Pairing) (vm : Vm) : Prop where
  opened : vm.machine.closed = false
  registry : vm.machine.registry = d.registry

/-- A session with such a machine. -/
structure Fits (d : Pairing) (u : Session) : Prop where
  machine : d.machine < u.machines.size
  vm : d.FitsVm (u.vm d.machine)
  reports : u.reports = d.reports

/-- On the machine, no failure is a mismatch. -/
abbrev AgreeVm (d : Pairing) (Q : α → List Value → Prop) :
    EStateM.Result Failure Vm α → EStateM.Result Failure Vm α → Prop :=
  StackBridge.Agree d.FitsVm d.left.on d.right.on (fun f f' => f' = f ∧ f.isMismatch = false) Q

abbrev Agree (d : Pairing) (Q : α → List Value → Prop) :
    EStateM.Result Stop Session α → EStateM.Result Stop Session α → Prop :=
  StackBridge.Agree d.Fits (fun ys u => u.seated d.machine d.left ys)
    (fun ys u => u.seated d.machine d.right ys) (fun e e' => e' = d.reworded e) Q

/-- Two actions that come to the same, begun in one session on the two seats with the
same values on top. -/
def Together (d : Pairing) (xs : List Value) (Q : α → List Value → Prop) (a a' : Action α) :
    Prop :=
  ∀ u, d.Fits u → d.Agree Q (a (u.seated d.machine d.left xs)) (a' (u.seated d.machine d.right xs))

/-- Two actions that come to the same and leave the values on top, unless they stop. -/
abbrev Even (d : Pairing) (xs : List Value) (a a' : Action α) : Prop :=
  d.Together xs (fun _ ys => ys = xs) a a'

-- ==================================================== one after the other

theorem together_pure {x : α} (h : Q x xs) : d.Together xs Q (pure x) (pure x) :=
  fun _ hu => .ok hu h

theorem together_fail {f : Failure} (hf : f.isMismatch = false) :
    d.Together xs Q (fail f) (fail f) :=
  fun _ hu => .error hu (reworded_failed hf).symm

theorem Together.bind {a a' : Action α} {f f' : α → Action β} (ha : d.Together xs Q a a')
    (hf : ∀ x ys, Q x ys → d.Together ys Q' (f x) (f' x)) :
    d.Together xs Q' (a >>= f) (a' >>= f') :=
  fun u hu => (ha u hu).bind fun x v ys hv hx => hf x ys hx v hv

theorem Even.bind {a a' : Action α} {f f' : α → Action β} (ha : d.Even xs a a')
    (hf : ∀ x, d.Together xs Q' (f x) (f' x)) : d.Together xs Q' (a >>= f) (a' >>= f') :=
  Together.bind ha fun x _ h => h ▸ hf x

-- ============================================================ on the machine

/-- What agrees on the machine does so in the session. -/
theorem together_onMachine {a a' : Vm.Action α}
    (h : ∀ vm, d.FitsVm vm → d.AgreeVm Q (a (d.left.on xs vm)) (a' (d.right.on xs vm))) :
    d.Together xs Q (onMachine d.machine a) (onMachine d.machine a') := by
  intro u hu
  have hagree := h (u.vm d.machine) hu.vm
  have hfits : ∀ vm, d.FitsVm vm → d.Fits (u.withVm d.machine vm) := fun vm hvm =>
    ⟨by rw [withVm_size]; exact hu.machine, by rw [vm_withVm hu.machine]; exact hvm, hu.reports⟩
  unfold onMachine
  rw [seated_vm hu.machine, seated_vm hu.machine]
  generalize a (d.left.on xs (u.vm d.machine)) = r at hagree
  generalize a' (d.right.on xs (u.vm d.machine)) = r' at hagree
  cases hagree with
  | ok hv hx =>
      dsimp only
      rw [seated_withVm hu.machine, seated_withVm hu.machine]
      exact .ok (hfits _ hv) hx
  | error hv he =>
      obtain ⟨rfl, hf⟩ := he
      dsimp only
      rw [seated_withVm hu.machine, seated_withVm hu.machine]
      exact .error (hfits _ hv) (reworded_failed hf).symm

/-- An action that no machine has to do with, and that raises no mismatch. -/
theorem even_apart {a : Action α} (h : ∀ u, d.Fits u →
    (∃ x v, d.Fits v ∧ ∀ p, a (u.seated d.machine p xs) = .ok x (v.seated d.machine p xs))
      ∨ ∃ f v, f.isMismatch = false ∧ d.Fits v
        ∧ ∀ p, a (u.seated d.machine p xs) = .error (.failed f) (v.seated d.machine p xs)) :
    d.Even xs a a := by
  intro u hu
  rcases h u hu with ⟨x, v, hv, hseated⟩ | ⟨f, v, hf, hv, hseated⟩
  · rw [hseated, hseated]
    exact .ok hv rfl
  · rw [hseated, hseated]
    exact .error hv (reworded_failed hf).symm

theorem even_ofHost (r : Except HostFault α) : d.Even xs (ofHost r) (ofHost r) := by
  cases r with
  | ok x => exact together_pure rfl
  | error f =>
      refine together_fail (f := .ofHost f) ?_
      cases f <;> rfl

theorem even_nextIndividual : d.Even xs nextIndividual nextIndividual :=
  even_apart fun u hu => .inl ⟨u.individuals + 1, { u with individuals := u.individuals + 1 },
    ⟨hu.machine, hu.vm, hu.reports⟩, fun _ => rfl⟩

theorem even_individual (v : HostValue) : d.Even xs (individual v) (individual v) := by
  have hfloat : ∀ x : Double, d.Even xs (individualFloat x) (individualFloat x) := by
    intro x
    unfold individualFloat
    split
    · exact even_nextIndividual.bind fun _ => together_pure rfl
    · exact together_pure rfl
  unfold individual
  split
  · exact (hfloat _).bind fun _ => together_pure rfl
  · exact even_nextIndividual.bind fun _ => together_pure rfl
  · exact even_nextIndividual.bind fun _ => together_pure rfl
  · exact together_pure rfl

theorem even_decodeText (b : Bytes) : d.Even xs (decodeText b) (decodeText b) := by
  refine even_apart fun u hu => ?_
  cases h : u.encoding.decode b with
  | ok text =>
      refine .inl ⟨text, u, hu, fun p => ?_⟩
      have henc : (u.seated d.machine p xs).encoding.decode b = .ok text := h
      unfold decodeText
      rw [bind_ok (get_apply _), henc]
      rfl
  | error f =>
      refine .inr ⟨.host (.undecodable f), u, rfl, hu, fun p => ?_⟩
      have henc : (u.seated d.machine p xs).encoding.decode b = .error f := h
      unfold decodeText
      rw [bind_ok (get_apply _), henc]
      rfl

theorem even_describe (ctx : Context) (t : TypeExpr) (operation : String) :
    d.Even xs (Bridge.describe ctx t operation) (Bridge.describe ctx t operation) := by
  refine even_apart fun u hu => ?_
  have hnoted : ∀ p : Seat, (u.seated d.machine p xs).described = u.described := fun _ => rfl
  have hfits : ∀ noted, d.Fits { u with described := noted } :=
    fun _ => ⟨hu.machine, hu.vm, hu.reports⟩
  unfold Bridge.describe
  simp only [hnoted]
  cases hr : Bridge.describeIn ctx.classes operation t u.described with
  | error f noted =>
      exact .inr ⟨f, { u with described := noted }, (Bridge.describeIn_error hr).no_mismatch,
        hfits noted, fun _ => rfl⟩
  | ok _ noted =>
      cases t.hostType? with
      | some host => exact .inl ⟨host, { u with described := noted }, hfits noted, fun _ => rfl⟩
      | none =>
          exact .inr ⟨.unsupported t.refusalName operation, { u with described := noted }, rfl,
            hfits noted, fun _ => rfl⟩

-- =================================================================== looking

/-- An index on the left and one on the right, at which there is the same value. Where
there is none, the indices are the same. -/
structure Shows (d : Pairing) (xs : List Value) (i j : Int) (x : Option Value) : Prop where
  left : ∀ vm, d.FitsVm vm → Vm.valueAt? i (d.left.on xs vm) = .ok x (d.left.on xs vm)
  right : ∀ vm, d.FitsVm vm → Vm.valueAt? j (d.right.on xs vm) = .ok x (d.right.on xs vm)
  same : x = none → i = j

variable {i j : Int} {x : Option Value} {v w : Value}

theorem shows_top (d : Pairing) (xs : List Value) (w : Value) :
    d.Shows (xs ++ [w]) (-1) (-1) (some w) :=
  ⟨fun _ _ => Seat.valueAt?_top .., fun _ _ => Seat.valueAt?_top .., fun _ => rfl⟩

theorem shows_second (d : Pairing) (xs : List Value) (v w : Value) :
    d.Shows (xs ++ [v, w]) (-2) (-2) (some v) :=
  ⟨fun _ _ => Seat.valueAt?_second .., fun _ _ => Seat.valueAt?_second .., fun _ => rfl⟩

/-- The absolute indices go on showing a value whatever comes on top. -/
theorem Shows.abs (h : d.Shows xs i j (some w)) (ys : List Value) :
    d.Shows (xs ++ ys) (d.left.abs xs i) (d.right.abs xs j) (some w) :=
  ⟨fun vm hvm => Seat.valueAt?_abs (h.left vm hvm) ys,
    fun vm hvm => Seat.valueAt?_abs (h.right vm hvm) ys, nofun⟩

theorem together_absIndex {f f' : Int → Action α}
    (h : d.Together xs Q (f (d.left.abs xs i)) (f' (d.right.abs xs j))) :
    d.Together xs Q (onMachine d.machine (Vm.absIndex i) >>= f)
      (onMachine d.machine (Vm.absIndex j) >>= f') := by
  intro u hu
  have habs : ∀ (p : Seat) (index : Int),
      onMachine d.machine (Vm.absIndex index) (u.seated d.machine p xs)
        = .ok (p.abs xs index) (u.seated d.machine p xs) := by
    intro p index
    refine onMachine_look ?_
    rw [seated_vm hu.machine]
    exact p.absIndex_on xs index _
  rw [bind_ok (habs d.left i), bind_ok (habs d.right j)]
  exact h u hu

/-- What a look comes to, by what is shown and the heap alone. -/
def looked (r : Except Failure α) (vm : Vm) : EStateM.Result Failure Vm α :=
  match r with
  | .ok x => .ok x vm
  | .error f => .error f vm

/-- A look at the same on both sides. -/
theorem Shows.look (h : d.Shows xs i j x) {a : Int → Vm.Action α} {g : Heap → Except Failure α}
    (ha : ∀ vm i, Vm.valueAt? i vm = .ok x vm → a i vm = looked (g vm.heap) vm)
    (hf : ∀ heap f, g heap = .error f → f.isMismatch = false)
    (hQ : ∀ heap y, g heap = .ok y → Q y xs) :
    d.Together xs Q (onMachine d.machine (a i)) (onMachine d.machine (a j)) := by
  refine together_onMachine fun vm hvm => ?_
  have hheap : ∀ p : Seat, (p.on xs vm).heap = vm.heap := fun _ => rfl
  rw [ha _ _ (h.left vm hvm), ha _ _ (h.right vm hvm), hheap, hheap]
  cases hg : g vm.heap with
  | ok y => exact .ok hvm (hQ _ y hg)
  | error f => exact .error hvm ⟨rfl, hf _ f hg⟩

/-- A look that always answers. -/
theorem Shows.see (h : d.Shows xs i j x) {a : Int → Vm.Action α} {g : Heap → α}
    (ha : ∀ vm i, Vm.valueAt? i vm = .ok x vm → a i vm = .ok (g vm.heap) vm) :
    d.Even xs (onMachine d.machine (a i)) (onMachine d.machine (a j)) :=
  h.look (g := fun heap => .ok (g heap)) ha (fun _ _ h => by cases h) fun _ _ _ => rfl

-- =================================================================== moving

theorem together_push (d : Pairing) (xs : List Value) (w : Value) :
    d.Together xs (fun _ ys => ys = xs ++ [w]) (push d.machine w) (push d.machine w) := by
  refine together_onMachine fun vm hvm => ?_
  rw [Seat.push_on, Seat.push_on]
  exact .ok hvm rfl

theorem together_pop (d : Pairing) (xs : List Value) (w : Value) :
    d.Together (xs ++ [w]) (fun _ ys => ys = xs) (onMachine d.machine (Vm.pop 1))
      (onMachine d.machine (Vm.pop 1)) := by
  refine together_onMachine fun vm hvm => ?_
  rw [Seat.pop_on, Seat.pop_on]
  exact .ok hvm rfl

/-- A reference takes the value on top. -/
theorem together_ref (d : Pairing) (xs : List Value) (w : Value) :
    d.Together (xs ++ [w]) (fun _ ys => ys = xs) (onMachine d.machine (Vm.ref registryIndex))
      (onMachine d.machine (Vm.ref registryIndex)) := by
  refine together_onMachine fun vm hvm => ?_
  by_cases hw : w = .nil
  · subst hw
    have href : ∀ p : Seat, Vm.ref registryIndex (p.on (xs ++ [.nil]) vm)
        = .ok Vm.nilRef (p.on xs vm) := fun p =>
      Vm.ref_nil (p.on_frames _ vm) (p.on_append xs [.nil] vm) (p.base_le_append xs)
    rw [href, href]
    exact .ok hvm rfl
  · have href : ∀ p : Seat, Vm.ref registryIndex (p.on (xs ++ [w]) vm)
        = .ok vm.nextRef (p.on xs (vm.afterRef [] w)) := by
      intro p
      rw [Vm.ref_apply _ (p.on_frames _ vm) (p.on_append xs [w] vm) (p.base_le_append xs) hw]
      have hfree : (p.on (xs ++ [w]) vm).machine.free (p.on (xs ++ [w]) vm).machine.registry
          = vm.machine.free vm.machine.registry := rfl
      unfold Vm.afterRef Vm.nextRef
      rw [hfree]
      cases vm.machine.free vm.machine.registry <;> rfl
    rw [href, href]
    refine .ok ⟨?_, ?_⟩ rfl
    · exact (Vm.afterRef_closed vm [] w).trans hvm.opened
    · exact (Vm.afterRef_registry vm [] w).trans hvm.registry

theorem Shows.pushCopy (h : d.Shows xs i j x) :
    d.Together xs (fun _ ys => ∃ w, ys = xs ++ [w]) (onMachine d.machine (Vm.pushCopy i))
      (onMachine d.machine (Vm.pushCopy j)) := by
  refine together_onMachine fun vm hvm => ?_
  unfold Vm.pushCopy
  rw [bind_ok (h.left vm hvm), bind_ok (h.right vm hvm)]
  cases x with
  | none =>
      obtain rfl := h.same rfl
      exact .error hvm ⟨rfl, rfl⟩
  | some w =>
      dsimp only
      rw [Seat.push_on, Seat.push_on]
      exact .ok hvm ⟨w, rfl⟩

/-- The same value is wrapped. -/
theorem Shows.wrap (h : d.Shows xs i j x) :
    d.Even xs (Bridge.wrap d.machine i) (Bridge.wrap d.machine j) := by
  refine h.pushCopy.bind ?_
  rintro _ _ ⟨w, rfl⟩
  refine (together_ref d xs w).bind ?_
  rintro r _ rfl
  refine even_apart fun u hu => ?_
  exact .inl ⟨u.wrappers.size, { u with wrappers := u.wrappers.push ⟨d.machine, .ofRef r⟩ },
    ⟨hu.machine, hu.vm, hu.reports⟩, fun _ => rfl⟩

/-- What a table has under a key comes on top. -/
theorem Shows.getKey {id : TableId} {key : Value} {c : Category}
    (h : d.Shows xs i j (some (.table id))) (hkey : key.category? = some c) :
    d.Together xs (fun _ ys => ∃ v, ys = xs ++ [v]) (onMachine d.machine (Vm.getKey i key))
      (onMachine d.machine (Vm.getKey j key)) := by
  refine together_onMachine fun vm hvm => ?_
  rw [Vm.getKey_apply (h.left vm hvm), Vm.getKey_apply (h.right vm hvm)]
  let v := (vm.heap.table id).get key
  have hon : ∀ p : Seat, (p.on xs vm).withSlots ((p.on xs vm).machine.slots ++ [v])
      = p.on (xs ++ [v]) vm := by
    intro p
    rw [Seat.on_slots, List.append_assoc]
    rfl
  cases hv : v.category? with
  | some c' =>
      have hfetch : ∀ p : Seat, Vm.fetch id key (p.on xs vm) = .ok c' (p.on (xs ++ [v]) vm) := by
        intro p
        rw [← hon p]
        exact Vm.fetch_eq hkey hv
      rw [hfetch, hfetch]
      exact .ok hvm ⟨v, rfl⟩
  | none =>
      have hfetch : ∀ p : Seat, Vm.fetch id key (p.on xs vm)
          = .error (.misuse (.cannotLive v.strayName)) (p.on (xs ++ [v]) vm) := by
        intro p
        rw [← hon p]
        exact Vm.fetch_stray hkey hv
      rw [hfetch, hfetch]
      exact .error hvm ⟨rfl, rfl⟩

/-- The next entry of a table takes the place of the key on top. -/
theorem Shows.next {id : TableId} {key : Value} (h : d.Shows (xs ++ [key]) i j (some (.table id))) :
    d.Together (xs ++ [key])
      (fun more ys => if more then ∃ key' v, ys = xs ++ [key', v] else ys = xs)
      (onMachine d.machine (Vm.next i)) (onMachine d.machine (Vm.next j)) := by
  refine together_onMachine fun vm hvm => ?_
  rw [d.left.next_on (h.left vm hvm), d.right.next_on (h.right vm hvm)]
  cases (vm.heap.table id).next key with
  | error e =>
      cases e with
      | key f => exact .error hvm ⟨rfl, rfl⟩
      | noPosition => exact .error hvm ⟨rfl, rfl⟩
  | ok entry =>
      cases entry with
      | none => exact .ok hvm rfl
      | some entry => exact .ok hvm ⟨entry.1.value, entry.2, rfl⟩

-- ==================================================================== blocks

/-- When a block stops, what it has left above the values that it began with goes. -/
theorem restoringTop_stops {k : MachineId} {s u : Session} {block : Action α} {e : Stop}
    {ys : List Value} (p : Seat) (hs : k < s.machines.size) (hu : k < u.machines.size)
    (hopen : (u.machine k).closed = false)
    (hb : block (s.seated k p xs) = .error e (u.seated k p ys)) :
    Bridge.restoringTop k block (s.seated k p xs) = .error e (u.seated k p (ys.take xs.length)) := by
  have hclosed : isClosed k (u.seated k p ys) = .ok false (u.seated k p ys) := by
    rw [isClosed_eq, seated_machine hu]
    exact congrArg (fun c => EStateM.Result.ok c (u.seated k p ys)) hopen
  unfold Bridge.restoringTop
  rw [bind_ok (getTop_seated hs p xs)]
  unfold onStop
  simp only [hb, bind_ok hclosed, Bool.not_false, if_true, bind_ok (getTop_seated hu p ys),
    List.length_append]
  by_cases hlt : xs.length < ys.length
  · have hset : onMachine k (Vm.setTop (((p.below ++ xs).length : Int) - p.base))
        (u.seated k p ys) = .ok () (u.seated k p (ys.take xs.length)) := by
      rw [onMachine_ok (by rw [seated_vm hu]; exact Seat.setTop_on p hlt.le), seated_withVm hu,
        withVm_vm]
    rw [List.length_append] at hset
    rw [if_pos (by omega), hset]
  · rw [if_neg (by omega), pure_apply, List.take_of_length_le (Nat.le_of_not_lt hlt)]

theorem Together.restoringTop {b b' : Action α} (hb : d.Together xs Q b b') :
    d.Together xs Q (Bridge.restoringTop d.machine b) (Bridge.restoringTop d.machine b') := by
  intro u hu
  have hlive := fun p : Seat => seated_live hu.machine hu.vm.opened p xs
  have hagree := hb u hu
  generalize hr : b (u.seated d.machine d.left xs) = r at hagree
  generalize hr' : b' (u.seated d.machine d.right xs) = r' at hagree
  cases hagree with
  | ok hv hx =>
      rw [Bridge.restoringTop_ok (hlive _) hr, Bridge.restoringTop_ok (hlive _) hr']
      exact .ok hv hx
  | error hv he =>
      rw [restoringTop_stops d.left hu.machine hv.machine hv.vm.opened hr,
        restoringTop_stops d.right hu.machine hv.machine hv.vm.opened hr']
      exact .error hv he

/-- A guard finds nothing wrong with what leaves the stack as it was. -/
theorem Together.guarded {R : Session → Session → Prop} {stop : Stop → Prop} {b b' : Action α}
    (hb : d.Together xs Q b b') (hidle : Idle R stop d.machine b)
    (hidle' : Idle R stop d.machine b') (what : String) :
    d.Together xs Q (Bridge.guardedIfChecking d.machine 0 what b)
      (Bridge.guardedIfChecking d.machine 0 what b') := by
  have hguard : ∀ (a : Action α), Idle R stop d.machine a → ∀ s, d.machine < s.machines.size →
      (s.machine d.machine).Live → Bridge.guardedIfChecking d.machine 0 what a s = a s := by
    intro a ha s hk hl
    exact Bridge.guardedIfChecking_transparent hl 0 what <|
      (ha s hk hl).mono (fun _ _ h => ⟨[], rfl, h⟩) fun _ _ h => h.2
  intro u hu
  have hsize : ∀ p : Seat, d.machine < (u.seated d.machine p xs).machines.size := fun p => by
    unfold seated
    rw [withVm_size]
    exact hu.machine
  have hlive := fun p : Seat => seated_live hu.machine hu.vm.opened p xs
  rw [hguard b hidle _ (hsize _) (hlive _), hguard b' hidle' _ (hsize _) (hlive _)]
  exact hb u hu

end Pairing

end StackBridge
