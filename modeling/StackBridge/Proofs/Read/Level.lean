import Mathlib.Order.Filter.AtTopBot.Basic
import StackBridge.Proofs.Read.Direct
import StackBridge.Proofs.Session.Answered

/-!
A read beside the direct one. Two actions run from one session, but the first has
certain slots on the stack of machine `k` and may need fuel, and the second takes no
notice of either. They are level when they come to the same: the same answer, with
the same slots on the stack, or the same failure (`Level`). Half way, the first may
have other slots there, and may have left some when it fails (`Above`).

A stack that a frame has begun on is all that machine actions need (`Stands`); what
they find there is said by `Shows`. What takes no notice of the slots of a machine
is aside (`Aside`) and level with itself.
-/

namespace StackBridge

namespace Session

open Bridge Direct Filter

variable {k : MachineId} {s t : Session} {l l' l₂ : List Value} {α β : Type}

-- ================================================================== stacks

/-- Machine `k` is there, and its running frame begins within certain slots. -/
structure Stands (k : MachineId) (l : List Value) (s : Session) : Prop where
  machine : k < s.machines.size
  framed : ∃ b fs, (s.machine k).frames = b :: fs ∧ b ≤ l.length

theorem Stands.append (h : Stands k l s) (ys : List Value) : Stands k (l ++ ys) s := by
  obtain ⟨hk, b, fs, hf, hb⟩ := h
  refine ⟨hk, b, fs, hf, ?_⟩
  rw [List.length_append]
  omega

theorem Stands.stays (h : Stands k l s) (ht : Stays k s t) : Stands k l t := by
  obtain ⟨hk, b, fs, hf, hb⟩ := h
  exact ⟨by rw [ht.size]; exact hk, b, fs, ht.frames.trans hf, hb⟩

/-- With certain slots, the value at an index is this one. -/
def Shows (k : MachineId) (l : List Value) (index : Int) (w : Value) (s : Session) : Prop :=
  Vm.valueAt? index ((s.vm k).withSlots l) = .ok (some w) ((s.vm k).withSlots l)

theorem frames_withSlots {b : Nat} {fs : List Nat} (hf : (s.machine k).frames = b :: fs)
    (l : List Value) : ((s.vm k).withSlots l).machine.frames = b :: fs := hf

theorem shows_top (h : Stands k l s) (w : Value) : Shows k (l ++ [w]) (-1) w s := by
  obtain ⟨_, b, fs, hf, hb⟩ := h
  exact Vm.valueAt?_behind (r := []) (frames_withSlots hf (l ++ [w])) rfl hb (by simp)

theorem shows_second (h : Stands k l s) (v w : Value) : Shows k (l ++ [v, w]) (-2) v s := by
  obtain ⟨_, b, fs, hf, hb⟩ := h
  exact Vm.valueAt?_second (frames_withSlots hf (l ++ [v, w])) rfl hb

/-- The absolute index of a value means it as long as nothing below goes. -/
theorem shows_abs {index : Int} {w : Value} (h : Stands k l s) (hw : Shows k l index w s) :
    ∃ i, Vm.absIndex index ((s.vm k).withSlots l) = .ok i ((s.vm k).withSlots l)
      ∧ ∀ t ys, Stays k s t → Shows k (l ++ ys) i w t := by
  obtain ⟨_, b, fs, hf, _⟩ := h
  obtain ⟨i, hi⟩ : ∃ i, Vm.absIndex index ((s.vm k).withSlots l)
      = .ok i ((s.vm k).withSlots l) := by
    have hf' : ((s.vm k).withSlots l).machine.frames = b :: fs := hf
    unfold Vm.absIndex
    split
    · exact ⟨index, rfl⟩
    · rw [bind_ok (Vm.base_eq hf')]
      exact ⟨_, rfl⟩
  refine ⟨i, hi, fun t ys ht => ?_⟩
  have hframes : ((t.vm k).withSlots (l ++ ys)).machine.frames
      = ((s.vm k).withSlots l).machine.frames := ht.frames
  exact Vm.absIndex_answered hi hw hframes ht.registry rfl

-- ============================================================ with slots

/-- A result with certain slots on a machine. -/
def resting (k : MachineId) (l : List Value) :
    EStateM.Result Stop Session α → EStateM.Result Stop Session α
  | .ok x t => .ok x (t.withSlots k l)
  | .error e t => .error e (t.withSlots k l)

/-- What an action on a machine does with certain slots there. -/
theorem onMachine_withSlots (hk : k < s.machines.size) {a : Vm.Action α} {x : α} {vm : Vm}
    (h : a ((s.vm k).withSlots l) = .ok x vm) :
    onMachine k a (s.withSlots k l) = .ok x (s.withVm k vm) := by
  have hvm : (s.withSlots k l).vm k = (s.vm k).withSlots l := vm_withVm hk _
  have h' : a ((s.withSlots k l).vm k) = .ok x vm := by
    rw [hvm]
    exact h
  rw [onMachine_ok h']
  exact congrArg _ (withVm_withVm s k _ vm)

theorem onMachine_withSlots_error (hk : k < s.machines.size) {a : Vm.Action α} {f : Failure}
    {vm : Vm} (h : a ((s.vm k).withSlots l) = .error f vm) :
    onMachine k a (s.withSlots k l) = .error (.failed f) (s.withVm k vm) := by
  have hvm : (s.withSlots k l).vm k = (s.vm k).withSlots l := vm_withVm hk _
  have h' : a ((s.withSlots k l).vm k) = .error f vm := by
    rw [hvm]
    exact h
  rw [onMachine_error h']
  exact congrArg _ (withVm_withVm s k _ vm)

theorem push_withSlots (hk : k < s.machines.size) (l : List Value) (v : Value) :
    push k v (s.withSlots k l) = .ok () (s.withSlots k (l ++ [v])) :=
  onMachine_withSlots hk (Vm.push_eq ((s.vm k).withSlots l) v)

theorem getTop_withSlots {b : Nat} {fs : List Nat} (hk : k < s.machines.size)
    (hf : (s.machine k).frames = b :: fs) (l : List Value) :
    getTop k (s.withSlots k l) = .ok ((l.length : Int) - b) (s.withSlots k l) :=
  onMachine_withSlots hk (Vm.getTop_eq (frames_withSlots hf l))

theorem pop_withSlots (h : Stands k l s) (w : Value) :
    onMachine k (Vm.pop 1) (s.withSlots k (l ++ [w])) = .ok () (s.withSlots k l) := by
  obtain ⟨hk, b, fs, hf, hb⟩ := h
  exact onMachine_withSlots hk (Vm.pop_one (frames_withSlots hf (l ++ [w])) rfl hb)

theorem isClosed_withSlots (hk : k < s.machines.size) (l : List Value) :
    isClosed k (s.withSlots k l) = .ok (s.machine k).closed (s.withSlots k l) := by
  rw [isClosed_eq, withSlots_machine hk]

-- =================================================================== aside

/-- An action that takes no notice of the slots of a machine, and leaves the machine
and every table but the registry. -/
structure Aside (k : MachineId) (a : Action α) : Prop where
  blind : ∀ s l, k < s.machines.size → a (s.withSlots k l) = resting k l (a s)
  stays : Keeps (Stays k) a

theorem aside_pure (x : α) : Aside k (pure x : Action α) := ⟨fun _ _ _ => rfl, Keeps.pure x⟩

theorem aside_fail (f : Failure) : Aside k (fail f : Action α) := ⟨fun _ _ _ => rfl, stays_fail f⟩

theorem Aside.bind {a : Action α} {f : α → Action β} (ha : Aside k a) (hf : ∀ x, Aside k (f x)) :
    Aside k (a >>= f) := by
  refine ⟨fun s l hk => ?_, ha.stays.bind fun x => (hf x).stays⟩
  have hsame := ha.blind s l hk
  have hstays := ha.stays s
  cases hr : a s with
  | ok x t =>
      rw [hr] at hsame hstays
      have hsize : t.machines.size = s.machines.size := hstays.size
      have hkt : k < t.machines.size := by
        rw [hsize]
        exact hk
      rw [bind_ok hsame, bind_ok hr]
      exact (hf x).blind t l hkt
  | error e t =>
      rw [hr] at hsame
      rw [bind_error hsame, bind_error hr]
      rfl

theorem aside_ofHost (r : Except HostFault α) : Aside k (ofHost r) := by
  cases r with
  | ok x => exact aside_pure x
  | error f => exact aside_fail _

theorem aside_individual (v : HostValue) : Aside k (individual v) := by
  have hnext : Aside k nextIndividual := ⟨fun _ _ _ => rfl, stays_nextIndividual⟩
  have hfloat : ∀ x : Double, Aside k (individualFloat x) := by
    intro x
    unfold individualFloat
    split
    · exact hnext.bind fun _ => aside_pure _
    · exact aside_pure _
  unfold individual
  split
  · exact (hfloat _).bind fun _ => aside_pure _
  · exact hnext.bind fun _ => aside_pure _
  · exact hnext.bind fun _ => aside_pure _
  · exact aside_pure _

theorem aside_decodeText (b : Bytes) : Aside k (decodeText b) := by
  refine ⟨fun s l _ => ?_, stays_decodeText b⟩
  have hencoding : (s.withSlots k l).encoding = s.encoding := rfl
  unfold decodeText
  rw [bind_ok (get_apply _), bind_ok (get_apply _), hencoding]
  cases s.encoding.decode b <;> rfl

theorem aside_describe (ctx : Context) (type : TypeExpr) :
    Aside k (describe ctx type "read") := by
  refine ⟨fun s l _ => ?_, stays_describe type⟩
  have hdescribed : (s.withSlots k l).described = s.described := rfl
  unfold describe
  rw [hdescribed]
  cases describeIn ctx.classes "read" type s.described with
  | error f noted => rfl
  | ok _ noted => cases type.hostType? <;> rfl

theorem aside_category (w : Value) : Aside k (category k w) := by
  refine ⟨fun s l hk => ?_, stays_category w⟩
  unfold category
  cases hw : w.category? with
  | none =>
      rw [onMachine_withSlots_error hk (Vm.categoryOf_stray hw _),
        onMachine_error (Vm.categoryOf_stray hw _), withVm_vm]
      rfl
  | some c =>
      rw [onMachine_withSlots hk (Vm.categoryOf_eq hw _), onMachine_look (Vm.categoryOf_eq hw _)]
      rfl

theorem aside_asInteger (ctx : Context) (host : HostType) (v : HostValue) :
    Aside k (asInteger ctx host v) := by
  unfold asInteger
  split
  · exact aside_pure _
  · exact aside_pure _
  · exact aside_ofHost _
  · exact aside_pure _

-- =================================================================== level

/-- What two runs come to with the same slots on the stack. A failure leaves nothing
above them unless the machine is closed. -/
def Level (k : MachineId) (l : List Value) (r r' : EStateM.Result Stop Session α) : Prop :=
  match r with
  | .ok x t => r' = .ok x (t.withSlots k l)
  | .error (.failed f) t => ∃ xs, ((t.machine k).closed = false → xs = [])
      ∧ r' = .error (.failed f) (t.withSlots k (l ++ xs))
  | .error .exhausted _ => True

/-- What two runs come to half way: an answer leaves other slots, and a failure may
leave more. -/
def Above (k : MachineId) (l l' : List Value) (r r' : EStateM.Result Stop Session α) : Prop :=
  match r with
  | .ok x t => r' = .ok x (t.withSlots k l')
  | .error (.failed f) t => ∃ xs, r' = .error (.failed f) (t.withSlots k (l ++ xs))
  | .error .exhausted _ => True

theorem level_resting (k : MachineId) (l : List Value) (r : EStateM.Result Stop Session α) :
    Level k l r (resting k l r) := by
  cases r with
  | ok x t => rfl
  | error e t =>
      cases e with
      | failed f =>
          refine ⟨[], fun _ => rfl, ?_⟩
          rw [List.append_nil]
          rfl
      | exhausted => trivial

theorem Level.above {r r' : EStateM.Result Stop Session α} {ys : List Value}
    (h : Level k (l ++ ys) r r') : Above k l (l ++ ys) r r' := by
  cases r with
  | ok x t => exact h
  | error e t =>
      cases e with
      | exhausted => trivial
      | failed f =>
          obtain ⟨xs, _, hr⟩ := h
          rw [List.append_assoc] at hr
          exact ⟨ys ++ xs, hr⟩

/-- One step after the other, with whatever fuel is enough for both. -/
theorem above_bind (l₁ : List Value) {a : Action α} {f : α → Action β} {a' : Nat → Action α}
    {f' : Nat → α → Action β} {s' : Session}
    (ha : ∀ᶠ fuel in atTop, Above k l l₁ (a s) (a' fuel s'))
    (hf : ∀ x t, a s = .ok x t →
      ∀ᶠ fuel in atTop, Above k l l₂ (f x t) (f' fuel x (t.withSlots k l₁))) :
    ∀ᶠ fuel in atTop, Above k l l₂ ((a >>= f) s) ((a' fuel >>= f' fuel) s') := by
  cases hr : a s with
  | ok x t =>
      filter_upwards [ha, hf x t hr] with fuel hfirst hsecond
      rw [hr] at hfirst
      have hfirst' : a' fuel s' = .ok x (t.withSlots k l₁) := hfirst
      rw [bind_ok hr, bind_ok hfirst']
      exact hsecond
  | error e t =>
      filter_upwards [ha] with fuel hfirst
      rw [hr] at hfirst
      rw [bind_error hr]
      cases e with
      | exhausted => trivial
      | failed f =>
          obtain ⟨xs, hfirst⟩ := hfirst
          rw [bind_error hfirst]
          exact ⟨xs, rfl⟩

/-- What is aside comes first on both sides. -/
theorem level_bind {a : Action α} {f : α → Action β} {f' : Nat → α → Action β} (ha : Aside k a)
    (hk : k < s.machines.size)
    (hf : ∀ x t, a s = .ok x t →
      ∀ᶠ fuel in atTop, Level k l (f x t) (f' fuel x (t.withSlots k l))) :
    ∀ᶠ fuel in atTop, Level k l ((a >>= f) s) ((a >>= f' fuel) (s.withSlots k l)) := by
  have hsame := ha.blind s l hk
  cases hr : a s with
  | ok x t =>
      rw [hr] at hsame
      filter_upwards [hf x t hr] with fuel hsecond
      rw [bind_ok hr, bind_ok hsame]
      exact hsecond
  | error e t =>
      rw [hr] at hsame
      filter_upwards with fuel
      rw [bind_error hr, bind_error hsame]
      exact level_resting k l (.error e t)

/-- Going on with what is aside. -/
theorem Level.bind {a a' : Action α} {f : α → Action β}
    {s' : Session} (h : Level k l (a s) (a' s')) (hk : ∀ x t, a s = .ok x t → k < t.machines.size)
    (hf : ∀ x, Aside k (f x)) : Level k l ((a >>= f) s) ((a' >>= f) s') := by
  cases hr : a s with
  | ok x t =>
      rw [hr] at h
      have h' : a' s' = .ok x (t.withSlots k l) := h
      rw [bind_ok hr, bind_ok h', (hf x).blind t l (hk x t hr)]
      exact level_resting k l (f x t)
  | error e t =>
      rw [hr] at h
      rw [bind_error hr]
      cases e with
      | exhausted => trivial
      | failed g =>
          obtain ⟨xs, hxs, h'⟩ := h
          rw [bind_error h']
          exact ⟨xs, hxs, rfl⟩

/-- With the slots that an open machine has, what is level is the same. -/
theorem Level.same {r r' : EStateM.Result Stop Session α}
    (hlevel : Level k (s.machine k).slots r r') (hstays : Stays k s (final r))
    (hopen : (s.machine k).closed = false) (hgoes : ∀ u, r ≠ .error .exhausted u) : r' = r := by
  have hslots : (final r).withSlots k (s.machine k).slots = final r := by
    rw [← hstays.slots]
    exact withSlots_self _ k
  have hclosed : ((final r).machine k).closed = false := hstays.closed.trans hopen
  cases r with
  | ok x u =>
      have hsame : r' = .ok x (u.withSlots k (s.machine k).slots) := hlevel
      rw [hsame]
      exact congrArg _ hslots
  | error e u =>
      cases e with
      | exhausted => exact absurd rfl (hgoes u)
      | failed f =>
          obtain ⟨xs, hxs, hsame⟩ := hlevel
          rw [hsame, hxs hclosed, List.append_nil]
          exact congrArg _ hslots

-- ================================================================== blocks

/-- Restoring the top drops what a failing block has left. -/
theorem level_restoringTop {a a' : Action α} (h : Stands k l s) (hstays : Stays k s (final (a s)))
    (ha : Above k l l (a s) (a' (s.withSlots k l))) :
    Level k l (a s) (restoringTop k a' (s.withSlots k l)) := by
  obtain ⟨hk, b, fs, hf, hb⟩ := h
  have htop : getTop k (s.withSlots k l) = .ok ((l.length : Int) - b) (s.withSlots k l) :=
    getTop_withSlots hk hf l
  unfold restoringTop
  rw [bind_ok htop]
  unfold onStop
  cases hr : a s with
  | ok x t =>
      rw [hr] at ha
      have ha' : a' (s.withSlots k l) = .ok x (t.withSlots k l) := ha
      rw [ha']
      exact rfl
  | error e t =>
      rw [hr] at ha hstays
      cases e with
      | exhausted => trivial
      | failed f =>
          obtain ⟨xs, ha'⟩ := ha
          have hkt : k < t.machines.size := by
            rw [show t.machines.size = s.machines.size from hstays.size]
            exact hk
          have hft : (t.machine k).frames = b :: fs := hstays.frames.trans hf
          simp only [ha', bind_apply, isClosed_withSlots hkt]
          cases hclosed : (t.machine k).closed with
          | true =>
              refine ⟨xs, fun hopen => ?_, rfl⟩
              rw [hclosed] at hopen
              cases hopen
          | false =>
              refine ⟨[], fun _ => rfl, ?_⟩
              rw [List.append_nil]
              simp only [Bool.not_false, if_true, bind_apply, getTop_withSlots hkt hft]
              by_cases hxs : xs = []
              · rw [hxs, List.append_nil, if_neg (by omega)]
                rfl
              · have hpos : 0 < xs.length := List.length_pos_iff.mpr hxs
                have hback : Vm.setTop ((l.length : Int) - b) ((t.vm k).withSlots (l ++ xs))
                    = .ok () ((t.vm k).withSlots l) :=
                  Vm.setTop_back (frames_withSlots hft (l ++ xs)) rfl hb
                rw [if_pos (by rw [List.length_append]; omega), onMachine_withSlots hkt hback]
                rfl

/-- A guard adds nothing. -/
theorem level_guarded {a a' : Action α} (what : String) (h : Stands k l s)
    (hstays : Stays k s (final (a s))) (ha : Level k l (a s) (a' (s.withSlots k l))) :
    Level k l (a s) (guardedIfChecking k 0 what a' (s.withSlots k l)) := by
  obtain ⟨hk, b, fs, hf, hb⟩ := h
  unfold guardedIfChecking
  rw [bind_ok (get_apply _)]
  by_cases hchecks : (s.withSlots k l).checks = true
  swap
  · rw [if_neg hchecks]
    exact ha
  rw [if_pos hchecks]
  have htop : getTop k (s.withSlots k l) = .ok ((l.length : Int) - b) (s.withSlots k l) :=
    getTop_withSlots hk hf l
  unfold guarded
  rw [bind_ok htop, bind_apply]
  unfold handling
  have hkt : k < (final (a s)).machines.size := by
    rw [hstays.size]
    exact hk
  have hft : ((final (a s)).machine k).frames = b :: fs := hstays.frames.trans hf
  cases hr : a s with
  | ok x t =>
      rw [hr] at ha hkt hft
      change k < t.machines.size at hkt
      have ha' : a' (s.withSlots k l) = .ok x (t.withSlots k l) := ha
      have htop' : getTop k (t.withSlots k l) = .ok ((l.length : Int) - b) (t.withSlots k l) :=
        getTop_withSlots hkt hft l
      simp only [ha', bind_apply, isClosed_withSlots hkt]
      cases (t.machine k).closed with
      | true => exact rfl
      | false =>
          simp only [Bool.false_eq_true, if_false, bind_apply, htop', Int.add_zero, ne_eq,
            not_true_eq_false, pure_apply]
          exact rfl
  | error e t =>
      rw [hr] at ha hkt hft
      change k < t.machines.size at hkt
      cases e with
      | exhausted => trivial
      | failed f =>
          obtain ⟨xs, hxs, ha'⟩ := ha
          simp only [ha', bind_apply, isClosed_withSlots hkt]
          cases hclosed : (t.machine k).closed with
          | true =>
              refine ⟨xs, fun hopen => ?_, rfl⟩
              rw [hclosed] at hopen
              cases hopen
          | false =>
              obtain rfl := hxs hclosed
              rw [List.append_nil]
              refine ⟨[], fun _ => rfl, ?_⟩
              rw [List.append_nil]
              have htop' : getTop k (t.withSlots k l)
                  = .ok ((l.length : Int) - b) (t.withSlots k l) := getTop_withSlots hkt hft l
              simp only [Bool.false_eq_true, if_false, bind_apply, htop', ne_eq,
                not_true_eq_false, pure_apply]
              rfl

end Session

end StackBridge
