import StackBridge.Machine.Frames
import StackBridge.Machine.Rendering
import StackBridge.Proofs.Action

/-!
Machine actions that only look. Each leaves the machine and the heap exactly
as they were, whatever the index and whether it answers or fails, and if it
fails it is with a failure of its own (`Failure.Bare`), not with a value of the
program's (`Failure.Plain`). What only looks keeps every reflexive relation
(`Looks.keeps`), so that no other development has to open these actions again.
-/

namespace StackBridge

/-- A failure that carries no machine value but a byte string, and is not about
the depth of the stack. -/
def Failure.Plain : Failure → Prop
  | .machine (.str _) _ => True
  | .machine _ _ => False
  | .imbalance _ => False
  | .stated .imbalance _ => False
  | _ => True

/-- A failure of the machine's own: a misuse, a fault of the host, or a byte
string that was raised. -/
def Failure.Bare : Failure → Prop
  | .misuse _ | .host _ | .machine (.str _) _ => True
  | _ => False

theorem Failure.Bare.plain {f : Failure} (h : f.Bare) : f.Plain := by
  cases f with
  | machine v cause =>
      cases v with
      | str b => trivial
      | _ => exact h.elim
  | misuse m => trivial
  | host fault => trivial
  | _ => exact h.elim

theorem Failure.plain_ofHost (f : HostFault) : (Failure.ofHost f).Plain := by
  cases f <;> trivial

namespace Vm

variable {α β : Type}

/-- Leaves everything as it is, and fails with a failure of its own. -/
abbrev Looks (a : Action α) : Prop := Carries Eq Failure.Bare a

theorem Looks.carries {a : Action α} (ha : Looks a) {R : Vm → Vm → Prop} [Std.Refl R] :
    Carries R Failure.Bare a :=
  fun vm => (ha vm).mono (fun _ _ h => h ▸ Std.Refl.refl vm)
    fun _ _ h => ⟨h.1 ▸ Std.Refl.refl vm, h.2⟩

theorem Looks.keeps {a : Action α} (ha : Looks a) {R : Vm → Vm → Prop} [Std.Refl R] :
    Keeps R a :=
  ha.carries.keeps

/-- An answer is given, or a failure, on the same machine. -/
theorem Looks.ends {a : Action α} (ha : Looks a) (vm : Vm) :
    Ends (a vm) (fun _ vm' => vm' = vm) fun _ vm' => vm' = vm :=
  (ha vm).mono (fun _ _ h => h.symm) fun _ _ h => h.1.symm

theorem Looks.bind {a : Action α} {f : α → Action β} (ha : Looks a) (hf : ∀ x, Looks (f x)) :
    Looks (a >>= f) :=
  Carries.bind ha hf

theorem looks_pure (x : α) : Looks (pure x : Action α) := fun _ => rfl

theorem looks_fail (m : Misuse) : Looks (fail m : Action α) := fun _ => ⟨rfl, trivial⟩

theorem looks_throw {f : Failure} (hf : f.Bare) : Looks (throw f : Action α) :=
  fun _ => ⟨rfl, hf⟩

theorem looks_getMachine : Looks getMachine := fun _ => rfl

theorem looks_getHeap : Looks getHeap := fun _ => rfl

-- ================================================================ indices

theorem looks_base : Looks base := by
  refine Looks.bind Carries.get fun vm => ?_
  cases vm.machine.frames with
  | nil => exact looks_throw trivial
  | cons b fs => exact looks_pure b

theorem looks_slot (index : Int) : Looks (slot index) := by
  unfold slot
  split
  · refine looks_base.bind fun b => looks_getMachine.bind fun m => ?_
    split
    · exact looks_pure _
    · exact looks_fail _
  · split
    · refine looks_getMachine.bind fun m => looks_base.bind fun b => ?_
      split
      · exact looks_fail _
      · exact looks_pure _
    · exact looks_fail _

theorem looks_valueAt? (index : Int) : Looks (valueAt? index) := by
  unfold valueAt?
  split
  · exact looks_getMachine.bind fun m => looks_pure _
  · split
    · exact looks_base.bind fun b => looks_getMachine.bind fun m => looks_pure _
    · exact (looks_slot index).bind fun p => looks_getMachine.bind fun m => looks_pure _

theorem looks_categoryOf (v : Value) : Looks (categoryOf v) := by
  unfold categoryOf
  cases v.category? with
  | some c => exact looks_pure c
  | none => exact looks_fail _

theorem looks_categoryAt (index : Int) : Looks (categoryAt index) := by
  refine (looks_valueAt? index).bind fun v => ?_
  cases v with
  | none => exact looks_pure _
  | some v => exact looks_categoryOf v

theorem looks_tableAt (index : Int) : Looks (tableAt index) := by
  refine (looks_valueAt? index).bind fun v => ?_
  split
  · exact looks_pure _
  · exact (looks_categoryOf _).bind fun c => looks_fail _
  · exact looks_fail _

theorem looks_absIndex (index : Int) : Looks (absIndex index) := by
  unfold absIndex
  split
  · exact looks_pure _
  · exact looks_base.bind fun b => looks_getMachine.bind fun m => looks_pure _

theorem looks_getTop : Looks getTop :=
  looks_base.bind fun _ => looks_getMachine.bind fun _ => looks_pure _

theorem looks_checkStack (count : Int) : Looks (checkStack count) :=
  looks_getMachine.bind fun _ => looks_pure _

-- ================================================================= access

theorem looks_isNumber (index : Int) : Looks (isNumber index) := by
  refine (looks_valueAt? index).bind fun v => ?_
  split
  · exact looks_pure _
  · exact (looks_categoryOf _).bind fun c => looks_pure _
  · exact looks_pure _

theorem looks_isInteger (index : Int) : Looks (isInteger index) := by
  refine (looks_valueAt? index).bind fun v => ?_
  split
  · exact looks_pure _
  · exact looks_pure _

theorem looks_isString (index : Int) : Looks (isString index) :=
  (looks_categoryAt index).bind fun _ => looks_pure _

theorem looks_toBoolean (index : Int) : Looks (toBoolean index) := by
  refine (looks_valueAt? index).bind fun v => ?_
  split <;> exact looks_pure _

theorem looks_toInteger (index : Int) : Looks (toInteger index) := by
  refine (looks_valueAt? index).bind fun v => ?_
  cases numeralOf? v with
  | some n => exact looks_pure _
  | none => exact looks_pure _

theorem looks_toNumber (index : Int) : Looks (toNumber index) := by
  refine (looks_valueAt? index).bind fun v => ?_
  cases numeralOf? v with
  | none => exact looks_pure _
  | some n =>
      cases n with
      | float x => exact looks_pure x
      | int n =>
          dsimp only
          cases Double.ofInt? n with
          | some x => exact looks_pure x
          | none => exact looks_throw trivial

theorem looks_toUserdata (index : Int) : Looks (toUserdata index) := by
  refine (looks_valueAt? index).bind fun v => ?_
  split
  · exact looks_getHeap.bind fun _ => looks_pure _
  · exact looks_pure _

theorem looks_guestAt? (index : Int) : Looks (guestAt? index) := by
  refine (looks_valueAt? index).bind fun v => ?_
  cases v with
  | some v => exact looks_getHeap.bind fun _ => looks_pure _
  | none => exact looks_pure _

theorem looks_rawEqualValues (v w : Value) : Looks (rawEqualValues v w) :=
  (looks_categoryOf v).bind fun _ => (looks_categoryOf w).bind fun _ => looks_pure _

theorem looks_rawEqual (i j : Int) : Looks (rawEqual i j) := by
  refine (looks_valueAt? i).bind fun v => (looks_valueAt? j).bind fun w => ?_
  split
  · exact looks_rawEqualValues _ _
  · exact looks_pure _

theorem looks_rawLength (index : Int) : Looks (rawLength index) := by
  refine (looks_valueAt? index).bind fun v => ?_
  split
  · exact looks_getHeap.bind fun _ => looks_pure _
  · exact looks_pure _
  · exact looks_pure _

-- ================================================================== frames

theorem looks_calleePosition (args : Int) : Looks (calleePosition args) := by
  unfold calleePosition
  split
  · exact looks_fail _
  · refine looks_base.bind fun b => looks_getMachine.bind fun m => ?_
    dsimp only
    split
    · exact looks_fail _
    · exact looks_pure _

theorem looks_results (count : Int) : Looks (results count) := by
  refine looks_getTop.bind fun top => ?_
  split
  · exact looks_fail _
  · exact looks_getMachine.bind fun m => looks_pure _

-- =============================================================== rendering

/-- The content of a value of a category in words. -/
def content (options : RenderOptions) (c : Category) (v : Value) : String :=
  match v.plain with
  | .nil => "nil"
  | .bool b => if b then "true" else "false"
  | .int n => toString n
  | .float x => x.text
  | .str b => renderBytes options.maxString b
  | _ => c.label

section

variable {vm : Vm} {index : Int} {v : Value} {c : Category}

theorem isInteger_eq (hi : valueAt? index vm = .ok (some v) vm) :
    isInteger index vm = .ok (match v.plain with | .int _ => true | _ => false) vm := by
  unfold isInteger
  rw [bind_ok hi]
  dsimp only [Option.map_some]
  cases v.plain <;> rfl

theorem toBoolean_eq {b : Bool} (hi : valueAt? index vm = .ok (some (.bool b)) vm) :
    toBoolean index vm = .ok b vm := by
  unfold toBoolean
  rw [bind_ok hi]
  cases b <;> rfl

theorem toInteger_plain {n : Int} (hi : valueAt? index vm = .ok (some v) vm) (hv : v.plain = .int n) :
    toInteger index vm = .ok n vm := by
  unfold toInteger numeralOf?
  rw [bind_ok hi, Option.map_some, hv]
  rfl

theorem toNumber_plain {x : Double} (hi : valueAt? index vm = .ok (some v) vm)
    (hv : v.plain = .float x) : toNumber index vm = .ok x vm := by
  unfold toNumber numeralOf?
  rw [bind_ok hi, Option.map_some, hv]
  rfl

/-- The bytes of a string slot are read without changing it. -/
theorem toBytes?_plain {b : Bytes} (hi : valueAt? index vm = .ok (some v) vm)
    (hv : v.plain = .str b) : toBytes? index vm = .ok (some b) vm := by
  unfold toBytes?
  dsimp only
  rw [bind_ok hi, Option.map_some, hv]
  rfl

/-- By its category a slot is accessed in a way that changes nothing. -/
theorem slotContent_eq (options : RenderOptions) (hi : valueAt? index vm = .ok (some v) vm)
    (hc : v.category? = some c) : slotContent options index c vm = .ok (content options c v) vm := by
  have hint : ∀ n, v.plain = .int n → slotContent options index .number vm
      = .ok (content options .number v) vm := by
    intro n hv
    have hinteger := isInteger_eq hi
    rw [hv] at hinteger
    unfold slotContent content
    dsimp only
    rw [bind_ok hinteger, if_pos rfl, bind_ok (toInteger_plain hi hv), hv]
    rfl
  have hfloat : ∀ x, v.plain = .float x → slotContent options index .number vm
      = .ok (content options .number v) vm := by
    intro x hv
    have hinteger := isInteger_eq hi
    rw [hv] at hinteger
    unfold slotContent content
    dsimp only
    rw [bind_ok hinteger, if_neg Bool.false_ne_true, bind_ok (toNumber_plain hi hv), hv]
    rfl
  have hstr : ∀ b, v.plain = .str b → slotContent options index .string vm
      = .ok (content options .string v) vm := by
    intro b hv
    unfold slotContent content
    dsimp only
    rw [bind_ok (toBytes?_plain hi hv), hv]
    rfl
  cases v with
  | bool b =>
      cases hc
      unfold slotContent
      dsimp only
      rw [bind_ok (toBoolean_eq hi)]
      rfl
  | int n =>
      cases hc
      exact hint n rfl
  | float x =>
      cases hc
      exact hfloat x rfl
  | str b =>
      cases hc
      exact hstr b rfl
  | guest id role =>
      cases role with
      | int n =>
          cases hc
          exact hint n rfl
      | float x =>
          cases hc
          exact hfloat x rfl
      | str b =>
          cases hc
          exact hstr b rfl
      | stray name => cases hc
  | _ =>
      cases hc
      rfl

end

/-- Describing a slot is describing its value. -/
theorem renderSlot_eq (options : RenderOptions) (index : Int) :
    renderSlot options index = do
      match ← valueAt? index with
      | none => return colored options .absent Category.absent.label
      | some v =>
        let c ← categoryOf v
        return colored options c (content options c v) := by
  funext vm
  unfold renderSlot categoryAt
  have hlook := (looks_valueAt? index).ends vm
  cases hi : valueAt? index vm with
  | error f vm' => simp only [bind_apply, hi]
  | ok v vm' =>
      rw [hi] at hlook
      obtain rfl : vm' = vm := hlook
      rw [bind_assoc, bind_ok hi, bind_ok hi]
      cases v with
      | none => rfl
      | some v =>
          dsimp only
          unfold categoryOf
          cases hc : v.category? with
          | none => rfl
          | some c =>
              dsimp only
              rw [pure_bind, pure_bind, bind_ok (slotContent_eq options hi hc)]

theorem looks_renderSlot (options : RenderOptions) (index : Int) :
    Looks (renderSlot options index) := by
  rw [renderSlot_eq]
  refine (looks_valueAt? index).bind fun v => ?_
  cases v with
  | none => exact looks_pure _
  | some v => exact (looks_categoryOf v).bind fun _ => looks_pure _

theorem looks_renderLines (options : RenderOptions) (depth : Int) (count : Nat) :
    Looks (renderLines options depth count) := by
  induction count with
  | zero => exact looks_pure _
  | succ i ih =>
      refine (looks_categoryAt _).bind fun c => (looks_renderSlot options _).bind fun text => ?_
      exact ih.bind fun lines => looks_pure _

theorem looks_renderStack (options : RenderOptions) : Looks (renderStack options) := by
  refine looks_getTop.bind fun depth => ?_
  split
  · exact looks_pure _
  · exact (looks_renderLines _ _ _).bind fun _ => looks_pure _

end Vm

end StackBridge
