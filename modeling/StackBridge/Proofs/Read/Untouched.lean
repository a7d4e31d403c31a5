import StackBridge.Bridge.Read
import StackBridge.Proofs.Read.Gains
import StackBridge.Session.Run

/-!
A read touches nothing. Reading a slot leaves the stack, the frames and every
table but the registry as they were, however deep it gets and wherever it
stops; a read of the top that pops it pops nothing else.

The plain shapes only look. The one machine action of theirs that writes to a
slot is turning a number into a string in place; it is reached only when the
category of the slot is a string's, and then there is no number to turn. The
compound shapes push one element after the other, and pop each one when it has
been read; where they stop half way their restoring blocks clear up.
-/

namespace StackBridge

namespace Bridge

open Session

variable {ctx : Context} {run : BlockId → Action Unit} {k : MachineId} {s s₀ : Session}
  {α : Type}

/-- Reading may also use up its fuel. -/
abbrev AnyStop : Stop → Prop := fun _ => True

/-- Nothing but `xs` has come on top, and the registry may have gained
references. -/
abbrev Sees (k : MachineId) : List Value → Session → Session → Prop := Leaves (GainsEntries k) k

/-- A part of a read that leaves the stack as it was. -/
abbrev ReadsOnly (k : MachineId) (a : Action α) : Prop := Idle (GainsEntries k) AnyStop k a

-- ============================================================ plain shapes

theorem readsOnly_guestOr (index : Int) (v : HostValue) : ReadsOnly k (guestOr k index v) :=
  (idle_onMachine (Vm.looks_guestAt? index)).bind fun _ => idle_pure _

theorem readsOnly_readNatural (index : Int) : ReadsOnly k (readNatural k index) := by
  refine (idle_onMachine (Vm.looks_categoryAt index)).bind fun _ => ?_
  refine (idle_onMachine (Vm.looks_valueAt? index)).bind fun v => ?_
  split
  · exact idle_pure _
  · exact idle_pure _
  · exact idle_pure _
  · exact readsOnly_guestOr _ _
  · exact idle_individual _
  · exact (idle_decodeText _).bind fun _ => idle_pure _
  · exact (idle_wrap index).bind fun _ => idle_pure _

theorem readsOnly_readDynamic (index : Int) (host : HostType) :
    ReadsOnly k (readDynamic k index host) := by
  unfold readDynamic
  split
  · exact (idle_wrap index).bind fun _ => idle_pure _
  · exact readsOnly_readNatural index

theorem readsOnly_readBoolean (index : Int) (host : HostType) :
    ReadsOnly k (readBoolean k index host) :=
  (idle_onMachine (Vm.looks_toBoolean index)).bind fun _ => idle_pure _

theorem readsOnly_asInteger (host : HostType) (v : HostValue) :
    ReadsOnly k (asInteger ctx host v) := by
  unfold asInteger
  split
  · exact idle_pure _
  · exact idle_pure _
  · exact idle_ofHost _
  · exact idle_pure _

theorem readsOnly_readInteger (index : Int) (host : HostType) :
    ReadsOnly k (readInteger ctx k index host) := by
  refine (idle_onMachine (Vm.looks_isInteger index)).bind fun b => ?_
  split
  · refine (idle_onMachine (Vm.looks_toInteger index)).bind fun n => ?_
    exact Idle.bind (readsOnly_guestOr index _) (readsOnly_asInteger host)
  · refine (idle_onMachine (Vm.looks_toNumber index)).bind fun x => ?_
    exact Idle.bind (idle_pure _) (readsOnly_asInteger host)

theorem readsOnly_readFloat (index : Int) (host : HostType) :
    ReadsOnly k (readFloat k index host) := by
  refine (idle_onMachine (Vm.looks_toNumber index)).bind fun x => ?_
  split
  · exact (idle_ofHost _).bind fun v => idle_individual v
  · exact idle_individual _

theorem readsOnly_readCallable (index : Int) (host : HostType) :
    ReadsOnly k (readCallable k index host) := by
  refine (idle_wrap index).bind fun id => ?_
  split <;> exact idle_pure _

-- ================================================================= strings

/-- A slot of the category of strings holds bytes, perhaps as a guest. -/
theorem valueAt?_of_string {vm vm' : Vm} {index : Int}
    (hc : Vm.categoryAt index vm = .ok .string vm') :
    ∃ v b, Vm.valueAt? index vm = .ok (some v) vm ∧ v.plain = .str b := by
  have hlook := (Vm.looks_valueAt? index).ends vm
  unfold Vm.categoryAt at hc
  rw [bind_apply] at hc
  cases hr : Vm.valueAt? index vm with
  | error f _ =>
      rw [hr] at hc
      cases hc
  | ok v vm₁ =>
      rw [hr] at hc hlook
      obtain rfl : vm₁ = vm := hlook
      cases v with
      | none => cases hc
      | some v =>
          refine ⟨v, ?_⟩
          cases v with
          | str b => exact ⟨b, rfl, rfl⟩
          | guest id role =>
              cases role with
              | str b => exact ⟨b, rfl, rfl⟩
              | int n => cases hc
              | float x => cases hc
              | stray n => cases hc
          | _ => cases hc

/-- Where the category is a string's, the bytes are read as they are: there is
no number to be turned into a string. -/
theorem readBytes_eq {index : Int} (hc : Vm.categoryAt index (s.vm k) = .ok .string (s.vm k)) :
    ∃ b, readBytes k index s = .ok b s := by
  obtain ⟨v, b, hv, hb⟩ := valueAt?_of_string hc
  have hbytes : Vm.toBytes? index (s.vm k) = .ok (some b) (s.vm k) := by
    unfold Vm.toBytes?
    simp only [bind_apply, hv, Option.map_some, hb, pure_apply]
  exact ⟨b, bind_ok (onMachine_look hbytes)⟩

theorem readBuffer_ends {index : Int} (host : HostType) (hk : k < s.machines.size)
    (hl : (s.machine k).Live)
    (hc : Vm.categoryAt index (s.vm k) = .ok .string (s.vm k)) :
    Ends (readBuffer k index host s) (fun _ t => Sees k [] s t)
      fun e t => AnyStop e ∧ Sees k [] s t := by
  obtain ⟨b, hb⟩ := readBytes_eq hc
  unfold readBuffer
  rw [bind_ok hb]
  refine (?_ : ReadsOnly k _) s hk hl
  split
  · exact (idle_decodeText b).bind fun _ => idle_pure _
  · exact readsOnly_guestOr index _
  · exact readsOnly_guestOr index _
  · exact idle_pure _
  · exact idle_pure _

theorem readTextPointer_ends {index : Int} (hk : k < s.machines.size) (hl : (s.machine k).Live)
    (hc : Vm.categoryAt index (s.vm k) = .ok .string (s.vm k)) :
    Ends (readTextPointer k index s) (fun _ t => Sees k [] s t)
      fun e t => AnyStop e ∧ Sees k [] s t := by
  obtain ⟨b, hb⟩ := readBytes_eq hc
  unfold readTextPointer
  rw [bind_ok hb]
  exact idle_pure _ s hk hl

-- ======================================================== compound shapes

/-- What is under a key comes on top. -/
theorem attempts_getKey (index : Int) (key : Value) :
    Attempts (GainsEntries k) AnyStop k (onMachine k (Vm.getKey index key)) := by
  intro s hk _
  have hlook : Ends (Vm.tableAt index (s.vm k)) (fun _ vm => vm = s.vm k) fun _ vm => vm = s.vm k :=
    (Vm.looks_tableAt index).ends (s.vm k)
  cases hid : Vm.tableAt index (s.vm k) with
  | error f vm =>
      rw [hid] at hlook
      obtain rfl : vm = s.vm k := hlook
      have hget : Vm.getKey index key (s.vm k) = .error f (s.vm k) := bind_error hid
      rw [onMachine_error hget, withVm_vm]
      exact ⟨trivial, [], Leaves.refl s⟩
  | ok id vm =>
      rw [hid] at hlook
      obtain rfl : vm = s.vm k := hlook
      have hget : Vm.getKey index key (s.vm k) = Vm.fetch id key (s.vm k) := bind_ok hid
      cases hkey : key.category? with
      | none =>
          have hfetch := hget.trans (bind_error (Vm.categoryOf_stray hkey (s.vm k)))
          rw [onMachine_error hfetch, withVm_vm]
          exact ⟨trivial, [], Leaves.refl s⟩
      | some c =>
          let v := (s.heap.table id).get key
          cases hv : v.category? with
          | none =>
              rw [onMachine_error (hget.trans (Vm.fetch_stray hkey hv))]
              exact ⟨trivial, [v], push_leaves hk v⟩
          | some c' =>
              rw [onMachine_ok (hget.trans (Vm.fetch_eq hkey hv))]
              exact ⟨v, push_leaves hk v⟩

/-- Reading the top and popping it. -/
theorem popping_ends {read : Action HostValue} (xs : List Value) {w : Value}
    (hread : ReadsOnly k read) (hk : k < s₀.machines.size) (hl : (s₀.machine k).Live)
    (h : Sees k (xs ++ [w]) s₀ s) :
    Ends (popping k read s) (fun _ t => Sees k xs s₀ t)
      fun e t => AnyStop e ∧ ∃ ys, Sees k ys s₀ t := by
  refine (hread.settles.after hk hl h).bind fun v t ht => ?_
  obtain ⟨u, hpop, hu⟩ := ht.pop xs hk hl
  rw [bind_ok hpop]
  exact hu

section

variable {readAt : Int → TypeExpr → Action HostValue}

theorem settles_readItems (hread : ∀ i t, ReadsOnly k (readAt i t)) (index : Int)
    (host : HostType) (i count : Nat) :
    Settles (GainsEntries k) AnyStop k (readItems readAt k index host i count) := by
  induction count generalizing i with
  | zero => exact (idle_pure _).settles
  | succ count ih =>
      intro s hk hl
      refine (attempts_getKey index _ s hk hl).bind ?_
      rintro _ t ⟨w, ht⟩
      refine (popping_ends [] (hread _ _) hk hl ht).bind fun v u hu => ?_
      refine ((ih (i + 1)).after hk hl hu).bind fun vs x hx => ?_
      exact hx

theorem readsOnly_readSequence (hread : ∀ i t, ReadsOnly k (readAt i t)) (index : Int)
    (host : HostType) : ReadsOnly k (readSequence readAt k index host) := by
  have hrest : ∀ (index : Int) (count : Nat), ReadsOnly k (do
      return asSequence host
        (← restoringTop k (readItems readAt k index host 0 count)) : Action HostValue) := by
    intro index count
    exact (settles_readItems hread index host 0 count).restoring.bind fun items => idle_pure _
  refine (idle_onMachine (Vm.looks_absIndex index)).bind fun index => ?_
  dsimp only
  by_cases hfixed : host.isFixedTuple = true
  · rw [if_pos hfixed]
    exact Idle.bind (idle_pure _) (hrest index)
  · rw [if_neg hfixed]
    exact Idle.bind (idle_onMachine (Vm.looks_rawLength index)) (hrest index)

/-- The next entry takes the place of the key on top. -/
theorem next_ends {index : Int} {key : Value} (hk : k < s₀.machines.size)
    (hl : (s₀.machine k).Live) (h : Sees k [key] s₀ s) :
    Ends (onMachine k (Vm.next index) s)
      (fun more t => if more then ∃ key' v, Sees k [key', v] s₀ t else Sees k [] s₀ t)
      fun e t => AnyStop e ∧ ∃ ys, Sees k ys s₀ t := by
  obtain ⟨_, b, fs, hf, hb⟩ := id hl
  have hf' : (s.vm k).machine.frames = b :: fs := h.frames.trans hf
  have hnone := h.withSlots hk []
  rw [List.append_nil] at hnone
  have hlook : Ends (Vm.tableAt index (s.vm k)) (fun _ vm => vm = s.vm k) fun _ vm => vm = s.vm k :=
    (Vm.looks_tableAt index).ends (s.vm k)
  cases hid : Vm.tableAt index (s.vm k) with
  | error f vm =>
      rw [hid] at hlook
      obtain rfl : vm = s.vm k := hlook
      have hnext : Vm.next index (s.vm k) = .error f (s.vm k) := bind_error hid
      rw [onMachine_error hnext, withVm_vm]
      exact ⟨trivial, [key], h⟩
  | ok id vm =>
      rw [hid] at hlook
      obtain rfl : vm = s.vm k := hlook
      cases hstep : (s.heap.table id).next key with
      | error e =>
          have hnext := Vm.next_apply hf' h.slots hb hid
          rw [show (s.vm k).heap.table id = s.heap.table id from rfl, hstep] at hnext
          cases e with
          | key f =>
              rw [onMachine_error hnext]
              exact ⟨trivial, [], hnone⟩
          | noPosition =>
              rw [onMachine_error hnext]
              exact ⟨trivial, [], hnone⟩
      | ok entry =>
          cases entry with
          | none =>
              obtain ⟨hdone, hleft⟩ := h.next_done hk hl hid hstep
              rw [hdone]
              exact hleft
          | some entry =>
              obtain ⟨hmore, ht⟩ := h.next_more hk hl hid hstep
              rw [hmore]
              exact ⟨_, _, ht⟩

/-- The entries after the key on top, which goes with the last of them. -/
theorem readEntries_ends (hread : ∀ i t, ReadsOnly k (readAt i t)) (index : Int)
    (keyType valueType : TypeExpr) (fuel : Nat) (entries : List (HostValue × HostValue))
    (hk : k < s₀.machines.size) (hl : (s₀.machine k).Live) {key : Value}
    (h : Sees k [key] s₀ s) :
    Ends (readEntries readAt k index keyType valueType fuel entries s)
      (fun _ t => Sees k [] s₀ t) fun e t => AnyStop e ∧ ∃ ys, Sees k ys s₀ t := by
  induction fuel generalizing entries s key with
  | zero => exact ⟨trivial, [key], h⟩
  | succ fuel ih =>
      refine (next_ends hk hl h).bind fun more t ht => ?_
      cases more with
      | false => exact ht
      | true =>
          obtain ⟨key', v, ht⟩ := ht
          refine ((hread (-1) valueType).settles.after hk hl ht).bind fun value u hu => ?_
          refine ((hread (-2) keyType).settles.after hk hl hu).bind fun key x hx => ?_
          obtain ⟨y, hpop, hy⟩ := Leaves.pop [key'] hx hk hl
          rw [bind_ok hpop]
          refine ((idle_ofHost _).settles.after hk hl hy).bind fun entries z hz => ?_
          exact ih entries hz

theorem readsOnly_readMapping (hread : ∀ i t, ReadsOnly k (readAt i t)) (fuel : Nat) (index : Int)
    (host : HostType) : ReadsOnly k (readMapping readAt fuel k index host) := by
  refine (idle_onMachine (Vm.looks_absIndex index)).bind fun index => ?_
  refine (Settles.restoring ?_).bind fun entries => ?_
  · intro s hk hl
    rw [bind_ok (push_eq s k .nil)]
    exact readEntries_ends hread index _ _ fuel [] hk hl (push_leaves hk .nil)
  · split <;> exact idle_pure _

theorem settles_readFields (hread : ∀ i t, ReadsOnly k (readAt i t)) (index : Int)
    (fields : List (FieldSpec × TypeExpr)) :
    Settles (GainsEntries k) AnyStop k (readFields readAt k index fields) := by
  induction fields with
  | nil => exact (idle_pure _).settles
  | cons field fields ih =>
      unfold readFields
      split
      · exact ih
      · intro s hk hl
        refine (attempts_getKey index _ s hk hl).bind ?_
        rintro c t ⟨w, ht⟩
        split
        · obtain ⟨u, hpop, hu⟩ := Leaves.pop [] ht hk hl
          rw [bind_ok hpop]
          exact ih.after hk hl hu
        · refine (popping_ends [] (hread _ _) hk hl ht).bind fun v u hu => ?_
          exact (ih.after hk hl hu).bind fun vs x hx => hx

theorem readsOnly_readRecord (hread : ∀ i t, ReadsOnly k (readAt i t)) (index : Int)
    (host : HostType) : ReadsOnly k (readRecord ctx readAt k index host) := by
  refine (idle_onMachine (Vm.looks_absIndex index)).bind fun index => ?_
  refine (Settles.restoring ?_).bind fun given => idle_ofHost _
  exact (idle_ofHost _).settles.bind fun fields => settles_readFields hread index fields

/-- Every shape only reads, if reading a part does and strings are only asked
for where they are. -/
theorem readShape_ends (hread : ∀ i t, ReadsOnly k (readAt i t)) (fuel : Nat) (index : Int)
    (host : HostType) (hk : k < s.machines.size) (hl : (s.machine k).Live)
    (hc : host.category = .string → Vm.categoryAt index (s.vm k) = .ok .string (s.vm k)) :
    Ends (readShape ctx readAt fuel k index host s) (fun _ t => Sees k [] s t)
      fun e t => AnyStop e ∧ Sees k [] s t := by
  unfold readShape
  unfold HostType.category at hc
  cases hshape : host.shape with
  | dynamic => exact readsOnly_readDynamic index host s hk hl
  | absent => exact idle_pure _ s hk hl
  | boolean => exact readsOnly_readBoolean index host s hk hl
  | integer => exact readsOnly_readInteger index host s hk hl
  | float => exact readsOnly_readFloat index host s hk hl
  | textPointer => exact readTextPointer_ends hk hl (hc (by rw [hshape]; rfl))
  | buffer => exact readBuffer_ends host hk hl (hc (by rw [hshape]; rfl))
  | mapping => exact readsOnly_readMapping hread fuel index host s hk hl
  | record => exact readsOnly_readRecord hread index host s hk hl
  | sequence => exact readsOnly_readSequence hread index host s hk hl
  | callable => exact readsOnly_readCallable index host s hk hl

end

-- ================================================================== reads

/-- A handler that raises: any but one of the program's own. -/
def Raises : Handler → Prop
  | .custom _ _ => False
  | _ => True

theorem readsOnly_labelOf (c : Category) : ReadsOnly k (labelOf c) := by
  unfold labelOf
  cases c.typeName? with
  | some l => exact idle_pure l
  | none => exact idle_fail _

/-- A handler that raises does nothing before. -/
theorem readsOnly_handle {h : Handler} (hh : Raises h) (actual expected : Category) :
    ReadsOnly k (handle ctx run k h actual expected) := by
  cases h with
  | standard =>
      refine (readsOnly_labelOf expected).bind fun wanted => ?_
      refine (readsOnly_labelOf actual).bind fun got => ?_
      exact idle_onMachine (Vm.looks_throw trivial)
  | strict => exact idle_fail _
  | badArgument position function =>
      refine (readsOnly_labelOf expected).bind fun wanted => ?_
      refine (readsOnly_labelOf actual).bind fun got => ?_
      exact idle_onMachine (Vm.looks_throw trivial)
  | custom block result => exact absurd hh not_false

theorem readsOnly_readHost {readAt : Int → TypeExpr → Action HostValue}
    (hread : ∀ i t, ReadsOnly k (readAt i t)) {h : Handler} (hh : Raises h) (fuel : Nat)
    (index : Int) (host : HostType) :
    ReadsOnly k (readHost ctx run readAt fuel k index host h) := by
  intro s hk hl
  unfold readHost
  by_cases hdyn : host.shape = .dynamic
  · rw [if_pos hdyn]
    refine readShape_ends hread fuel index host hk hl fun hc => ?_
    rw [HostType.category, hdyn] at hc
    cases hc
  · rw [if_neg hdyn]
    have hlook := (Vm.looks_categoryAt index).ends (s.vm k)
    cases hc : Vm.categoryAt index (s.vm k) with
    | error f vm =>
        rw [hc] at hlook
        obtain rfl : vm = s.vm k := hlook
        rw [bind_error (onMachine_error hc), withVm_vm]
        exact ⟨trivial, Leaves.refl s⟩
    | ok actual vm =>
        rw [hc] at hlook
        obtain rfl : vm = s.vm k := hlook
        rw [bind_ok (onMachine_look hc)]
        by_cases hne : actual ≠ host.category
        · rw [if_pos hne]
          exact readsOnly_handle hh _ _ s hk hl
        · rw [if_neg hne]
          refine readShape_ends hread fuel index host hk hl fun hstring => ?_
          rw [Decidable.not_not.mp hne, hstring] at hc
          exact hc

/-- A read to any depth leaves the stack as it was. -/
theorem readsOnly_readAs (ctx : Context) (run : BlockId → Action Unit) {h : Handler}
    (hh : Raises h) (fuel depth : Nat) (index : Int) (t : TypeExpr) :
    ReadsOnly k (readAs ctx run fuel k h depth index t) := by
  induction depth generalizing index t with
  | zero => exact idle_fail _
  | succ depth ih =>
      refine (idle_describe ctx t "read").bind fun host => ?_
      exact (readsOnly_readHost ih hh fuel index host).guarded _

/-- Reading the top and popping it: the last slot goes if that succeeds, and
none if it does not. -/
theorem popValue_ends {h : Handler} (hh : Raises h) (fuel : Nat) (t : TypeExpr)
    (hk : k < s.machines.size) (hl : (s.machine k).Live) :
    Ends (popValue ctx run fuel k h t s)
      (fun _ s' => (∃ w, (s.machine k).slots = (s'.machine k).slots ++ [w])
        ∧ (s'.machine k).frames = (s.machine k).frames ∧ GainsEntries k s s')
      fun _ s' => Sees k [] s s' := by
  have hread := readsOnly_readAs ctx run hh fuel readLimit (-1) t s hk hl
  obtain ⟨hopen, b, fs, hf, hb⟩ := hl
  refine Ends.bind (hread.mono (fun _ _ h => h) fun _ _ h => h.2) fun v s' hs' => ?_
  have hf' : (s'.vm k).machine.frames = b :: fs := hs'.frames.trans hf
  have hslots : (s'.vm k).machine.slots = (s.machine k).slots :=
    hs'.slots.trans (List.append_nil _)
  by_cases hempty : (s.machine k).slots.length ≤ b
  · -- the frame has no slot that could be popped
    have hshort : ((s'.vm k).machine.slots.length : Int) - b < 1 := by
      rw [hslots]
      omega
    rw [bind_error (onMachine_error (Vm.pop_short hf' hshort)), withVm_vm]
    exact hs'
  · have hne : (s.machine k).slots ≠ [] := by
      intro hnil
      rw [hnil, List.length_nil] at hempty
      omega
    have hlast := List.dropLast_append_getLast hne
    have hpop := Vm.pop_one hf' (hslots.trans hlast.symm) (by rw [List.length_dropLast]; omega)
    rw [bind_ok (onMachine_ok hpop)]
    have hk' : k < s'.machines.size := by rw [hs'.size]; exact hk
    refine ⟨⟨(s.machine k).slots.getLast hne, ?_⟩, ?_, ?_⟩
    · rw [withVm_machine hk']
      exact hlast.symm
    · rw [withVm_machine hk']
      exact hs'.frames
    · exact hs'.rest.trans (slots_unseen s' _)

/-- A machine with a reference that has been given back twice and handed out
again, for the bytes of `a`, and with those of `b` on top. -/
def twiceGivenBack : Session :=
  let setup : Vm.Action Unit := do
    Vm.push (.int 7)
    let r ← Vm.ref registryIndex
    Vm.unref registryIndex r
    Vm.unref registryIndex r
    Vm.push (.str [97])
    let _ ← Vm.ref registryIndex
    Vm.push (.str [98])
  final (onMachine 0 setup (Session.start 1 false))

end Bridge

end StackBridge
