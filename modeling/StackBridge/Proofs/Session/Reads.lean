import StackBridge.Bridge.Read
import StackBridge.Proofs.Session.Values

/-!
Laws hold of reads where they hold of their parts. A read runs blocks where a
handler of the program's own does, at any depth.
-/

namespace StackBridge

namespace Session

open Bridge Law

variable {L : Law} {ctx : Context} {k : MachineId}

section

variable [Wraps L]

-- ============================================================ plain shapes

theorem holds_guestOr (index : Int) (v : HostValue) : L.Holds fun _ => guestOr k index v :=
  (holds_look (Vm.looks_guestAt? index)).bind fun _ => .pure _

theorem holds_readNatural (hk : L.Valid k) (index : Int) :
    L.Holds fun _ => readNatural k index := by
  refine (holds_look (Vm.looks_categoryAt index)).bind fun _ => ?_
  refine (holds_look (Vm.looks_valueAt? index)).bind fun v => ?_
  split
  · exact .pure _
  · exact .pure _
  · exact .pure _
  · exact holds_guestOr _ _
  · exact holds_individual _
  · exact (holds_decodeText _).bind fun _ => .pure _
  · exact (Wraps.wrap index hk).bind fun _ => .pure _

theorem holds_readDynamic (hk : L.Valid k) (index : Int) (host : HostType) :
    L.Holds fun _ => readDynamic k index host := by
  unfold readDynamic
  split
  · exact (Wraps.wrap index hk).bind fun _ => .pure _
  · exact holds_readNatural hk index

theorem holds_readBoolean (index : Int) (host : HostType) :
    L.Holds fun _ => readBoolean k index host :=
  (holds_look (Vm.looks_toBoolean index)).bind fun _ => .pure _

theorem holds_asInteger (host : HostType) (v : HostValue) :
    L.Holds fun _ => Bridge.asInteger ctx host v := by
  unfold asInteger
  split
  · exact .pure _
  · exact .pure _
  · exact holds_ofHost _
  · exact .pure _

theorem holds_readInteger (index : Int) (host : HostType) :
    L.Holds fun _ => Bridge.readInteger ctx k index host := by
  refine (holds_look (Vm.looks_isInteger index)).bind fun b => ?_
  split
  · refine (holds_look (Vm.looks_toInteger index)).bind fun n => ?_
    exact Law.Holds.bind (holds_guestOr index _) (holds_asInteger host)
  · refine (holds_look (Vm.looks_toNumber index)).bind fun x => ?_
    exact Law.Holds.bind (.pure _) (holds_asInteger host)

theorem holds_readFloat (index : Int) (host : HostType) :
    L.Holds fun _ => Bridge.readFloat k index host := by
  refine (holds_look (Vm.looks_toNumber index)).bind fun x => ?_
  split
  · exact (holds_ofHost _).bind fun v => holds_individual v
  · exact holds_individual _

theorem holds_readBytes (hk : L.Valid k) (index : Int) : L.Holds fun _ => readBytes k index :=
  (holds_primitive hk (.toBytes? index)).bind fun _ => .pure _

theorem holds_readBuffer (hk : L.Valid k) (index : Int) (host : HostType) :
    L.Holds fun _ => readBuffer k index host := by
  refine (holds_readBytes hk index).bind fun b => ?_
  split
  · exact (holds_decodeText b).bind fun _ => .pure _
  · exact holds_guestOr index _
  · exact holds_guestOr index _
  · exact .pure _
  · exact .pure _

theorem holds_readTextPointer (hk : L.Valid k) (index : Int) :
    L.Holds fun _ => readTextPointer k index :=
  (holds_readBytes hk index).bind fun _ => .pure _

theorem holds_readCallable (hk : L.Valid k) (index : Int) (host : HostType) :
    L.Holds fun _ => readCallable k index host := by
  refine (Wraps.wrap index hk).bind fun id => ?_
  split <;> exact .pure _

-- ======================================================== compound shapes

theorem holds_popping (hk : L.Valid k) {F : Runner → Action HostValue} (hF : L.Holds F) :
    L.Holds fun run => popping k (F run) :=
  hF.bind fun _ => (holds_primitive hk (.pop 1)).bind fun _ => .pure _

section

variable {readAt : Runner → Int → TypeExpr → Action HostValue} (hk : L.Valid k)
  (hr : ∀ i t, L.Holds fun run => readAt run i t)

include hk hr

theorem holds_readItems (index : Int) (host : HostType) (i count : Nat) :
    L.Holds fun run => readItems (readAt run) k index host i count := by
  induction count generalizing i with
  | zero => exact .pure _
  | succ count ih =>
      refine (holds_primitive hk (.getKey _ _)).bind fun _ => ?_
      refine (holds_popping hk (hr _ _)).bind fun v => ?_
      exact (ih (i + 1)).bind fun vs => .pure _

theorem holds_readSequence (index : Int) (host : HostType) :
    L.Holds fun run => readSequence (readAt run) k index host := by
  have hrest : ∀ (index : Int) (count : Nat), L.Holds fun run => (do
      return asSequence host
        (← restoringTop k (readItems (readAt run) k index host 0 count)) : Action HostValue) := by
    intro index count
    exact (holds_restoringTop hk (holds_readItems hk hr index host 0 count)).bind fun items =>
      .pure _
  refine (holds_look (Vm.looks_absIndex index)).bind fun index => ?_
  dsimp only
  by_cases hfixed : host.isFixedTuple = true
  · simp only [if_pos hfixed]
    exact Law.Holds.bind (.pure _) (hrest index)
  · simp only [if_neg hfixed]
    exact Law.Holds.bind (holds_look (Vm.looks_rawLength index)) (hrest index)

theorem holds_readEntries (index : Int) (keyType valueType : TypeExpr) (fuel : Nat)
    (entries : List (HostValue × HostValue)) :
    L.Holds fun run => readEntries (readAt run) k index keyType valueType fuel entries := by
  induction fuel generalizing entries with
  | zero => exact .exhausted
  | succ fuel ih =>
      refine (holds_primitive hk (.next index)).bind fun more => ?_
      cases more with
      | false => exact .pure _
      | true =>
          refine (hr _ _).bind fun value => (hr _ _).bind fun key => ?_
          refine (holds_primitive hk (.pop 1)).bind fun _ => ?_
          exact (holds_ofHost _).bind fun entries => ih entries

theorem holds_readMapping (fuel : Nat) (index : Int) (host : HostType) :
    L.Holds fun run => readMapping (readAt run) fuel k index host := by
  refine (holds_look (Vm.looks_absIndex index)).bind fun index => ?_
  refine Law.Holds.bind (holds_restoringTop hk ?_) fun entries => ?_
  · exact (holds_push hk (v := .nil) trivial).bind fun _ => holds_readEntries hk hr _ _ _ fuel []
  · split <;> exact .pure _

theorem holds_readFields (index : Int) (fields : List (FieldSpec × TypeExpr)) :
    L.Holds fun run => readFields (readAt run) k index fields := by
  induction fields with
  | nil => exact .pure _
  | cons field fields ih =>
      unfold readFields
      by_cases hinit : (!field.1.init) = true
      · simp only [if_pos hinit]
        exact ih
      · simp only [if_neg hinit]
        refine (holds_primitive hk (.getKey _ _)).bind fun c => ?_
        by_cases hdefault : (c = .nil && field.1.hasDefault) = true
        · simp only [if_pos hdefault]
          exact (holds_primitive hk (.pop 1)).bind fun _ => ih
        · simp only [if_neg hdefault]
          refine (holds_popping hk (hr _ _)).bind fun v => ?_
          exact ih.bind fun vs => .pure _

theorem holds_readRecord (index : Int) (host : HostType) :
    L.Holds fun run => readRecord ctx (readAt run) k index host := by
  refine (holds_look (Vm.looks_absIndex index)).bind fun index => ?_
  refine Law.Holds.bind (holds_restoringTop hk ?_) fun given => holds_ofHost _
  exact (holds_ofHost _).bind fun fields => holds_readFields hk hr index fields

theorem holds_readShape (fuel : Nat) (index : Int) (host : HostType) :
    L.Holds fun run => readShape ctx (readAt run) fuel k index host := by
  unfold readShape
  cases host.shape with
  | dynamic => exact holds_readDynamic hk index host
  | absent => exact .pure _
  | boolean => exact holds_readBoolean index host
  | integer => exact holds_readInteger index host
  | float => exact holds_readFloat index host
  | textPointer => exact holds_readTextPointer hk index
  | buffer => exact holds_readBuffer hk index host
  | mapping => exact holds_readMapping hk hr fuel index host
  | record => exact holds_readRecord hk hr index host
  | sequence => exact holds_readSequence hk hr index host
  | callable => exact holds_readCallable hk index host

end

-- ================================================================== reads

theorem holds_labelOf (c : Category) : L.Holds fun _ => labelOf c := by
  unfold labelOf
  cases c.typeName? with
  | some l => exact .pure l
  | none => exact .fail trivial

end

section

variable [Pushes ctx L]

/-- A handler of the program's own runs a block. -/
theorem holds_handle (h : Handler) (actual expected : Category) :
    L.Holds fun run => handle ctx run k h actual expected := by
  cases h with
  | standard =>
      exact (holds_labelOf expected).bind fun _ => (holds_labelOf actual).bind fun _ =>
        holds_look (Vm.looks_throw trivial)
  | strict => exact .fail trivial
  | badArgument position function =>
      exact (holds_labelOf expected).bind fun _ => (holds_labelOf actual).bind fun _ =>
        holds_look (Vm.looks_throw trivial)
  | custom block result =>
      refine (holds_report _).bind fun _ => ?_
      exact (Law.Holds.run block).bind fun _ => holds_eval result

theorem holds_readHost (hk : L.Valid k) {readAt : Runner → Int → TypeExpr → Action HostValue}
    (hr : ∀ i t, L.Holds fun run => readAt run i t) (fuel : Nat) (index : Int)
    (host : HostType) (h : Handler) :
    L.Holds fun run => readHost ctx run (readAt run) fuel k index host h := by
  unfold readHost
  by_cases hdyn : host.shape = .dynamic
  · simp only [if_pos hdyn]
    exact holds_readShape hk hr fuel index host
  · simp only [if_neg hdyn]
    refine (holds_look (Vm.looks_categoryAt index)).bind fun actual => ?_
    by_cases hne : actual ≠ host.category
    · simp only [if_pos hne]
      exact holds_handle h _ _
    · simp only [if_neg hne]
      exact holds_readShape hk hr fuel index host

/-- Where the checks are the same in both runs the handler may be any. -/
theorem holds_readAs [Checks L] (hk : L.Valid k) (fuel : Nat) (h : Handler) (depth : Nat)
    (index : Int) (t : TypeExpr) : L.Holds fun run => readAs ctx run fuel k h depth index t := by
  induction depth generalizing index t with
  | zero => exact .fail trivial
  | succ depth ih =>
      refine (holds_describe _ _).bind fun host => ?_
      exact holds_guardedIfChecking _ _ (holds_readHost hk ih fuel index host h)

theorem holds_readValue [Checks L] (hk : L.Valid k) (fuel : Nat) (h : Handler) (index : Int)
    (t : TypeExpr) : L.Holds fun run => readValue ctx run fuel k h index t :=
  holds_readAs hk fuel h _ index t

instance [Checks L] : Reads ctx L where
  readValue fuel h index t hk _ := holds_readValue hk fuel h index t

end

end Session

end StackBridge
