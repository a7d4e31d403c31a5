import StackBridge.Proofs.Session.Calls
import StackBridge.Session.Run

/-!
Laws hold of every operation of a program where they hold of its parts, and so
of every sequence of operations and of every block. Most operations ask for
nothing but what calls do (`Op.isPlain`); those that only some laws allow are the
ones that write to a table of the program's choice, that close a machine, that
raise a value, and that look at the checks or make them.
-/

namespace StackBridge

/-- Operations that write to a table in a slot: into a field, or under a
reference. -/
def Op.writesTables : Op → Bool
  | .rawSet _ | .rawSetI .. | .setField .. | .ref _ | .unref .. => true
  | _ => false

/-- Operations that close the machine that they run on. -/
def Op.closes : Op → Bool
  | .close | .withState _ => true
  | _ => false

/-- Operations that make a check, or see or change whether there are checks; a
handler of the program's own runs inside the checks of a read. -/
def Op.seesChecks : Op → Bool
  | .guard .. | .setChecks _ | .config | .reloadFromEnv .. => true
  | .get _ _ h _ | .popValue _ h _ => h.isOwn
  | _ => false

/-- Operations that raise the value on top of the stack. -/
def Op.raises : Op → Bool
  | .error => true
  | _ => false

/-- Operations that call a function and are left by no machine error. -/
def Op.protects : Op → Bool
  | .pcall .. => true
  | _ => false

/-- Operations that every law allows that allows calls and protected calls. -/
def Op.isPlain (op : Op) : Bool :=
  !op.writesTables && !op.closes && !op.seesChecks && !op.raises

namespace Session

open Bridge Law

variable {L : Law} {ctx : Context} {k : MachineId} {α : Type}

section

variable [Lawful L]

-- ============================================================= around others

theorem holds_silently {F : Runner → Action Unit} (hF : L.Holds F) :
    L.Holds fun run => silently (F run) :=
  hF.bind fun _ => .pure _

theorem holds_unreported {F : Runner → Action α} (hF : L.Holds F) :
    L.Holds fun run => unreported (F run) :=
  .ask (fun _ _ => rfl) fun _ _ _ =>
    hF.ensuring (.tell (fun _ _ => rfl) fun _ => ⟨rfl, rfl, rfl, rfl, rfl, rfl⟩)

theorem holds_storing (name : Option String) {F : Runner → Action HostValue} (hF : L.Holds F) :
    L.Holds fun run => storing name (F run) :=
  hF.bind fun v => (holds_storeAs name v).bind fun _ => .pure v

theorem holds_reportOperation (name : String) (outcome : Outcome) :
    L.Holds fun _ => reportOperation name outcome :=
  .ask (fun _ _ => rfl) fun _ _ _ => holds_report _

-- =================================================================== slots

theorem holds_isAmong (index : Int) (cs : List Category) : L.Holds fun _ => isAmong k index cs :=
  (holds_look (Vm.looks_categoryAt index)).bind fun _ => .pure _

theorem holds_entryTexts (index : Int) : L.Holds fun _ => entryTexts k index :=
  (holds_look (Vm.looks_tableAt index)).bind fun _ => .ask (fun _ _ => rfl) fun _ _ _ => .pure _

theorem holds_describeMachine : L.Holds fun _ => describeMachine k :=
  holds_getTop.bind fun _ => .ask (fun _ _ => rfl) fun _ _ _ => .pure _

theorem holds_use (number : Int) : L.Holds fun _ => use number := by
  refine .ask (fun _ _ => rfl) fun s s' hsame => ?_
  dsimp only
  generalize (if number < 0 then (s.machines.size : Int) + number else number) = j
  split
  · exact .fail trivial
  · exact .focus (Lawful.there hsame _ (by omega))

-- ================================================================= handles

theorem holds_stored (name : String) : L.Holds fun _ => stored name := by
  refine .ask (fun _ _ => rfl) fun s s' hsame => ?_
  cases s.stored? name with
  | some v => exact .pure v
  | none => exact .fail trivial

theorem holds_lacking (v : HostValue) (member : String) :
    L.Holds fun _ => (lacking v member : Action α) :=
  .fail trivial

-- ============================================================ configuration

theorem holds_checkSettable (raw : Option String) : L.Holds fun _ => checkSettable raw := by
  unfold checkSettable
  split
  · exact .fail trivial
  · exact .pure _

theorem holds_readFlag (name : String) (raw : Option String) :
    L.Holds fun _ => ofFailing (readFlag name raw) := by
  unfold readFlag
  cases raw with
  | none => exact .pure _
  | some raw =>
      dsimp only
      split
      · exact .pure _
      · split
        · exact .pure _
        · split
          · exact .pure _
          · exact .fail trivial

theorem holds_flagOr (raw : Option String) (default : HostValue) :
    L.Holds fun _ => flagOr raw default := by
  refine (holds_checkSettable raw).bind fun _ => (holds_readFlag _ _).bind fun b => ?_
  split <;> exact .pure _

theorem holds_encodingOr (raw : Option String) (default : HostValue) :
    L.Holds fun _ => encodingOr raw default := by
  refine (holds_checkSettable raw).bind fun _ => (holds_ofHost _).bind fun b => ?_
  split <;> exact .pure _

theorem holds_setEncoding (e : Encoding) : L.Holds fun _ => setEncoding e :=
  .tell (fun _ _ => rfl) fun _ => ⟨rfl, rfl, rfl, rfl, rfl, rfl⟩

-- =============================================================== inspection

theorem holds_nativeValue (v : HostValue) : L.Holds fun _ => nativeValue v := by
  unfold nativeValue
  split
  · exact .pure _
  · exact .fail trivial

theorem holds_numberedCategory (number : Int) : L.Holds fun _ => Session.categoryOf number := by
  unfold Session.categoryOf
  split
  · exact .pure _
  · exact .fail trivial

end

section

variable [Wraps L]

-- ========================================================= slots and handles

theorem holds_bytesAt (hk : L.Valid k) (index : Int) : L.Holds fun _ => bytesAt k index := by
  refine (holds_primitive hk (.toBytes? index)).bind fun b => ?_
  cases b with
  | some b => exact holds_guestOr index _
  | none => exact .pure _

theorem holds_integerAt (index : Int) : L.Holds fun _ => integerAt k index := by
  refine (holds_look (Vm.looks_toInteger index)).bind fun n => ?_
  refine (holds_look (Vm.looks_isInteger index)).bind fun b => ?_
  split
  · exact holds_guestOr index _
  · exact .pure _

theorem holds_answerQuery (hk : L.Valid k) (index : Int) (q : SlotQuery) :
    L.Holds fun _ => answerQuery k index q := by
  cases q with
  | type => exact (holds_look (Vm.looks_categoryAt index)).bind fun _ => .pure _
  | isNumber => exact (holds_look (Vm.looks_isNumber index)).bind fun _ => .pure _
  | isInteger => exact (holds_look (Vm.looks_isInteger index)).bind fun _ => .pure _
  | isString => exact (holds_look (Vm.looks_isString index)).bind fun _ => .pure _
  | toBoolean => exact (holds_look (Vm.looks_toBoolean index)).bind fun _ => .pure _
  | toInteger => exact holds_integerAt index
  | toNumber => exact (holds_look (Vm.looks_toNumber index)).bind fun _ => .pure _
  | toLString => exact holds_bytesAt hk index
  | toString => exact holds_bytesAt hk index
  | toUserdata => exact holds_look (Vm.looks_toUserdata index)
  | rawLen => exact (holds_look (Vm.looks_rawLength index)).bind fun _ => .pure _
  | _ => exact holds_isAmong index _

theorem holds_pushPlain (hk : L.Valid k) (v : HostValue) (kind : PlainPush) :
    L.Holds fun _ => pushPlain k v kind := by
  have hpush : ∀ w : Value, w.Native → ∀ answer : HostValue, L.Holds fun _ => (do
      push k w
      return answer : Action HostValue) :=
    fun w hw answer => (holds_push hk hw).bind fun _ => .pure answer
  cases kind with
  | boolean => exact hpush (.bool _) trivial _
  | integer => exact (holds_ofHost _).bind fun n => hpush (.int _) (inRange_wrapInteger n) _
  | number =>
      exact (holds_ofHost _).bind fun _ => (holds_individualFloat _).bind fun x =>
        hpush (.float x) trivial _
  | lString => exact (holds_ofHost _).bind fun b => hpush (.str b) trivial _
  | string =>
      unfold pushPlain
      dsimp only
      split
      · exact hpush .nil trivial _
      · exact (holds_ofHost _).bind fun b => hpush (.str _) trivial _

theorem holds_drainFrom (hk : L.Valid k) (index : Int) (count : Nat) :
    L.Holds fun _ => drainFrom k index count := by
  induction count with
  | zero => exact .pure _
  | succ count ih =>
      refine (holds_primitive hk (.next index)).bind fun more => ?_
      split
      · exact .pure _
      · refine (holds_look (Vm.looks_valueAt? _)).bind fun key => ?_
        refine (holds_look (Vm.looks_valueAt? _)).bind fun v => ?_
        exact .ask (fun _ _ => rfl) fun _ _ _ =>
          (holds_primitive hk (.pop 1)).bind fun _ => ih.bind fun _ => .pure _

theorem holds_drain (hk : L.Valid k) (index : Int) : L.Holds fun _ => drain k index := by
  refine (holds_look (Vm.looks_absIndex index)).bind fun index => ?_
  refine (holds_push hk (v := .nil) trivial).bind fun _ => ?_
  refine Law.Holds.bind (holds_look ?_) fun steps =>
    (holds_drainFrom hk index steps).bind fun _ => .pure _
  refine (Vm.looks_valueAt? index).bind fun v => ?_
  split
  · exact Vm.looks_getHeap.bind fun _ => Vm.looks_pure _
  · exact Vm.looks_pure _

theorem holds_pushStored (v : HostValue) : L.Holds fun _ => pushStored v := by
  unfold pushStored
  split
  · exact holds_pushWrapped _
  · exact holds_lacking _ _

theorem holds_releaseStored (v : HostValue) : L.Holds fun _ => releaseStored v := by
  unfold releaseStored
  split
  · exact Wraps.release _
  · exact Wraps.release _
  · exact .pure _
  · exact holds_lacking _ _

theorem holds_describeStored (v : HostValue) : L.Holds fun _ => describeStored v := by
  unfold describeStored
  split
  · exact (holds_wrappedCategory _).bind fun _ => .ask (fun _ _ => rfl) fun _ _ _ => .pure _
  · exact holds_lacking _ _

theorem holds_bind (hk : L.Valid k) (index : Int) (params : Option (List TypeExpr))
    (returns : TypeExpr) : L.Holds fun _ => Session.bind k index params returns :=
  (Wraps.wrap index hk).bind fun _ => .pure _

end

section

variable [Calls ctx L]

-- ============================================================= among classes

theorem holds_convertStored (fuel : Nat) (v : HostValue) (t : TypeExpr) :
    L.Holds fun run => convertStored ctx run fuel v t := by
  unfold convertStored
  split
  · exact .ask (fun _ _ => rfl) fun s s' hsame => (holds_pushWrapped _).bind fun _ =>
      holds_popValue (Lawful.home hsame _) fuel rfl t
  · exact holds_lacking _ _

theorem holds_callStored (fuel : Nat) (v : HostValue) (args : List HostValue) :
    L.Holds fun run => callStored ctx run fuel v args := by
  unfold callStored
  split
  · exact holds_callBound fuel _ _ _ args
  · exact holds_callHost _ args

theorem holds_classify (t : TypeExpr) : L.Holds fun _ => classify ctx t :=
  (holds_prepare t).bind fun _ => (holds_describe _ _).bind fun _ => .pure _

theorem holds_describeFully (t : TypeExpr) (operation : String) :
    L.Holds fun _ => describeFully ctx t operation :=
  (holds_prepare t).bind fun _ => (holds_describe _ _).bind fun _ => .pure _

-- =============================================================== operations

/-- Every operation that a law of calls allows, whatever its operands. -/
theorem holds_unprotected (hk : L.Valid k) (fuel : Nat) {op : Op} (hop : op.isPlain = true)
    (hcall : op.protects = false) : L.Holds fun run => perform ctx run fuel k op := by
  cases op with
  | getTop => exact holds_getTop.bind fun _ => .pure _
  | setTop i => exact holds_silently (holds_primitive hk (.setTop i))
  | pop n => exact holds_silently (holds_primitive hk (.pop n))
  | absIndex i => exact (holds_look (Vm.looks_absIndex i)).bind fun _ => .pure _
  | checkStack n => exact (holds_look (Vm.looks_checkStack n)).bind fun _ => .pure _
  | pushValue i => exact holds_silently (holds_primitive hk (.pushCopy i))
  | pushNil => exact holds_silently (holds_push hk trivial)
  | plainPush kind e => exact (holds_eval e).bind fun v => holds_pushPlain hk v kind
  | query q i => exact holds_answerQuery hk i q
  | typeName tag => exact (holds_ofHost _).bind fun _ => .pure _
  | rawEqual i j => exact (holds_look (Vm.looks_rawEqual i j)).bind fun _ => .pure _
  | createTable => exact holds_silently (Moves.pushTable hk)
  | newTable => exact holds_silently (Moves.pushTable hk)
  | newUserdata e =>
      exact holds_silently ((holds_eval e).bind fun v => holds_primitive hk (.pushUserdata v))
  | rawGet i => exact (holds_primitive hk (.rawGet i)).bind fun _ => .pure _
  | rawGetI i n => exact (holds_primitive hk (.getKey i _)).bind fun _ => .pure _
  | getField i name =>
      exact (holds_eval name).bind fun _ => (holds_ofHost _).bind fun _ =>
        (holds_primitive hk (.getKey i _)).bind fun _ => .pure _
  | next i => exact (holds_primitive hk (.next i)).bind fun _ => .pure _
  | items i => exact holds_entryTexts i
  | drain i => exact holds_drain hk i
  | pushFunction name block results => exact holds_silently (holds_primitive hk (.pushFunction _))
  | call args results => exact holds_silently (holds_call hk fuel args results)
  | raiseError message =>
      refine holds_look (Vm.looks_throw ?_)
      trivial
  | describeState => exact holds_describeMachine
  | use number => exact holds_silently (holds_use number)
  | batch block => exact holds_silently (holds_unreported (.run block))
  | push e t =>
      exact holds_silently ((holds_eval e).bind fun v => (holds_prepare t).bind fun t =>
        Pushes.pushValue v t hk)
  | get i t handler store =>
      have hh : handler.isOwn = false := by
        simpa [Op.isPlain, Op.writesTables, Op.closes, Op.seesChecks, Op.raises] using hop
      exact holds_storing store ((holds_prepare t).bind fun t =>
        Reads.readValue fuel i t hk hh)
  | popValue t handler store =>
      have hh : handler.isOwn = false := by
        simpa [Op.isPlain, Op.writesTables, Op.closes, Op.seesChecks, Op.raises] using hop
      exact holds_storing store ((holds_prepare t).bind fun t => holds_popValue hk fuel hh t)
  | define name e => exact holds_storing (some name) (holds_eval e)
  | mismatch handler actual expected =>
      exact (holds_numberedCategory actual).bind fun actual =>
        (holds_numberedCategory expected).bind fun expected => holds_handle handler actual expected
  | classify t => exact holds_classify t
  | describe t operation => exact holds_describeFully t operation
  | restoreTop block =>
      exact holds_getTop.bind fun top =>
        (holds_restoringTop hk (.run block)).bind fun _ => .pure _
  | wrapperNew i name =>
      exact holds_storing (some name) ((Wraps.wrap i hk).bind fun _ => .pure _)
  | wrapperPush name => exact holds_silently ((holds_stored name).bind fun v => holds_pushStored v)
  | wrapperTo name t store =>
      exact holds_storing store ((holds_stored name).bind fun v =>
        (holds_prepare t).bind fun t => holds_convertStored fuel v t)
  | wrapperRelease name =>
      exact holds_silently ((holds_stored name).bind fun v => holds_releaseStored v)
  | boundRelease name =>
      exact holds_silently ((holds_stored name).bind fun v => holds_releaseStored v)
  | wrapperInfo name => exact (holds_stored name).bind fun v => holds_describeStored v
  | wrapperEq name other =>
      exact (holds_stored name).bind fun v => (holds_eval other).bind fun w =>
        holds_equality _ v w
  | boundNew i params returns name =>
      refine holds_storing (some name) (Law.Holds.bind ?_ fun params =>
        (holds_prepare returns).bind fun returns => holds_bind hk i params returns)
      cases params with
      | none => exact .pure _
      | some ts => exact (holds_prepareAll ts).bind fun _ => .pure _
  | boundCall name args store =>
      exact holds_storing store ((holds_stored name).bind fun v =>
        (holds_evalList args).bind fun args => holds_callStored fuel v args)
  | renderStack options => exact (holds_look (Vm.looks_renderStack options)).bind fun _ => .pure _
  | renderSlot i options =>
      exact (holds_look (Vm.looks_renderSlot options i)).bind fun _ => .pure _
  | numberToBytes e => exact (holds_eval e).bind fun _ => (holds_ofHost _).bind fun _ => .pure _
  | bytesToNumber e => exact (holds_eval e).bind fun _ => holds_ofHost _
  | wrapInteger e => exact (holds_eval e).bind fun _ => holds_ofHost _
  | rawEquals a b =>
      exact (holds_eval a).bind fun _ => (holds_eval b).bind fun _ =>
        (holds_nativeValue _).bind fun _ => (holds_nativeValue _).bind fun _ => .pure _
  | tagOf e =>
      exact (holds_eval e).bind fun _ => (holds_nativeValue _).bind fun _ =>
        (holds_look (Vm.looks_categoryOf _)).bind fun _ => .pure _
  | cString e encoding => exact (holds_eval e).bind fun _ => holds_ofHost _
  | nilProps e => exact (holds_eval e).bind fun _ => .pure _
  | machineError e =>
      exact (holds_eval e).bind fun _ => .ask (fun _ _ => rfl) fun _ _ _ =>
        (holds_ofHost _).bind fun _ => .pure _
  | setEncoding name =>
      exact (holds_ofHost _).bind fun _ => (holds_setEncoding _).bind fun _ => .pure _
  | flagFromEnv raw default => exact (holds_eval default).bind fun _ => holds_flagOr _ _
  | encodingFromEnv raw default => exact (holds_eval default).bind fun _ => holds_encodingOr _ _
  | pcall => cases hcall
  | rawSet | rawSetI | setField | ref | unref | error | close | withState | guard | setChecks
    | config | reloadFromEnv => cases hop

end

/-- And a law of protected calls allows those. -/
theorem holds_plain [Protects ctx L] (hk : L.Valid k) (fuel : Nat) {op : Op}
    (hop : op.isPlain = true) : L.Holds fun run => perform ctx run fuel k op := by
  cases hcall : op.protects with
  | false => exact holds_unprotected hk fuel hop hcall
  | true =>
      cases op with
      | pcall args results => exact (holds_protectedCall hk fuel args results).bind fun _ => .pure _
      | _ => cases hcall

/-- A field is named by a string. -/
theorem fieldKey_isName {v : HostValue} {key : Value} (h : fieldKey v = .ok key) : key.IsName := by
  unfold fieldKey at h
  split at h
  · cases h
    trivial
  · cases hb : v.toBytes with
    | error f => rw [hb] at h; cases h
    | ok b => rw [hb] at h; cases h; trivial

/-- Writing to a table, under keys of the bridge's or from the stack. -/
theorem holds_writing [Describes ctx L] [Writes L] (hk : L.Valid k) (fuel : Nat) {op : Op}
    (hop : op.writesTables = true) : L.Holds fun run => perform ctx run fuel k op := by
  cases op with
  | rawSet i => exact holds_silently (Writes.rawSet i hk)
  | rawSetI i n => exact holds_silently (Writes.setKey i hk trivial)
  | setField i name =>
      refine holds_silently ((holds_eval name).bind fun v => ?_)
      cases hkey : fieldKey v with
      | ok key => exact Writes.setKey i hk (fieldKey_isName hkey)
      | error f => exact .fail (Failure.plain_ofHost f)
  | ref i => exact (Writes.ref i hk).bind fun _ => .pure _
  | unref i r => exact holds_silently (Writes.unref i r hk)
  | _ => cases hop

/-- Closing the machine. -/
theorem holds_closing [Closes L] (hk : L.Valid k) (fuel : Nat) {op : Op}
    (hop : op.closes = true) : L.Holds fun run => perform ctx run fuel k op := by
  cases op with
  | close => exact holds_silently (Closes.close hk)
  | withState block =>
      exact holds_silently (Law.Holds.ensuring (.run block) (Closes.close hk))
  | _ => cases hop

/-- Making checks, and looking whether there are any. -/
theorem holds_seeing [Pushes ctx L] [Checks L] (hk : L.Valid k) (fuel : Nat) {op : Op}
    (hop : op.seesChecks = true) : L.Holds fun run => perform ctx run fuel k op := by
  have hconfiguration : L.Holds fun _ => configuration := holds_get.bind fun _ => .pure _
  cases op with
  | get i t handler store =>
      exact holds_storing store ((holds_prepare t).bind fun t => holds_readValue hk fuel handler i t)
  | popValue t handler store =>
      exact holds_storing store ((holds_prepare t).bind fun t =>
        holds_popping hk (holds_readValue hk fuel handler (-1) t))
  | guard delta what block => exact holds_silently (holds_guarded delta _ (.run block))
  | setChecks e => exact (holds_eval e).bind fun _ => (Checks.setChecks _).bind fun _ => .pure _
  | config => exact hconfiguration
  | reloadFromEnv checks encoding =>
      refine Law.Holds.bind ?_ fun _ => hconfiguration
      exact (holds_checkSettable checks).bind fun _ => (holds_checkSettable encoding).bind fun _ =>
        (holds_readFlag _ _).bind fun _ => (Checks.setChecks _).bind fun _ =>
          (holds_ofHost _).bind fun _ => holds_setEncoding _
  | _ => cases hop

/-- Every operation but those that raise a value or meet what is raised. -/
theorem holds_uncaught [Calls ctx L] [Writes L] [Closes L] [Checks L] (hk : L.Valid k) (fuel : Nat)
    {op : Op} (hraises : op.raises = false) (hcall : op.protects = false) :
    L.Holds fun run => perform ctx run fuel k op := by
  cases hop : op.writesTables with
  | true => exact holds_writing hk fuel hop
  | false =>
      cases hcloses : op.closes with
      | true => exact holds_closing hk fuel hcloses
      | false =>
          cases hsees : op.seesChecks with
          | true => exact holds_seeing hk fuel hsees
          | false => exact holds_unprotected hk fuel (by simp [Op.isPlain, *]) hcall

/-- Every operation but those that write to tables. -/
theorem holds_quiet [Protects ctx L] [Closes L] [Checks L] [Raises L] (hk : L.Valid k) (fuel : Nat)
    {op : Op} (hop : op.writesTables = false) :
    L.Holds fun run => perform ctx run fuel k op := by
  cases hcloses : op.closes with
  | true => exact holds_closing hk fuel hcloses
  | false =>
      cases hsees : op.seesChecks with
      | true => exact holds_seeing hk fuel hsees
      | false =>
          cases hraises : op.raises with
          | true =>
              cases op with
              | error => exact Raises.raiseTop hk
              | _ => cases hraises
          | false => exact holds_plain hk fuel (by simp [Op.isPlain, *])

/-- Every operation, for a law that holds of all that operations are made of. -/
theorem holds_perform [Protects ctx L] [Writes L] [Closes L] [Checks L] [Raises L] (hk : L.Valid k)
    (fuel : Nat) (op : Op) : L.Holds fun run => perform ctx run fuel k op := by
  cases hop : op.writesTables with
  | true => exact holds_writing hk fuel hop
  | false => exact holds_quiet hk fuel hop

-- ================================================================= running

section

variable [Lawful L]

/-- Reporting an operation adds nothing to it. -/
theorem alike_step {M : Session → Prop} {s s' : Session} {run run' : Runner} {fuel : Nat} {op : Op}
    (h : L.Alike M s (perform ctx run fuel s.current op s)
      (perform ctx run' fuel s'.current op s')) :
    L.Alike M s (step ctx run fuel op s) (step ctx run' fuel op s') := by
  have hreport : ∀ outcome : Heap → Outcome, L.Holds fun _ => (do
      reportOperation op.name (outcome (← get).heap)) :=
    fun outcome => .ask (fun _ _ => rfl) fun _ _ _ => holds_reportOperation _ _
  unfold step
  rw [bind_ok (get_apply s), bind_ok (get_apply s')]
  have hview := h.bind fun v t t' _ ht _ => (holds_view v).apply ht
  simp only [← bind_assoc]
  refine (hview.rethrowing fun f t t' ht => (hreport (.ofFailure · f)).apply ht).bind ?_
  exact fun answer t t' _ ht _ => (holds_reportOperation _ _).apply ht

theorem holds_step {fuel : Nat} {op : Op}
    (hop : ∀ k, L.Valid k → L.Holds fun run => perform ctx run fuel k op) :
    L.Holds fun run => step ctx run fuel op := by
  intro M run run' s s' hsame hrun
  have hcurrent : s'.current = s.current := by rw [Lawful.checks hsame]
  refine alike_step ?_
  rw [hcurrent]
  exact hop s.current (Lawful.current hsame) M run run' s s' hsame hrun

/-- Operations one after the other. -/
theorem holds_steps {fuel : Nat} {ops : List Op}
    (hops : ∀ op ∈ ops, ∀ k, L.Valid k → L.Holds fun run => perform ctx run fuel k op) :
    L.Holds fun run => steps ctx run fuel ops := by
  induction ops with
  | nil => exact .pure _
  | cons op ops ih =>
      exact (holds_step (hops op List.mem_cons_self)).bind fun _ =>
        ih fun op hop => hops op (List.mem_cons_of_mem _ hop)

variable (hops : ∀ b, ∀ op ∈ ctx.program.block b, ∀ fuel k, L.Valid k →
  L.Holds fun run => perform ctx run fuel k op)

include hops

/-- Blocks go alike where operations do, to any depth of blocks within blocks. -/
theorem alike_block {M : Session → Prop} (fuel : Nat) (b : BlockId) {s s' : Session}
    (hsame : L.Same s s') :
    L.Alike M s (runBlock ctx fuel b s) (runBlock ctx fuel b s') := by
  induction fuel generalizing b s s' with
  | zero => exact .exhausted hsame (Lawful.refl s)
  | succ fuel ih =>
      exact (holds_steps fun op hop k hk => hops b op hop fuel k hk).of_alike
        (fun b t t' ht => ih b ht) hsame

/-- And so does a program's own list of operations. -/
theorem alike_stepsRegardless {M : Session → Prop} (fuel : Nat) {ops : List Op}
    (hmain : ∀ op ∈ ops, ∀ fuel k, L.Valid k → L.Holds fun run => perform ctx run fuel k op)
    {s s' : Session} (hsame : L.Same s s') :
    L.Alike M s (stepsRegardless ctx fuel ops s) (stepsRegardless ctx fuel ops s') := by
  induction ops generalizing s s' with
  | nil => exact .ok hsame (Lawful.refl s)
  | cons op ops ih =>
      have hfirst : L.Holds fun run => handling (step ctx run fuel op) fun _ => pure () :=
        Law.Holds.meeting (holds_step (hmain op List.mem_cons_self fuel)) fun _ => .pure ()
      have h : L.Alike M s _ _ :=
        hfirst.of_alike (fun b t t' ht => alike_block hops fuel b ht) hsame
      exact h.bind fun _ t t' _ ht _ => ih (fun op hop => hmain op (List.mem_cons_of_mem _ hop)) ht

end

end Session

end StackBridge
