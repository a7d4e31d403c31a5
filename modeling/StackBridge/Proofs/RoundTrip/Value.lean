import StackBridge.Proofs.RoundTrip.Read

/-!
Reading a value of a built type back to any depth. Every part of it is read as
the type that it fits, so the induction is on the depth; what it needs of the
value is that the tables it is held in are there, and that there is fuel for
the entries of each of its mappings.
-/

namespace StackBridge

-- ================================================================== size

theorem List.length_lt_sizeOf {α : Type} [SizeOf α] (xs : List α) : xs.length < sizeOf xs := by
  induction xs with
  | nil => exact Nat.zero_lt_succ _
  | cons x xs ih =>
      simp only [List.length_cons, List.cons.sizeOf_spec]
      omega

namespace HostValue

variable {fuel : Nat}

/-- What there is fuel for, there is fuel for the parts of. -/
theorem sizeOf_item {kind : SequenceKind} {vs : List HostValue} {v : HostValue} (hv : v ∈ vs)
    (hfuel : sizeOf (HostValue.sequence kind vs) ≤ fuel) : sizeOf v ≤ fuel := by
  have h := List.sizeOf_lt_of_mem hv
  simp only [HostValue.sequence.sizeOf_spec] at hfuel
  omega

theorem sizeOf_entry {kind : MappingKind} {es : List (HostValue × HostValue)}
    {e : HostValue × HostValue} (he : e ∈ es) (hfuel : sizeOf (HostValue.mapping kind es) ≤ fuel) :
    sizeOf e.1 ≤ fuel ∧ sizeOf e.2 ≤ fuel := by
  have h := List.sizeOf_lt_of_mem he
  obtain ⟨key, value⟩ := e
  simp only [Prod.mk.sizeOf_spec] at h
  simp only [HostValue.mapping.sizeOf_spec] at hfuel
  show sizeOf key ≤ fuel ∧ sizeOf value ≤ fuel
  exact ⟨by omega, by omega⟩

theorem sizeOf_field {name : String} {tuple : Bool} {fs : List (String × HostValue)}
    {f : String × HostValue} (hf : f ∈ fs)
    (hfuel : sizeOf (HostValue.record name tuple fs) ≤ fuel) : sizeOf f.2 ≤ fuel := by
  have h := List.sizeOf_lt_of_mem hf
  obtain ⟨label, value⟩ := f
  simp only [Prod.mk.sizeOf_spec] at h
  simp only [HostValue.record.sizeOf_spec] at hfuel
  show sizeOf value ≤ fuel
  omega

end HostValue

namespace Bridge

open Session

variable {enc : Encoding} {R : String → Prop} {ctx : Context} {run : BlockId → Action Unit}
  {fuel : Nat} {k : MachineId} {handler : Handler} {s : Session} {index : Int} {w : Value}
  {v : HostValue} {t : TypeExpr} {depth : Nat} {readAt : Int → TypeExpr → Action HostValue}

theorem orNatural_built (h : Built R t) : orNatural t = t := if_neg h.ne_none

/-- A slot of the right category is read by the shape of the type. -/
theorem readHost_of_category {host : HostType}
    (hat : Vm.valueAt? index (s.vm k) = .ok (some w) (s.vm k))
    (hw : w.category? = some host.category) (hshape : host.shape ≠ .dynamic) :
    readHost ctx run readAt fuel k index host handler s
      = readShape ctx readAt fuel k index host s := by
  unfold readHost
  rw [if_neg hshape, bind_ok (onMachine_look (Vm.categoryAt_eq hat hw)),
    if_neg (not_not_intro rfl)]

/-- A read is what its host type comes to, where that adds nothing. The machine
may be closed. -/
theorem readAs_framed (run : BlockId → Action Unit) (fuel : Nat) (handler : Handler)
    (depth : Nat) (index : Int) {b : Nat} {fs : List Nat} (hf : (s.machine k).frames = b :: fs)
    {host : HostType} (hhost : t.hostType? = some host)
    (haccepts : Accepts (describeIn ctx.classes "read" t)) :
    ∃ noted, ∀ {P : Session → Session → Prop},
      Ends (readHost ctx run (readAs ctx run fuel k handler depth) fuel k index host handler
          { s with described := noted })
        (fun _ u => Leaves P k [] { s with described := noted } u)
        (fun _ u => Leaves P k [] { s with described := noted } u) →
      readAs ctx run fuel k handler (depth + 1) index t s
        = readHost ctx run (readAs ctx run fuel k handler depth) fuel k index host handler
          { s with described := noted } := by
  obtain ⟨noted, hnoted⟩ := describe_ok _ haccepts s
  refine ⟨noted, fun {P} hends => ?_⟩
  have hf' : (({ s with described := noted } : Session).machine k).frames = b :: fs := hf
  have hguarded := guardedIfChecking_framed (R := P) hf' 0 ("read of " ++ host.display)
    (hends.mono (fun _ _ h => ⟨[], rfl, h⟩) fun _ _ h => h)
  unfold readAs
  rw [bind_ok (hnoted host hhost)]
  exact hguarded

theorem readAs_eq_readHost (run : BlockId → Action Unit) (fuel : Nat) (handler : Handler)
    (depth : Nat) (index : Int) (hl : (s.machine k).Live) {host : HostType}
    (hhost : t.hostType? = some host) (haccepts : Accepts (describeIn ctx.classes "read" t)) :
    ∃ noted, ∀ {P : Session → Session → Prop},
      Ends (readHost ctx run (readAs ctx run fuel k handler depth) fuel k index host handler
          { s with described := noted })
        (fun _ u => Leaves P k [] { s with described := noted } u)
        (fun _ u => Leaves P k [] { s with described := noted } u) →
      readAs ctx run fuel k handler (depth + 1) index t s
        = readHost ctx run (readAs ctx run fuel k handler depth) fuel k index host handler
          { s with described := noted } := by
  obtain ⟨_, b, fs, hf, _⟩ := hl
  exact readAs_framed run fuel handler depth index hf hhost haccepts

theorem readAs_of_host (run : BlockId → Action Unit) (fuel : Nat) (handler : Handler)
    (depth : Nat) (index : Int) (hl : (s.machine k).Live) {host : HostType}
    (hhost : t.hostType? = some host) (haccepts : Accepts (describeIn ctx.classes "read" t)) :
    ∃ noted, ∀ {P : Session → Session → Prop} {v : HostValue} {u : Session},
      readHost ctx run (readAs ctx run fuel k handler depth) fuel k index host handler
        { s with described := noted } = .ok v u →
      Leaves P k [] { s with described := noted } u →
      readAs ctx run fuel k handler (depth + 1) index t s = .ok v u := by
  obtain ⟨noted, heq⟩ := readAs_eq_readHost run fuel handler depth index hl hhost haccepts
  refine ⟨noted, fun {P v u} hread hleaves => (heq (P := P) ?_).trans hread⟩
  rw [hread]
  exact hleaves

/-- A value without parts has one level. -/
theorem reads_atom {a : Action HostValue} {v' : HostValue} (ha : a s = .ok v' s)
    (hv : v'.canonical = v.canonical) (hlevels : v.levels = 1) : Reads k (depth + 1) a v s :=
  reads_ok ha (by omega) hv (Leaves.refl s)

/-- A value is read by the shape of its type, if its parts can be read as what
they fit. -/
theorem readShape_reads (hopens : ∀ name, R name → Opens ctx.classes R name)
    (hbuilt : Built R t) (hv : Fits ctx.classes v t) (hfuel : sizeOf v ≤ fuel)
    (hpart : ∀ {index : Int} {v : HostValue} {t : TypeExpr}, Built R t → Fits ctx.classes v t →
      sizeOf v ≤ fuel → ReadsPart enc k depth (readAt index t) index v)
    (hr : Coded enc k s) (hat : At k s index w) (hw : Holds enc s.heap 0 w v) :
    ∃ host, t.hostType? = some host ∧ w.category? = some host.category ∧ host.shape ≠ .dynamic
      ∧ Reads k (depth + 1) (readShape ctx readAt fuel k index host) v s := by
  have hnatural : ∀ {index : Int} {v : HostValue} {t : TypeExpr}, Built R t →
      Fits ctx.classes v t → sizeOf v ≤ fuel →
      ReadsPart enc k depth (readAt index (orNatural t)) index v := by
    intro index v t hbuilt hv hfuel
    rw [orNatural_built hbuilt]
    exact hpart hbuilt hv hfuel
  cases hv with
  | boolean b =>
      cases hw
      exact ⟨_, rfl, rfl, Shape.noConfusion, reads_atom (readBoolean_eq hat) rfl rfl⟩
  | @integer n range =>
      have hclass : ctx.classes.ofInteger (.integer .plain) n = .ok (.int n) := rfl
      cases hw
      exact ⟨_, rfl, rfl, Shape.noConfusion,
        reads_atom (readInteger_eq hat hclass) rfl rfl⟩
  | @enum e n range member =>
      have hclass : ctx.classes.ofInteger (.integer (.enum e)) n = .ok (.integer (.enum e) n) := by
        exact if_pos member
      cases hw
      exact ⟨_, rfl, rfl, Shape.noConfusion,
        reads_atom (readInteger_eq hat hclass) rfl rfl⟩
  | @float x number =>
      cases hw with
      | @float _ y _ same =>
          have hnumber := onMachine_look (Vm.toNumber_float hat.value)
          exact ⟨_, rfl, rfl, Shape.noConfusion,
            reads_atom (readFloat_eq number same hnumber)
              (congrArg (HostValue.float .plain) same) rfl⟩
      | @integral _ y whole same =>
          obtain ⟨z, hz, hzy⟩ := Double.ofInt?_truncate whole
          have hnumber := onMachine_look (Vm.toNumber_int hat.value hz)
          exact ⟨_, rfl, rfl, Shape.noConfusion,
            reads_atom (readFloat_eq number (hzy.trans same) hnumber)
              (congrArg (HostValue.float .plain) (hzy.trans same)) rfl⟩
  | text x =>
      cases hw with
      | text written =>
          rw [← hr.encoding] at written
          exact ⟨_, rfl, rfl, Shape.noConfusion, reads_atom (readText_eq hat written) rfl rfl⟩
  | bytes b =>
      cases hw
      exact ⟨_, rfl, rfl, Shape.noConfusion,
        reads_atom (readBuffer_eq hat (Or.inl rfl)) rfl rfl⟩
  | array b =>
      cases hw
      exact ⟨_, rfl, rfl, Shape.noConfusion,
        reads_atom (readBuffer_eq hat (Or.inr rfl)) rfl rfl⟩
  | @list vs a items =>
      refine ⟨⟨.generic (.sequence .list) [a], .sequence⟩, rfl, ?_, Shape.noConfusion, ?_⟩
      · cases hw
        rfl
      · refine readSequence_reads hr hat hw rfl SequenceKind.noConfusion (fun h => by cases h) ?_
        intro p hp
        have hmem := List.fst_mem_of_mem_zipIdx hp
        exact hnatural hbuilt.listItem (items _ hmem) (HostValue.sizeOf_item hmem hfuel)
  | @tuple vs a items =>
      refine ⟨⟨.generic (.sequence .tuple) [a, .ellipsis], .sequence⟩, rfl, ?_, Shape.noConfusion,
        ?_⟩
      · cases hw
        rfl
      · refine readSequence_reads hr hat hw rfl SequenceKind.noConfusion (fun h => by cases h) ?_
        intro p hp
        have hmem := List.fst_mem_of_mem_zipIdx hp
        exact hnatural hbuilt.tupleItem (items _ hmem) (HostValue.sizeOf_item hmem hfuel)
  | @fixedTuple vs as length items =>
      have hbuilts := Fits.built_items hbuilt length items
      refine ⟨⟨.generic (.sequence .tuple) as, .sequence⟩, rfl, ?_, Shape.noConfusion, ?_⟩
      · cases hw
        rfl
      · refine readSequence_reads hr hat hw rfl SequenceKind.noConfusion (fun _ => length) ?_
        intro p hp
        have hmem := List.fst_mem_of_mem_zipIdx hp
        obtain ⟨a, ha, hp'⟩ := exists_getElem?_zip length (List.mem_zipIdx_iff_getElem?.mp hp)
        rw [elementType_fixed hbuilts ha]
        exact hnatural (hbuilts a (List.of_mem_zip hp').2) (items _ hp')
          (HostValue.sizeOf_item hmem hfuel)
  | @mapping kind es a b keys values differ =>
      obtain ⟨hkey, hvalue⟩ := hbuilt.entry
      have hlength : es.length < fuel := by
        have h := List.length_lt_sizeOf es
        simp only [HostValue.mapping.sizeOf_spec] at hfuel
        omega
      refine ⟨⟨.generic (.mapping kind) [a, b], .mapping⟩, rfl, ?_, Shape.noConfusion, ?_⟩
      · cases hw
        rfl
      · show Reads k (depth + 1)
          (readMapping readAt fuel k index ⟨.generic (.mapping kind) [a, b], .mapping⟩) _ s
        refine readMapping_reads hr hat hw rfl differ hlength (fun e he => ?_) fun e he => ?_
        · exact hnatural hkey (keys e he) (HostValue.sizeOf_entry he hfuel).1
        · exact hnatural hvalue (values e he) (HostValue.sizeOf_entry he hfuel).2
  | @record name hinted fields hints names values =>
      have hopen := hopens name hbuilt.allowed
      obtain ⟨_, hbuilts⟩ := hopen.hinted_fields hints
      refine ⟨⟨.cls (.record name), .record⟩, rfl, ?_, Shape.noConfusion, ?_⟩
      · cases hw
        rfl
      · show Reads k (depth + 1) (readRecord ctx readAt k index ⟨.cls (.record name), .record⟩) _ s
        refine readRecord_reads hr hat hw rfl hopen hints names values fun q hq f hf hfits => ?_
        exact hnatural (hbuilts q hq) hfits (HostValue.sizeOf_field hf hfuel)

/-- What stands for a value that fits a type is read back as that type, to the
depth that it has. -/
theorem readAs_reads (hopens : ∀ name, R name → Opens ctx.classes R name) (depth : Nat)
    {index : Int} {v : HostValue} {t : TypeExpr} (hbuilt : Built R t)
    (hv : Fits ctx.classes v t) (hfuel : sizeOf v ≤ fuel) :
    ReadsPart enc k depth (readAs ctx run fuel k handler depth index t) index v := by
  induction depth generalizing index v t with
  | zero =>
      intro w s hr hat hw
      exact ⟨⟨HostValue.levels_pos v, rfl⟩, Leaves.refl s⟩
  | succ depth ih =>
      intro w s hr hat hw
      obtain ⟨host, hhost⟩ := hostType_built hbuilt
      obtain ⟨noted, heq⟩ := readAs_eq_readHost run fuel handler depth index hr.live hhost
        (accepts_describeIn hopens hbuilt)
      let s' : Session := { s with described := noted }
      have hsame : Keeping k [] s s' := Leaves.same rfl rfl rfl rfl rfl
      have hat' : At k s' index w := ⟨hat.place⟩
      obtain ⟨host', hhost', hcategory, hshape, hreads⟩ :=
        readShape_reads hopens hbuilt hv hfuel ih (hr.during hsame) hat' hw
      obtain rfl : host' = host := Option.some.inj (hhost'.symm.trans hhost)
      have hread : Reads k (depth + 1) (readHost ctx run (readAs ctx run fuel k handler depth) fuel
          k index host' handler) v s' := by
        unfold Reads
        rw [readHost_of_category hat'.value hcategory hshape]
        exact hreads
      unfold Reads
      rw [heq (hread.mono (fun _ _ h => h.2.2) fun _ _ h => h.2)]
      refine hread.mono ?_ ?_
      · rintro v' t ⟨hlevels, hv', ht⟩
        exact ⟨hlevels, hv', hsame.trans ht⟩
      · rintro e t ⟨hdeep, ht⟩
        exact ⟨hdeep, hsame.trans ht⟩

end Bridge

end StackBridge
