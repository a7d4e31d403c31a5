import StackBridge.Proofs.Read.Answered
import StackBridge.Proofs.Read.Conforms
import StackBridge.Proofs.Read.Untouched

/-!
What a read lets through conforms to the type (`readValue_sound`), at every
depth: a read that answers has compared the category of each part that the type
speaks of, and has left none of them out.

It takes a part's type to be anything if the declared one is the missing type,
because that also stands for no declared type. So the parts of a list of the
missing type are not compared at all (`list_of_none_read`), and the
conformance that is proved is the one where the missing type demands nothing.
-/

namespace StackBridge

namespace Bridge

open Session

variable {ctx : Context} {run : BlockId → Action Unit} {k : MachineId} {s s' t t' u : Session}
  {α : Type} {index : Int} {id : TableId} {w : Value}

-- ================================================================== moments

/-- A table may have been found to hold this between two sessions. -/
def Found (k : MachineId) (s s' : Session) (id : TableId) (u : Table) : Prop :=
  ∃ m, Grows k s m ∧ Grows k m s' ∧ m.heap.table id = u

theorem Found.widen {v : Table} (h : Found k t t' id v) (hs : Grows k s t) (hs' : Grows k t' s') :
    Found k s s' id v := by
  obtain ⟨m, hm, hm', hv⟩ := h
  exact ⟨m, hs.trans hm, hm'.trans hs', hv⟩

theorem found_first (h : Grows k s s') (id : TableId) : Found k s s' id (s.heap.table id) :=
  ⟨s, .of_same rfl rfl rfl, h, rfl⟩

/-- Only the registry can have been found to hold something else than it held
before. -/
theorem Found.eq {v : Table} (h : Found k s s' id v) (hid : id ≠ (s.machine k).registry) :
    v = s.heap.table id := by
  obtain ⟨m, hm, _, rfl⟩ := h
  exact hm.table id hid

/-- What is read conforms, with regard to what is found from one session to
another. -/
abbrev ConformsFrom (ctx : Context) (k : MachineId) (s s' : Session) :
    Option Value → TypeExpr → Prop :=
  Conforms ctx.classes .any (Found k s s')

theorem conformsFrom_widen {v : Option Value} {type : TypeExpr}
    (h : ConformsFrom ctx k t t' v type) (hs : Grows k s t) (hs' : Grows k t' s') :
    ConformsFrom ctx k s s' v type :=
  h.mono fun _ _ hfound => hfound.widen hs hs'

theorem gathers_widen {xs : List Value} (h : Gathers k [] s t) (h' : Gathers k xs t u) :
    Gathers k xs s u :=
  h.trans h'

/-- A read of an index as a type lets through only what conforms. -/
def ReadsSoundly (ctx : Context) (k : MachineId) (read : Action HostValue) (index : Int)
    (type : TypeExpr) : Prop :=
  ∀ s v s', k < s.machines.size → s.heap.WellKept → read s = .ok v s' →
    Gathers k [] s s' ∧ ∃ w, Vm.valueAt? index (s.vm k) = .ok w (s.vm k)
      ∧ ConformsFrom ctx k s s' w type

/-- An index that means a table, whatever comes on top. -/
def MeansTable (k : MachineId) (index : Int) (id : TableId) (s : Session) : Prop :=
  ∀ xs t, Gathers k xs s t → Vm.valueAt? index (t.vm k) = .ok (some (.table id)) (t.vm k)

theorem MeansTable.later {xs : List Value} (h : MeansTable k index id s) (hst : Gathers k xs s t) :
    MeansTable k index id t :=
  fun _ _ htu => h _ _ (hst.trans htu)

-- ==================================================================== parts

/-- What a table holds under a key comes on top. -/
theorem getKey_gathers {key : Value} {c c' : Category} (hk : k < s.machines.size)
    (hi : Vm.valueAt? index (s.vm k) = .ok (some (.table id)) (s.vm k))
    (hkey : key.category? = some c') (hget : onMachine k (Vm.getKey index key) s = .ok c t) :
    Gathers k [(s.heap.table id).get key] s t
      ∧ ((s.heap.table id).get key).category? = some c := by
  obtain ⟨vm, hvm⟩ := onMachine_answered hget
  obtain ⟨id', hi', rfl, hc⟩ := Vm.getKey_answered hkey hvm
  rw [hi] at hi'
  cases hi'
  rw [onMachine_ok hvm] at hget
  cases hget
  exact ⟨push_leaves hk _, hc⟩

/-- The top is read and popped. -/
theorem popping_sound {read : Action HostValue} {type : TypeExpr} {v : HostValue}
    (hread : ReadsSoundly ctx k read (-1) type) (hk : k < s.machines.size)
    (hw : t.heap.WellKept) (h : Gathers k [w] s t) (hpopping : popping k read t = .ok v u) :
    Gathers k [] s u ∧ ConformsFrom ctx k s u (some w) type := by
  have hkt : k < t.machines.size := by rw [h.size]; exact hk
  unfold popping at hpopping
  obtain ⟨v', t', hv, hrest⟩ := bind_answered hpopping
  obtain ⟨_, u', hpop, hanswer⟩ := bind_answered hrest
  cases hanswer
  obtain ⟨ht', x, hx, hconforms⟩ := hread t _ t' hkt hw hv
  have htop : x = some w := Vm.valueAt?_answered (r := []) hx h.slots (by decide)
  subst htop
  have hgathers : Gathers k ([] ++ [w]) s t' := by
    have hlast := h.trans ht'
    rw [List.append_nil] at hlast
    exact hlast
  obtain ⟨hu, hpopped⟩ := pop_gathers w hgathers hk hpop
  exact ⟨hu, conformsFrom_widen hconforms h.rest hpopped⟩

-- =================================================================== tables

section

variable {readAt : Int → TypeExpr → Action HostValue}
  (hread : ∀ i type, ReadsSoundly ctx k (readAt i type) i type)

include hread

/-- Each of the elements that are read conforms. -/
theorem readItems_sound {host : HostType} {i count : Nat} {vs : List HostValue}
    (hk : k < s.machines.size) (hw : s.heap.WellKept) (hi : MeansTable k index id s)
    (h : readItems readAt k index host i count s = .ok vs s') :
    Gathers k [] s s' ∧ ∀ j, i ≤ j → j < i + count → ∃ w,
      (∃ u, Found k s s' id u ∧ u.get (.int ((j : Int) + 1)) = w)
        ∧ ConformsFrom ctx k s s' (some w) (orNatural (host.elementType j)) := by
  induction count generalizing i s vs with
  | zero =>
      cases h
      exact ⟨Leaves.refl _, fun j hij hj => absurd hj (by omega)⟩
  | succ count ih =>
      unfold readItems at h
      obtain ⟨c, t, hget, hrest⟩ := bind_answered h
      obtain ⟨v, u, hpopping, hrest'⟩ := bind_answered hrest
      obtain ⟨vs', s'', hitems, hanswer⟩ := bind_answered hrest'
      cases hanswer
      obtain ⟨hst, _⟩ := getKey_gathers hk (hi [] _ (Leaves.refl _)) rfl hget
      obtain ⟨hsu, hfirst⟩ :=
        popping_sound (hread (-1) _) hk (hst.rest.wellKept hw) hst hpopping
      have hku : k < u.machines.size := by rw [hsu.size]; exact hk
      obtain ⟨hus', hothers⟩ := ih hku (hsu.rest.wellKept hw) (hi.later hsu) hitems
      refine ⟨gathers_widen hsu hus', fun j hij hj => ?_⟩
      by_cases hji : j = i
      · subst hji
        refine ⟨_, ⟨_, found_first (hsu.rest.trans hus'.rest) id, rfl⟩, ?_⟩
        exact conformsFrom_widen hfirst (.of_same rfl rfl rfl) hus'.rest
      · obtain ⟨w, ⟨x, hx, hw⟩, hconforms⟩ := hothers j (by omega) (by omega)
        have hsame : Grows k s' s' := .of_same rfl rfl rfl
        exact ⟨w, ⟨x, hx.widen hsu.rest hsame, hw⟩,
          conformsFrom_widen hconforms hsu.rest hsame⟩

/-- The value on top and the key below it are read, and the value is popped. -/
theorem readEntry_sound {keyType valueType : TypeExpr} {s₀ t₁ t₂ : Session} {key v : Value}
    {key' v' : HostValue} (hk : k < s₀.machines.size) (hw : t.heap.WellKept)
    (h : Gathers k [key, v] s₀ t) (hvalue : readAt (-1) valueType t = .ok v' t₁)
    (hkey : readAt (-2) keyType t₁ = .ok key' t₂)
    (hpop : onMachine k (Vm.pop 1) t₂ = .ok () u) :
    Gathers k [key] s₀ u ∧ Grows k t u ∧ ConformsFrom ctx k t u (some key) keyType
      ∧ ConformsFrom ctx k t u (some v) valueType := by
  have hkt : k < t.machines.size := by rw [h.size]; exact hk
  obtain ⟨h₁, x, hx, hxconforms⟩ := hread (-1) valueType t v' t₁ hkt hw hvalue
  have hkt₁ : k < t₁.machines.size := by rw [h₁.size]; exact hkt
  obtain ⟨h₂, y, hy, hyconforms⟩ :=
    hread (-2) keyType t₁ key' t₂ hkt₁ (h₁.rest.wellKept hw) hkey
  have hslots : (t.machine k).slots = ((s₀.machine k).slots ++ [key]) ++ v :: [] := by
    rw [h.slots, List.append_assoc]
    rfl
  have hslots₁ : (t₁.machine k).slots = (s₀.machine k).slots ++ key :: [v] := by
    rw [h₁.slots, List.append_nil, h.slots]
  have htop : x = some v := Vm.valueAt?_answered (r := []) hx hslots (by decide)
  have hsecond : y = some key := Vm.valueAt?_answered (r := [v]) hy hslots₁ (by simp)
  subst htop hsecond
  have hgathers : Gathers k ([key] ++ [v]) s₀ t₂ := by
    have hboth := h.trans (h₁.trans h₂)
    rw [List.append_nil, List.append_nil] at hboth
    exact hboth
  obtain ⟨hu, hpopped⟩ := pop_gathers v hgathers hk hpop
  refine ⟨hu, h₁.rest.trans (h₂.rest.trans hpopped), ?_, ?_⟩
  · exact conformsFrom_widen hyconforms h₁.rest hpopped
  · exact conformsFrom_widen hxconforms (.of_same rfl rfl rfl) (h₂.rest.trans hpopped)

/-- The entries that are ahead are read, each with its key. -/
theorem readEntries_sound {keyType valueType : TypeExpr} {fuel : Nat}
    {es es' : List (HostValue × HostValue)} {last : Option Key} {s₀ : Session}
    (hk : k < s₀.machines.size) (hi : MeansTable k index id s₀) (hw : s.heap.WellKept)
    (hlast : ∀ key ∈ last, (s.heap.table id).has key = true)
    (hcursor : Gathers k [Table.cursor last] s₀ s)
    (h : readEntries readAt k index keyType valueType fuel es s = .ok es' s') :
    Gathers k [] s₀ s' ∧ Grows k s s' ∧
      ∀ key, (last.toList ++ [key]).Sublist (s.heap.table id).live → ∃ w,
        (∃ u, Found k s s' id u ∧ u.find? key = some w)
          ∧ ConformsFrom ctx k s s' (some key.value) keyType
          ∧ ConformsFrom ctx k s s' (some w) valueType := by
  induction fuel generalizing s es last with
  | zero => cases h
  | succ fuel ih =>
      unfold readEntries at h
      obtain ⟨more, t, hnext, hmore⟩ := bind_answered h
      obtain ⟨vm, hvm⟩ := onMachine_answered hnext
      rw [onMachine_ok hvm] at hnext
      have htable := hw id
      rcases Vm.next_answered hvm (hi _ s hcursor) hcursor.slots with
        ⟨rfl, hend, rfl⟩ | ⟨e, rfl, hstep, rfl⟩
      · cases hnext
        cases hmore
        have hleft := hcursor.withSlots hk []
        rw [List.append_nil] at hleft
        exact ⟨hleft, slots_unseen s _,
          fun key hkey => absurd hkey (Table.next_ends htable hlast hend)⟩
      · cases hnext
        obtain ⟨hfind, hahead⟩ := Table.next_reaches htable hlast hstep
        have hentry := hcursor.withSlots hk [e.1.value, e.2]
        obtain ⟨v', t₁, hvalue, hrest⟩ := bind_answered hmore
        obtain ⟨key', t₂, hkey, hrest'⟩ := bind_answered hrest
        obtain ⟨_, u, hpop, hrest''⟩ := bind_answered hrest'
        obtain ⟨es'', u', hinsert, hothers⟩ := bind_answered hrest''
        obtain rfl : u' = u := by
          cases hdict : Dict.insert es key' v' with
          | error f =>
              rw [hdict] at hinsert
              cases hinsert
          | ok es₁ =>
              rw [hdict] at hinsert
              cases hinsert
              rfl
        obtain ⟨hu, hgrown, hkeys, hvalues⟩ :=
          readEntry_sound hread hk (by exact hw) hentry hvalue hkey hpop
        have hreached : Grows k s (s.withSlots k ((s₀.machine k).slots ++ [e.1.value, e.2])) :=
          slots_unseen s _
        have hsu : Grows k s u' := hreached.trans hgrown
        have hsublist := hsu.liveTable id
        have hwu := hsu.wellKept hw
        -- the key that has been reached is still there, so the traversal goes on from it
        have hstill : ∀ key ∈ some e.1, (u'.heap.table id).has key = true := by
          rintro _ ⟨rfl⟩
          have hlive := (Table.mem_live htable).mpr (Table.has_of_find? hfind)
          exact (Table.mem_live (hwu id)).mp (hsublist.subset hlive)
        obtain ⟨hs₀, hus', hlater⟩ := ih hwu hstill hu hothers
        have hsame : Grows k s' s' := .of_same rfl rfl rfl
        refine ⟨hs₀, hsu.trans hus', fun x hx => ?_⟩
        rcases hahead x hx with rfl | hpair
        · refine ⟨e.2, ⟨_, found_first (hsu.trans hus') id, hfind⟩, ?_, ?_⟩
          · exact conformsFrom_widen hkeys hreached hus'
          · exact conformsFrom_widen hvalues hreached hus'
        · obtain ⟨w, ⟨x', hx', hw'⟩, hkeys', hvalues'⟩ := hlater x (hpair.trans hsublist)
          exact ⟨w, ⟨x', hx'.widen hsu hsame, hw'⟩, conformsFrom_widen hkeys' hsu hsame,
            conformsFrom_widen hvalues' hsu hsame⟩

/-- Each of the fields that are read conforms, or is left to its default. -/
theorem readFields_sound {fields : List (FieldSpec × TypeExpr)}
    {given : List (String × HostValue)} (hk : k < s.machines.size) (hw : s.heap.WellKept)
    (hi : MeansTable k index id s)
    (h : readFields readAt k index fields s = .ok given s') :
    Gathers k [] s s' ∧ ∀ p ∈ fields, p.1.init = true → ∃ w,
      (∃ u, Found k s s' id u ∧ u.get (.str (utf8 p.1.name)) = w)
        ∧ (¬ (w = .nil ∧ p.1.hasDefault = true) →
            ConformsFrom ctx k s s' (some w) (orNatural p.2)) := by
  induction fields generalizing s given with
  | nil =>
      cases h
      exact ⟨Leaves.refl _, fun p hp => absurd hp List.not_mem_nil⟩
  | cons p fields ih =>
      obtain ⟨f, type⟩ := p
      unfold readFields at h
      by_cases hinit : f.init = true
      · simp only [hinit, Bool.not_true, Bool.false_eq_true, if_false] at h
        obtain ⟨c, t, hget, hrest⟩ := bind_answered h
        obtain ⟨hst, hc⟩ := getKey_gathers hk (hi [] _ (Leaves.refl _)) rfl hget
        -- what becomes of the field itself, and the fields after it
        have hfield : ∃ u, Gathers k [] s u
            ∧ (¬ ((s.heap.table id).get (.str (utf8 f.name)) = .nil ∧ f.hasDefault = true) →
                ConformsFrom ctx k s u (some ((s.heap.table id).get (.str (utf8 f.name))))
                  (orNatural type))
            ∧ ∃ given', readFields readAt k index fields u = .ok given' s' := by
          by_cases hdefault : (decide (c = .nil) && f.hasDefault) = true
          · rw [if_pos hdefault] at hrest
            obtain ⟨_, u, hpop, hfields⟩ := bind_answered hrest
            have hlast : Gathers k ([] ++ [(s.heap.table id).get (.str (utf8 f.name))]) s t := hst
            obtain ⟨hu, _⟩ := pop_gathers _ hlast hk hpop
            obtain ⟨hnil, hhas⟩ := Bool.and_eq_true_iff.mp hdefault
            have hvalue : (s.heap.table id).get (.str (utf8 f.name)) = .nil := by
              rw [of_decide_eq_true hnil] at hc
              exact eq_nil_of_category hc
            exact ⟨u, hu, fun hnot => absurd ⟨hvalue, hhas⟩ hnot, given, hfields⟩
          · rw [if_neg hdefault] at hrest
            obtain ⟨v, u, hpopping, hrest'⟩ := bind_answered hrest
            obtain ⟨given', s'', hfields, hanswer⟩ := bind_answered hrest'
            cases hanswer
            obtain ⟨hu, hconforms⟩ :=
              popping_sound (hread (-1) _) hk (hst.rest.wellKept hw) hst hpopping
            exact ⟨u, hu, fun _ => hconforms, given', hfields⟩
        obtain ⟨u, hsu, hconforms, given', hfields⟩ := hfield
        have hku : k < u.machines.size := by rw [hsu.size]; exact hk
        obtain ⟨hus', hothers⟩ := ih hku (hsu.rest.wellKept hw) (hi.later hsu) hfields
        have hsame : Grows k s' s' := .of_same rfl rfl rfl
        refine ⟨gathers_widen hsu hus', fun q hq hqinit => ?_⟩
        rcases List.mem_cons.mp hq with rfl | hmem
        · exact ⟨_, ⟨_, found_first (hsu.rest.trans hus'.rest) id, rfl⟩, fun hnot =>
            conformsFrom_widen (hconforms hnot) (.of_same rfl rfl rfl) hus'.rest⟩
        · obtain ⟨w, ⟨x, hx, hw'⟩, hconforms'⟩ := hothers q hmem hqinit
          exact ⟨w, ⟨x, hx.widen hsu.rest hsame, hw'⟩, fun hnot =>
            conformsFrom_widen (hconforms' hnot) hsu.rest hsame⟩
      · have hskip : (!f.init) = true := by rw [Bool.eq_false_iff.mpr hinit]; rfl
        rw [if_pos hskip] at h
        obtain ⟨hs', hothers⟩ := ih hk hw hi h
        refine ⟨hs', fun q hq hqinit => ?_⟩
        rcases List.mem_cons.mp hq with rfl | hmem
        · exact absurd hqinit hinit
        · exact hothers q hmem hqinit

end

-- ================================================================= compounds

/-- Reading takes for anything what is declared to be the missing type. -/
theorem demanded_any (declared : Option TypeExpr) :
    demanded .any declared = orNatural (declared.getD .none) := by
  cases declared with
  | none => rfl
  | some type => cases type <;> rfl

theorem declaredItem_getD (host : HostType) (i : Nat) :
    (host.declaredItem i).getD .none = host.elementType i := by
  unfold HostType.declaredItem HostType.elementType
  split
  · rw [List.getD_eq_getElem?_getD]
  · rw [List.headD_eq_head?_getD]

theorem declaredEntry_getD (host : HostType) :
    (host.declaredEntry.1.getD .none, host.declaredEntry.2.getD .none) = host.entryTypes := by
  unfold HostType.declaredEntry HostType.entryTypes
  rcases host.args with _ | ⟨a, _ | ⟨b, _ | ⟨c, as⟩⟩⟩ <;> rfl

/-- An index at which there is a table means it absolutely. -/
theorem absIndex_means {i : Int} (habs : onMachine k (Vm.absIndex index) s = .ok i t)
    (hi : Vm.valueAt? index (s.vm k) = .ok (some (.table id)) (s.vm k)) :
    t = s ∧ MeansTable k i id s := by
  obtain ⟨rfl, habs'⟩ := looked_onMachine (Vm.looks_absIndex index) habs
  exact ⟨rfl, fun xs u hu => Vm.absIndex_answered habs' hi hu.frames hu.registry hu.slots⟩

section

variable {readAt : Int → TypeExpr → Action HostValue}
  (hread : ∀ i type, ReadsSoundly ctx k (readAt i type) i type) {type : TypeExpr} {host : HostType}
  {v : HostValue} (hdescribed : type.hostType? = some host) (hk : k < s.machines.size)
  (hw : s.heap.WellKept) (hi : Vm.valueAt? index (s.vm k) = .ok (some (.table id)) (s.vm k))

include hread hdescribed hk hw hi

theorem readSequence_sound (hshape : host.shape = .sequence)
    (h : readSequence readAt k index host s = .ok v s') :
    Gathers k [] s s' ∧ ConformsFrom ctx k s s' (some (.table id)) type := by
  unfold readSequence at h
  obtain ⟨i, t, habs, hcounting⟩ := bind_answered h
  obtain ⟨rfl, hmeans⟩ := absIndex_means habs hi
  have hcounted : ∃ vs, restoringTop k (readItems readAt k i host 0
      (host.itemCount (t.heap.table id))) t = .ok vs s' := by
    unfold HostType.itemCount
    dsimp only at hcounting
    by_cases hfixed : host.isFixedTuple = true
    · rw [if_pos hfixed, bind_ok (pure_apply _ t)] at hcounting
      obtain ⟨vs, u, hitems, hanswer⟩ := bind_answered hcounting
      cases hanswer
      rw [if_pos hfixed]
      exact ⟨vs, hitems⟩
    · have hlength := Vm.rawLength_table (hmeans [] t (Leaves.refl t))
      rw [if_neg hfixed, bind_ok (onMachine_look hlength)] at hcounting
      obtain ⟨vs, u, hitems, hanswer⟩ := bind_answered hcounting
      cases hanswer
      rw [if_neg hfixed]
      exact ⟨vs, hitems⟩
  obtain ⟨vs, hitems⟩ := hcounted
  obtain ⟨hs', hparts⟩ := readItems_sound hread hk hw hmeans (restoringTop_answered hitems)
  have hpart : ∀ j < host.itemCount (t.heap.table id), ∃ w,
      (∃ x, Found k t s' id x ∧ x.get (.int ((j : Int) + 1)) = w)
        ∧ ConformsFrom ctx k t s' (some w) (demanded .any (host.declaredItem j)) := by
    intro j hj
    rw [demanded_any, declaredItem_getD]
    exact hparts j (Nat.zero_le j) (by omega)
  choose! part hfound hconforms using hpart
  exact ⟨hs', .sequence _ part hdescribed hshape (found_first hs'.rest id) hfound hconforms⟩

theorem readMapping_sound {fuel : Nat} (hshape : host.shape = .mapping)
    (h : readMapping readAt fuel k index host s = .ok v s') :
    Gathers k [] s s' ∧ ConformsFrom ctx k s s' (some (.table id)) type := by
  unfold readMapping at h
  rw [← declaredEntry_getD] at h
  dsimp only at h
  obtain ⟨i, t, habs, hreading⟩ := bind_answered h
  obtain ⟨rfl, hmeans⟩ := absIndex_means habs hi
  obtain ⟨es, u, hentries, hanswer⟩ := bind_answered hreading
  obtain rfl : u = s' := by
    generalize host.origin? = origin at hanswer
    rcases origin with _ | c
    · cases hanswer
      rfl
    · cases c <;> cases hanswer <;> rfl
  have hblock := restoringTop_answered hentries
  rw [bind_ok (push_eq t k .nil)] at hblock
  have hcursor : Gathers k [Table.cursor none] t
      (t.withSlots k ((t.machine k).slots ++ [.nil])) := push_leaves hk .nil
  obtain ⟨hs', _, hparts⟩ :=
    readEntries_sound hread hk hmeans (by exact hw) (fun _ h => by cases h) hcursor hblock
  have hpushed : Grows k t (t.withSlots k ((t.machine k).slots ++ [.nil])) := slots_unseen t _
  have hsame : Grows k u u := .of_same rfl rfl rfl
  have hpart : ∀ key, (t.heap.table id).has key = true → ∃ w,
      (∃ x, Found k t u id x ∧ x.find? key = some w)
        ∧ ConformsFrom ctx k t u (some key.value) (demanded .any host.declaredEntry.1)
        ∧ ConformsFrom ctx k t u (some w) (demanded .any host.declaredEntry.2) := by
    intro key hkey
    have hlive : ((none : Option Key).toList ++ [key]).Sublist (t.heap.table id).live :=
      List.singleton_sublist.mpr ((Table.mem_live (hw id)).mpr hkey)
    obtain ⟨w, ⟨x, hx, hw'⟩, hkeys, hvalues⟩ := hparts key hlive
    rw [demanded_any, demanded_any]
    exact ⟨w, ⟨x, hx.widen hpushed hsame, hw'⟩, conformsFrom_widen hkeys hpushed hsame,
      conformsFrom_widen hvalues hpushed hsame⟩
  choose! part hfound hkeys hvalues using hpart
  exact ⟨hs', .mapping _ part hdescribed hshape (found_first hs'.rest id) hfound hkeys hvalues⟩

theorem readRecord_sound (hshape : host.shape = .record)
    (h : readRecord ctx readAt k index host s = .ok v s') :
    Gathers k [] s s' ∧ ConformsFrom ctx k s s' (some (.table id)) type := by
  unfold readRecord at h
  obtain ⟨i, t, habs, hreading⟩ := bind_answered h
  obtain ⟨rfl, hmeans⟩ := absIndex_means habs hi
  obtain ⟨given, u, hgiven, hbuilt⟩ := bind_answered hreading
  obtain rfl : u = s' := by
    cases hbuild : ctx.classes.build host.recordName given with
    | error f =>
        rw [hbuild] at hbuilt
        cases hbuilt
    | ok x =>
        rw [hbuild] at hbuilt
        cases hbuilt
        rfl
  obtain ⟨fields, t', hhinted, hfields⟩ := bind_answered (restoringTop_answered hgiven)
  cases hhints : hintedFields ctx.classes host.recordName with
  | error f =>
      rw [hhints] at hhinted
      cases hhinted
  | ok fields' =>
      rw [hhints] at hhinted
      cases hhinted
      obtain ⟨hs', hparts⟩ := readFields_sound hread hk hw hmeans hfields
      choose! part hfound hconforms using hparts
      exact ⟨hs', .record _ part hdescribed hshape hhints hfound hconforms⟩

end

-- ============================================================ plain shapes

theorem returns_guestOr (index : Int) (v : HostValue) : Returns k (guestOr k index v) :=
  (returns_look (Vm.looks_guestAt? index)).bind fun _ => returns_pure _

theorem returns_readNatural (index : Int) : Returns k (readNatural k index) := by
  refine (returns_look (Vm.looks_categoryAt index)).bind fun _ => ?_
  refine (returns_look (Vm.looks_valueAt? index)).bind fun v => ?_
  split
  · exact returns_pure _
  · exact returns_pure _
  · exact returns_pure _
  · exact returns_guestOr _ _
  · exact returns_individual _
  · exact (returns_decodeText _).bind fun _ => returns_pure _
  · exact (returns_wrap index).bind fun _ => returns_pure _

theorem returns_readInteger (index : Int) (host : HostType) :
    Returns k (readInteger ctx k index host) := by
  have hclassed : ∀ v, Returns k (asInteger ctx host v) := by
    intro v
    unfold asInteger
    split
    · exact returns_pure _
    · exact returns_pure _
    · exact returns_ofHost _
    · exact returns_pure _
  refine (returns_look (Vm.looks_isInteger index)).bind fun b => ?_
  split
  · refine (returns_look (Vm.looks_toInteger index)).bind fun n => ?_
    exact Returns.bind (returns_guestOr index _) hclassed
  · refine (returns_look (Vm.looks_toNumber index)).bind fun x => ?_
    exact Returns.bind (returns_pure _) hclassed

theorem returns_readFloat (index : Int) (host : HostType) :
    Returns k (readFloat k index host) := by
  refine (returns_look (Vm.looks_toNumber index)).bind fun x => ?_
  split
  · exact (returns_ofHost _).bind fun v => returns_individual v
  · exact returns_individual _

theorem returns_readCallable (index : Int) (host : HostType) :
    Returns k (readCallable k index host) := by
  refine (returns_wrap index).bind fun id => ?_
  split <;> exact returns_pure _

/-- What is done with the bytes of a string does not touch the stack. -/
theorem readBuffer_gathers {host : HostType} {v : HostValue} (hk : k < s.machines.size)
    (hc : Vm.categoryAt index (s.vm k) = .ok .string (s.vm k))
    (h : readBuffer k index host s = .ok v s') : Gathers k [] s s' := by
  obtain ⟨b, hb⟩ := readBytes_eq hc
  unfold readBuffer at h
  rw [bind_ok hb] at h
  refine (?_ : Returns k _) s v s' hk h
  split
  · exact (returns_decodeText b).bind fun _ => returns_pure _
  · exact returns_guestOr index _
  · exact returns_guestOr index _
  · exact returns_pure _
  · exact returns_pure _

theorem readTextPointer_gathers {v : HostValue}
    (hc : Vm.categoryAt index (s.vm k) = .ok .string (s.vm k))
    (h : readTextPointer k index s = .ok v s') : Gathers k [] s s' := by
  obtain ⟨b, hb⟩ := readBytes_eq hc
  unfold readTextPointer at h
  rw [bind_ok hb] at h
  cases h
  exact Leaves.refl s

theorem returns_readDynamic (index : Int) (host : HostType) :
    Returns k (readDynamic k index host) := by
  unfold readDynamic
  split
  · exact (returns_wrap index).bind fun _ => returns_pure _
  · exact returns_readNatural index

/-- An action that answers only if an index is valid. -/
def Finds (k : MachineId) (index : Int) (a : Action α) : Prop :=
  ∀ s x t, a s = .ok x t → ∃ y, Vm.valueAt? index (s.vm k) = .ok y (s.vm k)

theorem Finds.bind {β : Type} {a : Action α} (ha : Finds k index a) (f : α → Action β) :
    Finds k index (a >>= f) := by
  intro s x t h
  obtain ⟨y, u, hy, _⟩ := bind_answered h
  exact ha s y u hy

theorem finds_wrap (index : Int) : Finds k index (wrap k index) := by
  refine Finds.bind (fun s x t h => ?_) _
  obtain ⟨vm, hvm⟩ := onMachine_answered h
  unfold Vm.pushCopy at hvm
  obtain ⟨y, vm', hy, _⟩ := bind_answered hvm
  obtain rfl := Vm.looked (Vm.looks_valueAt? index) hy
  exact ⟨y, hy⟩

theorem finds_readDynamic (index : Int) (host : HostType) :
    Finds k index (readDynamic k index host) := by
  unfold readDynamic
  split
  · exact (finds_wrap index).bind _
  · refine Finds.bind (fun s c t h => ?_) _
    obtain ⟨rfl, hc⟩ := looked_onMachine (Vm.looks_categoryAt index) h
    obtain ⟨x, hx, _⟩ := Vm.categoryAt_answered hc
    exact ⟨x, hx⟩

-- ================================================================== values

/-- No type asks for a place without a value. -/
theorem category_ne_absent (host : HostType) : host.category ≠ .absent := by
  unfold HostType.category
  cases host.shape <;> exact Category.noConfusion

/-- A handler that raises does not answer. -/
theorem handle_raises {h : Handler} (hh : Raises h) {actual expected : Category} {v : HostValue} :
    handle ctx run k h actual expected s ≠ .ok v s' := by
  have hraised : ∀ text : String, ¬ ∃ u x y, onMachine k (Vm.raiseText text) u
      = (.ok x y : EStateM.Result Stop Session HostValue) := by
    rintro text ⟨u, x, y, h⟩
    cases h
  intro hanswer
  cases h with
  | standard =>
      obtain ⟨wanted, t, _, hrest⟩ := bind_answered hanswer
      obtain ⟨got, u, _, hraise⟩ := bind_answered hrest
      exact hraised _ ⟨_, _, _, hraise⟩
  | strict => cases hanswer
  | badArgument position function =>
      obtain ⟨wanted, t, _, hrest⟩ := bind_answered hanswer
      obtain ⟨got, u, _, hraise⟩ := bind_answered hrest
      exact hraised _ ⟨_, _, _, hraise⟩
  | custom block result => exact hh

/-- What a shape answers for a value of its category conforms. -/
theorem readShape_sound {readAt : Int → TypeExpr → Action HostValue}
    (hread : ∀ i type, ReadsSoundly ctx k (readAt i type) i type) {fuel : Nat} {type : TypeExpr}
    {host : HostType} {v : HostValue} {w : Value} (hdescribed : type.hostType? = some host)
    (hdynamic : host.shape ≠ .dynamic) (hk : k < s.machines.size) (hw : s.heap.WellKept)
    (hx : Vm.valueAt? index (s.vm k) = .ok (some w) (s.vm k))
    (hcategory : w.category? = some host.category)
    (hc : Vm.categoryAt index (s.vm k) = .ok host.category (s.vm k))
    (hanswer : readShape ctx readAt fuel k index host s = .ok v s') :
    Gathers k [] s s' ∧ ConformsFrom ctx k s s' (some w) type := by
  have hplain : host.category ≠ .table → Gathers k [] s s' →
      Gathers k [] s s' ∧ ConformsFrom ctx k s s' (some w) type :=
    fun hne hs' => ⟨hs', .plain hdescribed hne hcategory⟩
  have htable : host.category = .table → ∃ id, w = .table id := by
    intro heq
    rw [heq] at hcategory
    exact table_of_category hcategory
  have hshape : host.category = host.shape.category := rfl
  unfold readShape at hanswer
  cases hcase : host.shape with
  | dynamic => exact absurd hcase hdynamic
  | absent =>
      rw [hcase] at hanswer hshape
      cases hanswer
      exact hplain (by rw [hshape]; decide) (Leaves.refl _)
  | boolean =>
      rw [hcase] at hanswer hshape
      refine hplain (by rw [hshape]; decide) ?_
      exact ((returns_look (Vm.looks_toBoolean index)).bind fun _ => returns_pure _)
        s v s' hk hanswer
  | integer =>
      rw [hcase] at hanswer hshape
      exact hplain (by rw [hshape]; decide) (returns_readInteger index host s v s' hk hanswer)
  | float =>
      rw [hcase] at hanswer hshape
      exact hplain (by rw [hshape]; decide) (returns_readFloat index host s v s' hk hanswer)
  | textPointer =>
      rw [hcase] at hanswer hshape
      rw [hshape] at hc
      exact hplain (by rw [hshape]; decide) (readTextPointer_gathers hc hanswer)
  | buffer =>
      rw [hcase] at hanswer hshape
      rw [hshape] at hc
      exact hplain (by rw [hshape]; decide) (readBuffer_gathers hk hc hanswer)
  | callable =>
      rw [hcase] at hanswer hshape
      exact hplain (by rw [hshape]; decide) (returns_readCallable index host s v s' hk hanswer)
  | mapping =>
      rw [hcase] at hanswer hshape
      obtain ⟨id, rfl⟩ := htable hshape
      exact readMapping_sound hread hdescribed hk hw hx hcase hanswer
  | record =>
      rw [hcase] at hanswer hshape
      obtain ⟨id, rfl⟩ := htable hshape
      exact readRecord_sound hread hdescribed hk hw hx hcase hanswer
  | sequence =>
      rw [hcase] at hanswer hshape
      obtain ⟨id, rfl⟩ := htable hshape
      exact readSequence_sound hread hdescribed hk hw hx hcase hanswer

theorem readHost_sound {readAt : Int → TypeExpr → Action HostValue}
    (hread : ∀ i type, ReadsSoundly ctx k (readAt i type) i type) {h : Handler} (hh : Raises h)
    {fuel : Nat} {type : TypeExpr} {host : HostType} {v : HostValue}
    (hdescribed : type.hostType? = some host) (hk : k < s.machines.size) (hw : s.heap.WellKept)
    (hanswer : readHost ctx run readAt fuel k index host h s = .ok v s') :
    Gathers k [] s s' ∧ ∃ x, Vm.valueAt? index (s.vm k) = .ok x (s.vm k)
      ∧ ConformsFrom ctx k s s' x type := by
  unfold readHost at hanswer
  by_cases hdynamic : host.shape = .dynamic
  · rw [if_pos hdynamic] at hanswer
    unfold readShape at hanswer
    rw [hdynamic] at hanswer
    obtain ⟨x, hx⟩ := finds_readDynamic index host s v s' hanswer
    exact ⟨returns_readDynamic index host s v s' hk hanswer, x, hx, .dynamic hdescribed hdynamic⟩
  · rw [if_neg hdynamic] at hanswer
    obtain ⟨actual, t, hactual, hrest⟩ := bind_answered hanswer
    obtain ⟨rfl, hc⟩ := looked_onMachine (Vm.looks_categoryAt index) hactual
    by_cases hmismatch : actual ≠ host.category
    · rw [if_pos hmismatch] at hrest
      exact absurd hrest (handle_raises hh)
    · rw [if_neg hmismatch] at hrest
      obtain rfl := Decidable.not_not.mp hmismatch
      obtain ⟨x, hx, ⟨_, habsent⟩ | ⟨w, rfl, hcategory⟩⟩ := Vm.categoryAt_answered hc
      · exact absurd habsent (category_ne_absent host)
      · obtain ⟨hs', hconforms⟩ :=
          readShape_sound hread hdescribed hdynamic hk hw hx hcategory hc hrest
        exact ⟨hs', _, hx, hconforms⟩

/-- Reading to any depth lets through only what conforms. -/
theorem readAs_sound {h : Handler} (hh : Raises h) (fuel depth : Nat) (index : Int)
    (type : TypeExpr) :
    ReadsSoundly ctx k (readAs ctx run fuel k h depth index type) index type := by
  induction depth generalizing index type with
  | zero =>
      intro s v s' _ _ hanswer
      cases hanswer
  | succ depth ih =>
      intro s v s' hk hw hanswer
      unfold readAs at hanswer
      obtain ⟨host, t, hdescribe, hguarded⟩ := bind_answered hanswer
      obtain ⟨hdescribed, noted, rfl⟩ := describe_answered hdescribe
      have hnoted : Gathers k [] s { s with described := noted } := Leaves.same rfl rfl rfl rfl rfl
      obtain ⟨hs', x, hx, hconforms⟩ :=
        readHost_sound ih hh hdescribed (by exact hk) (by exact hw)
          (guardedIfChecking_answered hguarded)
      exact ⟨gathers_widen hnoted hs', x, hx,
        conformsFrom_widen hconforms hnoted.rest (.of_same rfl rfl rfl)⟩

/-- What has been read as a type conforms to it, wherever a program has come to.
Only if the value leads to the registry of its machine, where the read keeps
what it wraps, need that be said of what tables were found to hold meanwhile. -/
theorem readValue_sound {fuel : Nat} {type : TypeExpr} {v : HostValue} (hs : Reachable ctx s)
    (hk : k < s.machines.size)
    (hread : readValue ctx run fuel k .standard index type s = .ok v s') :
    ∃ x, Vm.valueAt? index (s.vm k) = .ok x (s.vm k)
      ∧ Conforms ctx.classes .any (Found k s s') x type
      ∧ ((∀ w, x = some w → ¬ s.heap.LeadsTo w (s.machine k).registry) →
          Conforms ctx.classes .any (fun id u => u = s.heap.table id) x type) := by
  have hraises : Raises .standard := trivial
  obtain ⟨_, x, hx, hconforms⟩ :=
    readAs_sound hraises fuel readLimit index type s v s' hk hs.wellKept hread
  refine ⟨x, hx, hconforms, fun hapart => hconforms.inHeap fun w hw id hid u hu => ?_⟩
  refine hu.eq ?_
  rintro rfl
  exact hapart w hw hid

/-- A program without classes or blocks. -/
abbrev bare : Context := ⟨[], ⟨[], 1, true, #[], #[], 0⟩⟩

/-- The state after a list of one number has been pushed. -/
def listPushed : Session :=
  final (step bare (runBlock bare 9) 9
    (.push (.sequence .list [.value (.int 5)]) .none) (Session.start 1 true))

theorem listPushed_reachable : Reachable bare listPushed := (Reachable.start rfl).step 9 _

/-- A list of numbers has been read as one. -/
theorem readValue_sound_list :
    ∃ v s', readValue bare (runBlock bare 9) 9 0 .standard (-1)
        (.generic (.sequence .list) [.cls (.integer .plain)]) listPushed = .ok v s'
      ∧ 0 < listPushed.machines.size
      ∧ ∃ x, Vm.valueAt? (-1) (listPushed.vm 0) = .ok x (listPushed.vm 0)
        ∧ Conforms [] .any (Found 0 listPushed s') x
            (.generic (.sequence .list) [.cls (.integer .plain)]) := by
  obtain ⟨v, s', hread, _⟩ : ∃ v s', readValue bare (runBlock bare 9) 9 0 .standard (-1)
      (.generic (.sequence .list) [.cls (.integer .plain)]) listPushed = .ok v s' ∧ True :=
    Ends.eq_ok (by decide +kernel)
  have hsize : 0 < listPushed.machines.size := by decide +kernel
  obtain ⟨x, hx, hconforms, _⟩ := readValue_sound listPushed_reachable hsize hread
  exact ⟨v, s', hread, hsize, x, hx, hconforms⟩

/-- A list whose first element is a number is none of nothing but nil. -/
theorem not_list_of_none {cs : Classes} {h : Heap} {n : Int} (hlength : 0 < (h.table id).length)
    (helement : (h.table id).get (.int 1) = .int n) :
    ¬ Conforms cs .none (fun id u => u = h.table id) (some (.table id))
      (.generic (.sequence .list) [.none]) := by
  intro hconforms
  obtain ⟨id', whole, hid, rfl, hitems⟩ := hconforms.items_of_list
  cases hid
  obtain ⟨w, ⟨u, rfl, hw⟩, hitem⟩ := hitems 0 hlength
  have hnil : some w = some .nil := hitem.nil_of_none
  cases hnil
  cases helement.symm.trans hw

/-- A list of a number is read as a list of nothing but nil, if that is written
with the missing type, although its element is not nil. Written with the class
of `none`, it is refused. -/
theorem list_of_none_read :
    Ends (readValue bare (runBlock bare 9) 9 0 .standard (-1)
        (.generic (.sequence .list) [.none]) listPushed) (fun _ _ => True) (fun _ _ => False)
      ∧ Ends (readValue bare (runBlock bare 9) 9 0 .standard (-1)
        (.generic (.sequence .list) [.cls .none]) listPushed) (fun _ _ => False) (fun _ _ => True)
      ∧ Ends (Vm.valueAt? (-1) (listPushed.vm 0)) (fun x _ => x = some (.table 1))
        (fun _ _ => False)
      ∧ ¬ Conforms [] .none (fun id u => u = listPushed.heap.table id) (some (.table 1))
        (.generic (.sequence .list) [.none]) := by
  have hlength : 0 < (listPushed.heap.table 1).length := by decide +kernel
  have helement : (listPushed.heap.table 1).get (.int 1) = .int 5 := by decide +kernel
  exact ⟨by decide +kernel, by decide +kernel, by decide +kernel,
    not_list_of_none hlength helement⟩

end Bridge

end StackBridge
